import Finchers.Common
import Finchers.Juniper.Request
import Finchers.Lib.QueryString

/-!
# Requests of `GET` and `POST`

The same three fields are sent in the query string of a `GET` request, each percent-encoded once, and
in the JSON body of a `POST` request.

* `SerdeQs`, `SerdeJson` — what the other libraries read;
* `get_agrees_iff` — **when both are decoded to the same request**: there is no operation name, since
  the query string is searched for `operation_name`, and a further percent-decoding leaves the query
  and the variables as they are;
* `get_disagrees` — an operation name is lost, and an escape in a query is decoded.
-/

set_option autoImplicit false

namespace Finchers.Juniper

open Resumable QueryString

variable {V ε : Type}

/-! ## What the other libraries read -/

/-- The value of a key, if there is one. -/
def Carries (params : List (Str × Str)) (key : String) (value : Option Str) : Prop :=
  ∀ s, value = some s ↔ (key.toList, s) ∈ params

/-- A key without brackets: letters and underscores. -/
def plainKey (key : Str) : Bool := !key.isEmpty && key.all fun c => c.isAlpha || c == '_'

/-- `serde_qs::from_str` for a `ParsedQuery`: it decodes the keys and values once, takes the fields by
their names and ignores other keys.  Nothing is said of empty values of the optional fields. -/
def SerdeQs (fromQueryStr : Str → Except String ParsedQuery) : Prop :=
  ∀ {s params} (parsed : ParsedQuery), Writes s params → (params.map Prod.fst).Nodup →
    (∀ p ∈ params, plainKey p.1 = true) → ("query".toList, parsed.query) ∈ params →
    Carries params "operation_name" parsed.operationName → Carries params "variables" parsed.vars →
    parsed.operationName ≠ some [] → parsed.vars ≠ some [] → fromQueryStr s = .ok parsed

/-- A relation between bodies and the fields of the objects that they are the JSON of. -/
abbrev BodyFields (V : Type) := List UInt8 → Str → Option Str → Option V → Prop

/-- `serde_json` reads the fields `query`, `operationName` and `variables` of a body; an optional field
that is `null` is as good as none.  An empty text is not JSON. -/
structure SerdeJson (x : Readers V) (isNull : V → Bool) (fields : BodyFields V) : Prop where
  body : ∀ {body query operationName vars}, fields body query operationName vars →
    x.fromJsonSlice body = .ok (.single ⟨query, operationName, vars.filter fun v => !isNull v⟩)
  nonempty : ∀ v, x.fromJsonStr [] ≠ .ok v

/-! ## The two requests -/

/-- The parameters of a `GET` request. -/
def getParams (query : Str) (operationName vars : Option Str) : List (Str × Str) :=
  ("query".toList, query) :: (operationName.toList.map fun s => ("operationName".toList, s)) ++
    vars.toList.map fun s => ("variables".toList, s)

theorem nodup_getParams (query : Str) (operationName vars : Option Str) :
    ((getParams query operationName vars).map Prod.fst).Nodup := by
  cases operationName <;> cases vars <;> simp [getParams]

theorem plainKey_getParams {query : Str} {operationName vars : Option Str} {p : Str × Str}
    (h : p ∈ getParams query operationName vars) : plainKey p.1 = true := by
  simp only [getParams, List.cons_append, List.mem_cons, List.mem_append, List.mem_map] at h
  rcases h with rfl | ⟨_, -, rfl⟩ | ⟨_, -, rfl⟩
  · exact (by decide : plainKey "query".toList = true)
  · exact (by decide : plainKey "operationName".toList = true)
  · exact (by decide : plainKey "variables".toList = true)

/-- What serde_qs reads of them: not the operation name. -/
theorem fromQueryStr_get {fromQueryStr : Str → Except String ParsedQuery} (hqs : SerdeQs fromQueryStr)
    {query : Str} {operationName vars : Option Str} {s : Str} {params : List (Str × Str)}
    (hwrites : Writes s params) (hparams : params.Perm (getParams query operationName vars))
    (hvars : vars ≠ some []) : fromQueryStr s = .ok ⟨query, none, vars⟩ := by
  have hkeys : (params.map Prod.fst).Nodup :=
    (hparams.map Prod.fst).nodup_iff.mpr (nodup_getParams query operationName vars)
  refine hqs _ hwrites hkeys (fun p hp => plainKey_getParams (hparams.mem_iff.mp hp)) ?_ ?_ ?_
    (by simp) hvars
  · exact hparams.mem_iff.mpr (by simp [getParams])
  · intro t
    rw [hparams.mem_iff]
    simp [getParams]
  · intro t
    rw [hparams.mem_iff]
    simp [getParams]

theorem mapError_eq_ok_iff {E F A : Type} {x : Except E A} {f : E → F} {a : A} :
    x.mapError f = .ok a ↔ x = .ok a := by
  cases x <;> simp [Except.mapError]

theorem pure_eq_ok_iff {E A : Type} {a b : A} : (pure a : Except E A) = .ok b ↔ a = b := by
  constructor
  · rintro ⟨⟩
    rfl
  · rintro rfl
    rfl

theorem decodeUtf8_eq_ok_iff {s t : Str} :
    (decodeUtf8 s : Except (Error ε) Str) = .ok t ↔ EncodedStr.percentDecode s = .ok t :=
  mapError_eq_ok_iff

/-- A query string without variables comes to a request. -/
theorem parseQueryStr_none_iff {x : Readers V} {s query : Str}
    (hs : x.fromQueryStr s = .ok ⟨query, none, none⟩) {r : GraphQLRequest V} :
    (parseQueryStr x s : Except (Error ε) (GraphQLRequest V)) = .ok r ↔
      ∃ q, EncodedStr.percentDecode query = .ok q ∧ .single ⟨q, none, none⟩ = r := by
  unfold parseQueryStr
  simp [hs, bind_eq_ok_iff, mapError_eq_ok_iff, pure_eq_ok_iff, decodeUtf8_eq_ok_iff]

/-- A query string with variables comes to a request. -/
theorem parseQueryStr_some_iff {x : Readers V} {s query text : Str}
    (hs : x.fromQueryStr s = .ok ⟨query, none, some text⟩) {r : GraphQLRequest V} :
    (parseQueryStr x s : Except (Error ε) (GraphQLRequest V)) = .ok r ↔
      ∃ q, EncodedStr.percentDecode query = .ok q ∧ ∃ decoded,
        EncodedStr.percentDecode text = .ok decoded ∧ ∃ v, x.fromJsonStr decoded = .ok v ∧
          .single ⟨q, none, some v⟩ = r := by
  unfold parseQueryStr
  simp [-bind_pure_comp, hs, bind_eq_ok_iff, mapError_eq_ok_iff, pure_eq_ok_iff,
    decodeUtf8_eq_ok_iff]

/-- A JSON text that denotes the value, also after a further percent-decoding. -/
def Stable (x : Readers V) (text : Str) (v : V) : Prop :=
  ∃ decoded, EncodedStr.percentDecode text = .ok decoded ∧ x.fromJsonStr decoded = .ok v

theorem percentDecode_eq_self_iff {s : Str} :
    EncodedStr.percentDecode s = .ok s ↔ Percent.hasEscape (Utf8.bytes s) = false :=
  EncodedStr.percentDecode_eq_ok_iff.trans (Percent.decode_eq_self_iff (Utf8.bytes s))

/-- Without an escape a text is stable. -/
theorem stable_of_no_escape {x : Readers V} {text : Str} {v : V} (h : x.fromJsonStr text = .ok v)
    (hno : Percent.hasEscape (Utf8.bytes text) = false) : Stable x text v :=
  ⟨text, percentDecode_eq_self_iff.mpr hno, h⟩

theorem Poll.ofResult_eq_ready_iff {E A : Type} {r : Except E A} {x : A} :
    Poll.ofResult r = .ok (.ready x) ↔ r = .ok x := by
  cases r <;> simp [Poll.ofResult]

/-- What a `GET` request with these fields comes to. -/
theorem parseQueryStr_get_iff {x : Readers V} {isNull : V → Bool} {query s : Str}
    {operationName : Option Str} {vars : Option (Str × V)}
    (hs : x.fromQueryStr s = .ok ⟨query, none, vars.map Prod.fst⟩) :
    (parseQueryStr x s : Except (Error ε) (GraphQLRequest V)) =
        .ok (.single ⟨query, operationName, (vars.map Prod.snd).filter fun v => !isNull v⟩) ↔
      Percent.hasEscape (Utf8.bytes query) = false ∧ operationName = none ∧
        ∀ p ∈ vars, Stable x p.1 p.2 ∧ isNull p.2 = false := by
  rw [← percentDecode_eq_self_iff]
  cases vars with
  | none =>
    rw [parseQueryStr_none_iff hs]
    constructor
    · rintro ⟨q, hq, h⟩
      cases h
      exact ⟨hq, rfl, by simp⟩
    · rintro ⟨hq, rfl, -⟩
      exact ⟨query, hq, rfl⟩
  | some p =>
    obtain ⟨text, v⟩ := p
    rw [parseQueryStr_some_iff hs]
    cases hnull : isNull v with
    | true =>
      have hsent : ((some (text, v)).map Prod.snd).filter (fun v => !isNull v) = none := by
        simp [Option.filter, hnull]
      rw [hsent]
      constructor
      · rintro ⟨q, -, decoded, -, v', -, h⟩
        cases h
      · rintro ⟨-, -, h⟩
        have := (h (text, v) rfl).2
        rw [hnull] at this
        cases this
    | false =>
      have hsent : ((some (text, v)).map Prod.snd).filter (fun v => !isNull v) = some v := by
        simp [Option.filter, hnull]
      rw [hsent]
      constructor
      · rintro ⟨q, hq, decoded, ht, v', hv, h⟩
        cases h
        refine ⟨hq, rfl, ?_⟩
        rintro p ⟨⟩
        exact ⟨⟨decoded, ht, hv⟩, hnull⟩
      · rintro ⟨hq, rfl, h⟩
        obtain ⟨⟨decoded, ht, hv⟩, -⟩ := h (text, v) rfl
        exact ⟨query, hq, decoded, ht, v, hv, rfl⟩

/-- What a `GET` request comes to. -/
theorem poll_get_iff {x : Readers V} {get : RequestInput} {s : Str} (hget : get.query = some s)
    {r : GraphQLRequest V} (data : Poll (Error ε) (List UInt8)) :
    RequestFuture.poll x get (.apply .get data) = .ok (.ready r) ↔
      (parseQueryStr x s : Except (Error ε) (GraphQLRequest V)) = .ok r := by
  have happly : RequestKind.apply .get data = .get := if_pos rfl
  rw [happly, RequestFuture.poll, hget]
  exact Poll.ofResult_eq_ready_iff

/-- What a `POST` request with a JSON body comes to. -/
theorem poll_post {x : Readers V} {post : RequestInput}
    (hpost : post.contentType = .ok (some "application/json".toList)) {body : List UInt8}
    {r : GraphQLRequest V} (hbody : x.fromJsonSlice body = .ok r) :
    RequestFuture.poll x post (.apply .post (.ok (.ready body))) =
      (.ok (.ready r) : Poll (Error ε) (GraphQLRequest V)) := by
  have happly : RequestKind.apply .post (.ok (.ready body)) = (.post (.ok (.ready body)) :
      RequestKind ε) := if_neg (by decide)
  rw [happly, RequestFuture.poll, Poll.ofResult_eq_ready_iff, readBody, hpost, bind_eq_ok_iff]
  exact ⟨_, rfl, (if_pos rfl).trans (mapError_eq_ok_iff.mpr hbody)⟩

/-- **When `GET` and `POST` agree.**  Let a query string carry the fields in any order, each encoded
once, and let a JSON body have the same fields.  Then both requests are decoded to the same GraphQL
request iff the query has no `%` that two hexadecimal digits follow, there is no operation name, and the
variables, if there are any, are not `null` and denote the same value after one more percent-decoding. -/
theorem get_agrees_iff {x : Readers V} {isNull : V → Bool} {fields : BodyFields V}
    (hqs : SerdeQs x.fromQueryStr) (hjson : SerdeJson x isNull fields) {query : Str}
    {operationName : Option Str} {vars : Option (Str × V)}
    (hvars : ∀ p ∈ vars, x.fromJsonStr p.1 = .ok p.2) {get post : RequestInput} {s : Str}
    (hget : get.query = some s) {params : List (Str × Str)} (hwrites : Writes s params)
    (hparams : params.Perm (getParams query operationName (vars.map Prod.fst)))
    (hpost : post.contentType = .ok (some "application/json".toList)) {body : List UInt8}
    (hbody : fields body query operationName (vars.map Prod.snd)) (data : Poll (Error ε) (List UInt8)) :
    RequestFuture.poll x get (.apply .get data) =
        RequestFuture.poll x post (.apply .post (.ok (.ready body))) ↔
      Percent.hasEscape (Utf8.bytes query) = false ∧ operationName = none ∧
        ∀ p ∈ vars, Stable x p.1 p.2 ∧ isNull p.2 = false := by
  have hne : vars.map Prod.fst ≠ some [] := by
    intro h
    obtain ⟨p, rfl, hp⟩ := Option.map_eq_some_iff.mp h
    exact hjson.nonempty p.2 (hp ▸ hvars p rfl)
  have hs := fromQueryStr_get hqs hwrites hparams hne
  rw [poll_post hpost (hjson.body hbody), poll_get_iff hget, parseQueryStr_get_iff hs]

/-! ## Some readers -/

theorem lookup_eq_some_iff_mem {params : List (Str × Str)} (h : (params.map Prod.fst).Nodup)
    {key value : Str} : params.lookup key = some value ↔ (key, value) ∈ params := by
  induction params with
  | nil => simp
  | cons p params ih =>
    obtain ⟨k, v⟩ := p
    rw [List.map_cons, List.nodup_cons] at h
    by_cases hk : key = k
    · subst hk
      have hnot : (key, value) ∉ params := fun hmem => h.1 (List.mem_map.mpr ⟨_, hmem, rfl⟩)
      simp [hnot, eq_comm]
    · have hbeq : (key == k) = false := beq_eq_false_iff_ne.mpr hk
      rw [List.lookup_cons, hbeq]
      simp [ih h.2, hk]

/-- Some bodies, and the requests that they are read as. -/
def bodies : List (String × JuniperRequest Bool) :=
  [("\x7b\"query\":\"\x7b a \x7d # 5% año\",\"variables\":true\x7d",
      ⟨"\x7b a \x7d # 5% año".toList, none, some true⟩),
    ("\x7b\"query\":\"%41\"\x7d", ⟨"%41".toList, none, none⟩),
    ("\x7b\"query\":\"a\",\"operationName\":\"b\"\x7d", ⟨"a".toList, some "b".toList, none⟩)]

/-- Readers of query strings, of the truth values and of these bodies. -/
def someReaders : Readers Bool where
  fromQueryStr s :=
    match QueryString.read s with
    | .error _ => .error "invalid utf-8 sequence"
    | .ok params =>
      match params.lookup "query".toList with
      | none => .error "missing field query"
      | some query =>
        .ok ⟨query, params.lookup "operation_name".toList, params.lookup "variables".toList⟩
  fromJsonStr s :=
    if s = "true".toList then .ok true
    else if s = "false".toList then .ok false
    else .error "expected value"
  fromJsonSlice body :=
    match bodies.find? fun entry => Utf8.bytes entry.1.toList == body with
    | some entry => .ok (.single entry.2)
    | none => .error "expected value"

/-- The fields of these bodies. -/
def someFields : BodyFields Bool := fun body query operationName vars =>
  someReaders.fromJsonSlice body = .ok (.single ⟨query, operationName, vars⟩)

theorem serdeQs_someReaders : SerdeQs someReaders.fromQueryStr := by
  intro s params parsed hwrites hnodup _ hquery hname hvars _ _
  have hne : params ≠ [] := List.ne_nil_of_mem hquery
  have hlookup : ∀ key value, Carries params key value → params.lookup key.toList = value := by
    intro key value h
    apply Option.ext
    intro t
    rw [lookup_eq_some_iff_mem hnodup, h t]
  simp only [someReaders, read_of_writes hwrites hne, (lookup_eq_some_iff_mem hnodup).mpr hquery,
    hlookup _ _ hname, hlookup _ _ hvars]

theorem serdeJson_someReaders : SerdeJson someReaders (fun _ => false) someFields where
  body := by
    intro body query operationName vars h
    have hfilter : (vars.filter fun _ => !false) = vars := by cases vars <;> rfl
    rw [hfilter]
    exact h
  nonempty v := by decide +revert

/-- The `GET` request with this query string. -/
def getOf (s : Str) : Poll (Error Unit) (GraphQLRequest Bool) :=
  RequestFuture.poll someReaders ⟨some s, .ok none⟩ (.apply .get (.ok .notReady))

/-- The `POST` request with this JSON body. -/
def postOf (body : List UInt8) : Poll (Error Unit) (GraphQLRequest Bool) :=
  RequestFuture.poll someReaders ⟨none, .ok (some "application/json".toList)⟩
    (.apply .post (.ok (.ready body)))

/-- A query with a `%` that is no escape, and with variables. -/
theorem get_agrees_percent : ∃ s body,
    Writes s (getParams "\x7b a \x7d # 5% año".toList none (some "true".toList)) ∧
      someFields body "\x7b a \x7d # 5% año".toList none (some true) ∧ getOf s = postOf body := by
  obtain ⟨s, hs⟩ := exists_writes (getParams "\x7b a \x7d # 5% año".toList none (some "true".toList))
  have hvars : ∀ p ∈ some ("true".toList, true), someReaders.fromJsonStr p.1 = .ok p.2 := by
    rintro p ⟨⟩
    decide
  have hbody : someFields (Utf8.bytes
      "\x7b\"query\":\"\x7b a \x7d # 5% año\",\"variables\":true\x7d".toList)
      "\x7b a \x7d # 5% año".toList none (some true) := rfl
  refine ⟨s, _, hs, hbody, (get_agrees_iff serdeQs_someReaders serdeJson_someReaders hvars rfl hs
    (List.Perm.refl _) rfl hbody _).mpr ⟨by decide, rfl, ?_⟩⟩
  rintro p ⟨⟩
  exact ⟨stable_of_no_escape (hvars _ rfl) (by decide), rfl⟩

theorem getOf_ne_postOf {query s : Str} {operationName : Option Str} {body : List UInt8}
    (hwrites : Writes s (getParams query operationName none))
    (hbody : someFields body query operationName none)
    (h : Percent.hasEscape (Utf8.bytes query) = true ∨ operationName ≠ none) :
    getOf s ≠ postOf body := by
  have hs := fromQueryStr_get serdeQs_someReaders hwrites (List.Perm.refl _) (by simp)
  have hpost : postOf body = .ok (.ready (.single ⟨query, operationName, none⟩)) :=
    poll_post rfl hbody
  intro heq
  rw [hpost, getOf, poll_get_iff rfl, parseQueryStr_none_iff hs] at heq
  obtain ⟨q, hq, hr⟩ := heq
  cases hr
  rcases h with h | h
  · rw [percentDecode_eq_self_iff.mp hq] at h
    cases h
  · exact h rfl

/-- A query with an escape is decoded twice, and an operation name is lost. -/
theorem get_disagrees :
    SerdeQs someReaders.fromQueryStr ∧ SerdeJson someReaders (fun _ => false) someFields ∧
    (Writes "query=%2541".toList (getParams "%41".toList none none) ∧
      ∃ body, someFields body "%41".toList none none ∧ getOf "query=%2541".toList ≠ postOf body) ∧
    (Writes "query=a&operationName=b".toList (getParams "a".toList (some "b".toList) none) ∧
      ∃ body, someFields body "a".toList (some "b".toList) none ∧
        getOf "query=a&operationName=b".toList ≠ postOf body) := by
  have hself : ∀ s : Str, (Utf8.bytes s).all Percent.unescaped = true → EncodedText s s :=
    fun _ h => Percent.encoded_self h
  have hescape : EncodedText "%2541".toList "%41".toList :=
    .escape (show Percent.hexVal 50 = some 2 from rfl) (show Percent.hexVal 53 = some 5 from rfl)
      (Percent.encoded_self (by decide))
  have hvalue : Writes "query=%2541".toList (getParams "%41".toList none none) :=
    ⟨["query=%2541".toList], rfl, .cons ⟨_, _, rfl, hself _ (by decide), hescape⟩ .nil⟩
  have hname : Writes "query=a&operationName=b".toList
      (getParams "a".toList (some "b".toList) none) :=
    ⟨["query=a".toList, "operationName=b".toList], rfl,
      .cons ⟨"query".toList, "a".toList, rfl, hself _ (by decide), hself _ (by decide)⟩
      (.cons ⟨"operationName".toList, "b".toList, rfl, hself _ (by decide), hself _ (by decide)⟩ .nil)⟩
  have hbody : someFields (Utf8.bytes "\x7b\"query\":\"%41\"\x7d".toList) "%41".toList none none := rfl
  have hbodyName : someFields (Utf8.bytes
      "\x7b\"query\":\"a\",\"operationName\":\"b\"\x7d".toList) "a".toList (some "b".toList) none := rfl
  refine ⟨serdeQs_someReaders, serdeJson_someReaders, ⟨hvalue, _, hbody, ?_⟩, hname, _, hbodyName, ?_⟩
  · exact getOf_ne_postOf hvalue hbody (Or.inl (by decide))
  · exact getOf_ne_postOf hname hbodyName (Or.inr (by decide))

end Finchers.Juniper
