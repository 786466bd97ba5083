import Mathlib.Data.List.Dedup
import Finchers.Service

/-!
# The cookies of a response

What the `Set-Cookie` headers of a response are, and when they are complete.

* `serve_eq` — a response is sent exactly at the end of a run of `poll_apply`, and is `respond` of
  its result;
* `finishHeaders_getAll` — `poll` adds one header for each cookie of the delta, after the headers
  of the output or error and before the supplemental ones;
* `encodeCookie_eq` — a header is the text of the cookie, cut off at the capacity of the buffer;
* `readSetCookie_encoded_iff` — what a reader makes of a complete text;
* `setCookie_complete_iff` — **the header of a cookie is complete iff the cookie `Fits`, and it is
  read back as that cookie iff it is `Readable` as well.**
-/

set_option autoImplicit false

namespace Finchers

open Resumable

variable {ε Bd Env σ B : Type} {ts : List Type}

/-! ## Header maps -/

namespace HeaderMap

theorem getAll_eq_nil_of_not_mem {m : HeaderMap} {name : HeaderName}
    (h : name ∉ m.map (·.1)) : getAll m name = [] := by
  rw [getAll, List.map_eq_nil_iff, List.filter_eq_nil_iff]
  intro e he heq
  exact h (List.mem_map.mpr ⟨e, he, by simpa using heq⟩)

theorem getAll_foldl_extend (l : List (HeaderName × List HeaderValue)) (h : HeaderMap)
    (name : HeaderName) :
    getAll (l.foldl (fun h e => extend h (e.2.map (fun value => (e.1, value)))) h) name =
      getAll h name ++ (l.filter (fun e => e.1 == name)).flatMap (·.2) := by
  induction l generalizing h with
  | nil => simp
  | cons e l ih =>
    rw [List.foldl_cons, ih, extend_eq, getAll_append_list, List.append_assoc]
    congr 1
    by_cases he : e.1 = name
    · simp [getAll, he, List.filter_map, Function.comp_def]
    · simp [getAll, he, List.filter_map, Function.comp_def]

/-- Moving all entries of a map to another one keeps, for each name, its values in order. -/
theorem getAll_drain (h hdrs : HeaderMap) (name : HeaderName) :
    getAll (hdrs.drain.foldl (fun h e => extend h (e.2.map (fun value => (e.1, value)))) h) name =
      getAll h name ++ getAll hdrs name := by
  rw [getAll_foldl_extend]
  congr 1
  have hf : hdrs.drain.filter (fun e => e.1 == name) =
      ((hdrs.map (·.1)).dedup.filter (· == name)).map (fun n => (n, getAll hdrs n)) := by
    rw [drain, List.filter_map]
    rfl
  rw [hf, List.filter_beq, List.flatMap_map]
  by_cases hm : name ∈ hdrs.map (·.1)
  · rw [List.count_dedup, if_pos hm]
    simp
  · rw [List.count_dedup, if_neg hm, getAll_eq_nil_of_not_mem hm]
    simp

theorem getAll_foldl_append (display : CookieDisplay) (cs : List Cookie) (h : HeaderMap)
    (name : HeaderName) :
    getAll (cs.foldl (fun h c => append h SET_COOKIE (encodeCookie display c)) h) name =
      getAll h name ++ (if SET_COOKIE = name then cs.map (encodeCookie display) else []) := by
  induction cs generalizing h with
  | nil => simp
  | cons c cs ih =>
    rw [List.foldl_cons, ih, getAll_append, List.append_assoc]
    congr 1
    split <;> simp

end HeaderMap

/-- The cookies of the delta of a context. -/
def Context.delta (cx : Context) : List Cookie :=
  match cx.cookies with
  | some jar => jar.delta
  | none => []

/-- The supplemental values of a context for a header. -/
def Context.supplemental (cx : Context) (name : HeaderName) : List HeaderValue :=
  match cx.responseHeaders with
  | some hdrs => HeaderMap.getAll hdrs name
  | none => []

theorem appendCookies_getAll (display : CookieDisplay) (cx : Context) (h : HeaderMap)
    (name : HeaderName) :
    (appendCookies display cx h).getAll name = HeaderMap.getAll h name ++
      (if SET_COOKIE = name then cx.delta.map (encodeCookie display) else []) := by
  unfold appendCookies Context.delta
  cases cx.cookies with
  | none => simp
  | some jar => exact HeaderMap.getAll_foldl_append display jar.delta h name

theorem appendResponseHeaders_getAll (cx : Context) (h : HeaderMap) (name : HeaderName) :
    (appendResponseHeaders cx h).getAll name =
      HeaderMap.getAll h name ++ cx.supplemental name := by
  unfold appendResponseHeaders Context.supplemental
  cases cx.responseHeaders with
  | none => simp
  | some hdrs => exact HeaderMap.getAll_drain h hdrs name

/-- **The headers of a response, by name**: those of the output or error, then the cookies, then
the supplemental ones. -/
theorem finishHeaders_getAll (display : CookieDisplay) (cx : Context) (h : HeaderMap)
    (name : HeaderName) :
    (finishHeaders display cx h).getAll name = HeaderMap.getAll h name ++
      (if SET_COOKIE = name then cx.delta.map (encodeCookie display) else []) ++
        cx.supplemental name := by
  rw [finishHeaders, appendResponseHeaders_getAll, appendCookies_getAll]

/-! ## Runs -/

section

variable [HttpError ε] (display : CookieDisplay) (intoResponse : HList ts → Request → Response B)
  (f : EndpointAction ε Bd Env σ ts)

/-- A run up to the response is a run of `poll_apply`, and the response is `respond` of its
result. -/
theorem serve_eq (gs : List (Thread Env → Thread Env)) (fut : AppFuture σ Bd) (th : Thread Env) :
    AppFuture.serve display intoResponse f gs fut th = (do
      let (r, fut, th) ← AppFuture.drive f gs fut th
      match r with
      | some r =>
        return (some (fut.respond display intoResponse r).1, (fut.respond display intoResponse r).2, th)
      | none => return (none, fut, th)) := by
  induction gs generalizing fut th with
  | nil => rfl
  | cons g gs ih =>
    rw [AppFuture.serve, AppFuture.drive, AppFuture.poll]
    rcases Traced.eq_ok_or_error (AppFuture.pollApply f fut (g th)) with
      ⟨l, ⟨r, fut', th'⟩, h⟩ | ⟨l, p, h⟩
    · rw [h]
      rcases r with e | x | _
      · simp [Traced.prepend]
      · simp [Traced.prepend]
      · simp only [Traced.mk_ok_bind, Traced.pure_def, Traced.prepend_mk, ih]
        rcases Traced.eq_ok_or_error (AppFuture.drive f gs fut' th') with
          ⟨l', a, h'⟩ | ⟨l', p, h'⟩ <;> rw [h'] <;> simp [Traced.prepend]
    · rw [h]
      simp

end

/-! ## Complete headers -/

section

variable (display : CookieDisplay)

/-- **What ends up in a header**: the text of the cookie up to the capacity of the buffer. -/
theorem encodeCookie_eq (c : Cookie) : encodeCookie display c =
    (display.encoded c).take (max 31 (Utf8.len c.name + Utf8.len c.value + 1)) := by
  unfold encodeCookie
  simp only
  rw [FixedBuf.writeFmt_data, CookieDisplay.encoded]
  congr 1
  split <;> omega

/-- The expansion of the name and value by escapes and the text of the attributes fit into what
the buffer has beyond `name=value`. -/
def Cookie.Fits (c : Cookie) : Prop :=
  2 * display.escapes c.name + 2 * display.escapes c.value + display.parametersLen c ≤
    31 - (Utf8.len c.name + Utf8.len c.value + 1)

instance (c : Cookie) : Decidable (c.Fits display) := inferInstanceAs (Decidable (_ ≤ _))

theorem encodeCookie_eq_encoded_iff (c : Cookie) :
    encodeCookie display c = display.encoded c ↔ c.Fits display := by
  have hlen := display.length_encoded c
  rw [encodeCookie_eq]
  unfold Cookie.Fits
  refine ⟨fun h => ?_, fun h => List.take_of_length_le (by omega)⟩
  have hle := List.length_take_le (max 31 (Utf8.len c.name + Utf8.len c.value + 1))
    (display.encoded c)
  rw [h] at hle
  omega

end

/-! ## Reading a header -/

/-- What a reader takes from a `Set-Cookie` header: the name and the value of the first pair,
percent-decoded, and the attributes.  Without a pair, or with an empty name, there is no cookie. -/
def readSetCookie (header : HeaderValue) :
    Option (List UInt8 × List UInt8 × List Params.Param) :=
  match Params.read header with
  | ⟨name, some value⟩ :: attributes =>
    if name = [] then none else some (Percent.decode name, Percent.decode value, attributes)
  | _ => none

/-- The text of a cookie can be read back: it has a name, its name and value survive the encoding, and
no attribute has a `;`, or white space around its value. -/
structure Cookie.Readable (display : CookieDisplay) (c : Cookie) : Prop where
  named : c.name ≠ []
  name : display.encodeSet.Survives (Utf8.bytes c.name)
  value : display.encodeSet.Survives (Utf8.bytes c.value)
  attributes : ∀ a ∈ display.parameters c, a.Clean

/-- A byte of an encoding: a visible one that separates nothing. -/
def Token (b : UInt8) : Prop := 33 ≤ b ∧ b < 127 ∧ b ≠ 59 ∧ b ≠ 61

instance (b : UInt8) : Decidable (Token b) := inferInstanceAs (Decidable (_ ∧ _))

theorem token_literal : ∀ b, Percent.userinfoEncodeSet b = false → Token b :=
  UInt8.forall_of_lt (by decide +kernel)

theorem token_hexDigit : ∀ n, n < 16 → Token (Percent.hexDigit n) := by decide

theorem Token.not_space {b : UInt8} (h : Token b) : FieldValue.isSpace b = false := by
  obtain ⟨h33, -, -, -⟩ := h
  have hne : ∀ n : UInt8, n < 33 → b ≠ n := by
    rintro n hn rfl
    exact absurd h33 (UInt8.not_le.mpr hn)
  simp [FieldValue.isSpace, hne 32 (by decide), hne 9 (by decide)]

/-- What is not escaped is a token, and so is what an escape is made of. -/
theorem token_encode {set : Percent.EncodeSet}
    (hset : ∀ {b}, Percent.userinfoEncodeSet b = true → set b = true) {bs : List UInt8} {b : UInt8}
    (h : b ∈ Percent.encode set bs) : Token b := by
  obtain ⟨a, -, hmem⟩ := List.mem_flatMap.mp h
  have hlt := a.toNat_lt
  cases ha : set a with
  | true =>
    rw [Percent.encodeByte_escaped ha] at hmem
    simp only [List.mem_cons, List.not_mem_nil, or_false] at hmem
    rcases hmem with rfl | rfl | rfl
    · decide
    · exact token_hexDigit _ (by omega)
    · exact token_hexDigit _ (by omega)
  | false =>
    rw [Percent.encodeByte_literal ha, List.mem_singleton] at hmem
    subst hmem
    refine token_literal b (Bool.eq_false_iff.mpr fun huserinfo => ?_)
    rw [hset huserinfo] at ha
    cases ha

theorem attributeByte_token : ∀ b, isAttributeByte b = true → Token b :=
  UInt8.forall_of_lt (by decide +kernel)

namespace CookieDisplay

variable (display : CookieDisplay) (c : Cookie)

/-- The name and the value, as they are printed. -/
def pair : Params.Param := ⟨display.encodedName c, some (display.encodedValue c)⟩

theorem token_name {b : UInt8} (h : b ∈ display.encodedName c) : Token b :=
  token_encode display.userinfo h

theorem token_value {b : UInt8} (h : b ∈ display.encodedValue c) : Token b :=
  token_encode display.userinfo h

theorem plain_pair : (display.pair c).Plain := by
  intro b hb
  have htoken := display.token_name c hb
  exact ⟨htoken.2.2.1, htoken.2.2.2, htoken.not_space⟩

theorem clean_pair : (display.pair c).Clean := by
  intro v hv
  cases hv
  refine ⟨fun h => (display.token_value c h).2.2.1 rfl, Params.trim_of_none fun b hb => ?_⟩
  exact (display.token_value c hb).not_space

theorem plain_parameters {a : Params.Param} (ha : a ∈ display.parameters c) : a.Plain := by
  intro b hb
  have htoken := attributeByte_token b (display.attributeName ha b hb)
  exact ⟨htoken.2.2.1, htoken.2.2.2, htoken.not_space⟩

theorem encodedName_eq_nil_iff : display.encodedName c = [] ↔ c.name = [] := by
  constructor
  · intro h
    have hlen := display.length_encodedName c
    rw [h, List.length_nil] at hlen
    exact Utf8.len_eq_zero_iff.mp (by omega)
  · intro h
    unfold encodedName
    rw [h]
    rfl

/-- A text is read as the pair, and each attribute by itself. -/
theorem read_encoded : Params.read (display.encoded c) =
    display.pair c :: (display.parameters c).flatMap fun a => Params.read (32 :: a.text) := by
  rw [encoded_eq_print]
  exact Params.read_print (display.plain_pair c) (display.clean_pair c) _

end CookieDisplay

/-- **The text of a cookie is read back as that cookie iff it is readable.** -/
theorem readSetCookie_encoded_iff (display : CookieDisplay) (c : Cookie) :
    readSetCookie (display.encoded c) =
      some (Utf8.bytes c.name, Utf8.bytes c.value, display.parameters c) ↔ c.Readable display := by
  have hread := Params.read_print_iff (display.plain_pair c) (display.clean_pair c)
    fun a ha => display.plain_parameters c ha
  have hname : Percent.decode (display.encodedName c) = Utf8.bytes c.name ↔ _ :=
    Percent.decode_encode_eq_iff display.keepsDigits (Utf8.bytes c.name)
  have hvalue : Percent.decode (display.encodedValue c) = Utf8.bytes c.value ↔ _ :=
    Percent.decode_encode_eq_iff display.keepsDigits (Utf8.bytes c.value)
  unfold readSetCookie
  rw [display.read_encoded c]
  rw [Params.read_print (display.plain_pair c) (display.clean_pair c), List.cons_inj_right] at hread
  simp only [CookieDisplay.pair]
  by_cases hnil : c.name = []
  · rw [if_pos ((display.encodedName_eq_nil_iff c).mpr hnil)]
    constructor
    · intro h
      cases h
    · intro h
      exact absurd hnil h.named
  · rw [if_neg fun h => hnil ((display.encodedName_eq_nil_iff c).mp h), Option.some.injEq,
      Prod.mk.injEq, Prod.mk.injEq, hname, hvalue, hread]
    constructor
    · rintro ⟨hn, hv, ha⟩
      exact ⟨hnil, hn, hv, ha⟩
    · intro h
      exact ⟨h.name, h.value, h.attributes⟩

/-! ## The cookies of a run -/

/-- The `Set-Cookie` headers of a response. -/
def setCookies {C : Type} (response : Response C) : List HeaderValue :=
  response.headers.getAll SET_COOKIE

/-- The `Set-Cookie` headers of a response: those of the output or error, the cookies of the delta,
and the supplemental ones. -/
theorem setCookies_respond [HttpError ε] (display : CookieDisplay)
    (intoResponse : HList ts → Request → Response B) (fut : AppFuture σ Bd)
    (r : Except (Error ε) (HList ts)) :
    setCookies (fut.respond display intoResponse r).1 =
      setCookies (baseResponse intoResponse r fut.context.request) ++
        fut.context.delta.map (encodeCookie display) ++ fut.context.supplemental SET_COOKIE := by
  unfold setCookies AppFuture.respond
  rw [finishHeaders_getAll, if_pos rfl]

/-- Among the `Set-Cookie` headers of a response there is exactly one for each cookie of the
delta, between `own` ones of the output or error and `supplemental` ones, and the one for the
`i`-th cookie is the complete text of that cookie. -/
def CarriesComplete (display : CookieDisplay) (headers own supplemental : List HeaderValue)
    (delta : List Cookie) (i : Nat) (c : Cookie) : Prop :=
  headers.length = own.length + delta.length + supplemental.length ∧
    headers[own.length + i]? = some (display.encoded c)

/-- The header of the `i`-th cookie, after `own` others, is read back as that cookie. -/
def ReadsBack (display : CookieDisplay) (headers own : List HeaderValue) (i : Nat) (c : Cookie) :
    Prop :=
  (headers[own.length + i]?).bind readSetCookie =
    some (Utf8.bytes c.name, Utf8.bytes c.value, display.parameters c)

/-- **The header of a cookie is complete iff the cookie fits the estimated buffer**, at the end
of any run; and it is complete and read back as the cookie iff the cookie is readable as well. -/
theorem setCookie_complete_iff [HttpError ε] (display : CookieDisplay)
    (intoResponse : HList ts → Request → Response B) (f : EndpointAction ε Bd Env σ ts)
    (gs : List (Thread Env → Thread Env)) (fut : AppFuture σ Bd) (th : Thread Env) {l : List Event}
    {r : Except (Error ε) (HList ts)} {fut' : AppFuture σ Bd} {th' : Thread Env}
    (h : AppFuture.drive f gs fut th = ⟨l, .ok (some r, fut', th')⟩) :
    ∃ response fut'', AppFuture.serve display intoResponse f gs fut th =
        ⟨l, .ok (some response, fut'', th')⟩ ∧
      let own := setCookies (baseResponse intoResponse r fut'.context.request)
      ∀ i c, fut'.context.delta[i]? = some c →
        (CarriesComplete display (setCookies response) own (fut'.context.supplemental SET_COOKIE)
          fut'.context.delta i c ↔ c.Fits display) ∧
        (CarriesComplete display (setCookies response) own (fut'.context.supplemental SET_COOKIE)
            fut'.context.delta i c ∧ ReadsBack display (setCookies response) own i c ↔
          c.Fits display ∧ c.Readable display) := by
  refine ⟨(fut'.respond display intoResponse r).1, (fut'.respond display intoResponse r).2, ?_, ?_⟩
  · rw [serve_eq, h]
    simp
  intro own i c hc
  have hset : setCookies (fut'.respond display intoResponse r).1 =
      own ++ fut'.context.delta.map (encodeCookie display) ++
        fut'.context.supplemental SET_COOKIE := setCookies_respond display intoResponse fut' r
  have hlt : i < fut'.context.delta.length := (List.getElem?_eq_some_iff.mp hc).1
  have hat : (setCookies (fut'.respond display intoResponse r).1)[own.length + i]? =
      some (encodeCookie display c) := by
    rw [hset, List.append_assoc, List.getElem?_append_right (by omega), Nat.add_sub_cancel_left,
      List.getElem?_append_left (by simpa using hlt), List.getElem?_map, hc]
    rfl
  have hcomplete : CarriesComplete display (setCookies (fut'.respond display intoResponse r).1) own
      (fut'.context.supplemental SET_COOKIE) fut'.context.delta i c ↔ c.Fits display := by
    rw [CarriesComplete, hat, Option.some.injEq, encodeCookie_eq_encoded_iff, hset]
    simp [Nat.add_assoc]
  refine ⟨hcomplete, ?_⟩
  rw [hcomplete]
  refine and_congr_right fun hfits => ?_
  rw [ReadsBack, hat, (encodeCookie_eq_encoded_iff display c).mpr hfits]
  exact readSetCookie_encoded_iff display c

/-! ## A cookie that does not fit -/

/-- What is printed of a cookie that has no attributes but `HttpOnly`, `Path` and `Domain`. -/
def plainParameters (c : Cookie) : List Params.Param :=
  (if c.httpOnly = some true then [⟨Utf8.bytes "HttpOnly".toList, none⟩] else []) ++
  (c.path.map fun p => ⟨pathName, some (Utf8.bytes p)⟩).toList ++
  (c.domain.map fun d => ⟨domainName, some (Utf8.bytes d)⟩).toList

theorem mem_plainParameters {c : Cookie} {a : Params.Param} (h : a ∈ plainParameters c) :
    a = ⟨Utf8.bytes "HttpOnly".toList, none⟩ ∨
      a.name = pathName ∧ a.value = c.path.map Utf8.bytes ∨
      a.name = domainName ∧ a.value = c.domain.map Utf8.bytes := by
  unfold plainParameters at h
  rw [List.mem_append, List.mem_append] at h
  rcases h with (h | h) | h
  · split at h
    · exact Or.inl (List.mem_singleton.mp h)
    · cases h
  · obtain ⟨p, hp, rfl⟩ := Option.map_eq_some_iff.mp (Option.mem_toList.mp h)
    exact Or.inr (Or.inl ⟨rfl, by rw [hp]; rfl⟩)
  · obtain ⟨d, hd, rfl⟩ := Option.map_eq_some_iff.mp (Option.mem_toList.mp h)
    exact Or.inr (Or.inr ⟨rfl, by rw [hd]; rfl⟩)

theorem keepsDigits_userinfo : Percent.userinfoEncodeSet.KeepsDigits := by
  have hdigits : ∀ b, Percent.hexVal b ≠ none → Percent.userinfoEncodeSet b = false :=
    UInt8.forall_of_lt (by decide +kernel)
  intro b n hb
  exact hdigits b (by rw [hb]; exact Option.some_ne_none n)

/-- `encoded` of such cookies, with no bytes escaped but those of `USERINFO_ENCODE_SET`. -/
def plainDisplay : CookieDisplay where
  encodeSet := Percent.userinfoEncodeSet
  parameters := plainParameters
  userinfo := id
  keepsDigits := keepsDigits_userinfo
  attributeName h := by
    have hbytes : ∀ {bs : List UInt8}, bs.all isAttributeByte = true →
        ∀ b ∈ bs, isAttributeByte b = true := List.all_eq_true.mp
    rcases mem_plainParameters h with rfl | ⟨hname, -⟩ | ⟨hname, -⟩
    · exact hbytes (by decide)
    · rw [hname]
      exact hbytes (by decide)
    · rw [hname]
      exact hbytes (by decide)
  path h hname := by
    rcases mem_plainParameters h with rfl | ⟨-, hvalue⟩ | ⟨hdomain, -⟩
    · exact absurd hname (by decide)
    · exact hvalue
    · exact absurd (hdomain.symm.trans hname) (by decide)
  domain h hname := by
    rcases mem_plainParameters h with rfl | ⟨hpath, -⟩ | ⟨-, hvalue⟩
    · exact absurd hname (by decide)
    · exact absurd (hpath.symm.trans hname) (by decide)
    · exact hvalue
  valid _ h hpath hdomain := by
    rcases mem_plainParameters h with rfl | ⟨hname, -⟩ | ⟨hname, -⟩
    · exact fun v hv => nomatch hv
    · exact absurd hname hpath
    · exact absurd hname hdomain

/-- An action that adds a cookie to the jar of its request. -/
def addCookie (c : Cookie) : LeafAction Empty Unit Unit Unit [] where
  preflight cx s := .ok (.ok .incomplete, s, cx.cursor)
  pollAction s w :=
    let jar := w.cx.context.cookies.getD .new
    .ok (.ok (.ready ()), s,
      { w with cx := { w.cx with context := { w.cx.context with cookies := some (jar.add c) } } })
  keeps h := by cases h; exact ⟨rfl, rfl⟩
  notPutBack h := by cases h; exact id

/-- `sid=0123456789; HttpOnly; Path=/`: 32 bytes. -/
def sidCookie : Cookie :=
  { Cookie.new "sid".toList "0123456789".toList with
    path := some "/".toList, httpOnly := some true }

/-- An endpoint that adds `c` to the jar, at the request `GET /`. -/
def addCookieRun (c : Cookie) : AppFuture (Endpoint.leaf Unit (addCookie c) ()).Action Unit :=
  .dispatch (.leaf Unit (addCookie c) ()) 0 ⟨.get, .origin ⟨['/'], none, slash_rooted⟩, []⟩ ()

theorem setCookie_truncated : ∃ l response fut th,
    AppFuture.serve plainDisplay (fun _ _ => (⟨204, [], ()⟩ : Response Unit))
      (addCookie sidCookie).action [id] (addCookieRun sidCookie)
      ⟨none, ()⟩ = ⟨l, .ok (some response, fut, th)⟩ ∧ fut.context.delta = [sidCookie] ∧
    ¬ CarriesComplete plainDisplay (setCookies response) [] [] fut.context.delta 0 sidCookie := by
  refine ⟨_, _, _, _, rfl, rfl, ?_⟩
  intro h
  have hhead : some (encodeCookie plainDisplay sidCookie) = some (plainDisplay.encoded sidCookie) :=
    h.2
  have heq := Option.some.inj hhead
  rw [encodeCookie_eq_encoded_iff] at heq
  revert heq
  decide

/-- `id=7; Path=/` fits, its header is complete, and the cookie is read back. -/
theorem setCookie_complete_short : ∃ response fut,
    AppFuture.serve plainDisplay (fun _ _ => (⟨204, [], ()⟩ : Response Unit))
      (addCookie { Cookie.new "id".toList "7".toList with path := some "/".toList }).action [id]
      (addCookieRun { Cookie.new "id".toList "7".toList with path := some "/".toList }) ⟨none, ()⟩ =
        ⟨[⟨[], .preflight ⟨1, 0⟩ .incomplete⟩, ⟨[], .poll .ready false⟩],
          .ok (some response, fut, ⟨none, ()⟩)⟩ ∧
    CarriesComplete plainDisplay (setCookies response) [] []
      [{ Cookie.new "id".toList "7".toList with path := some "/".toList }] 0
      { Cookie.new "id".toList "7".toList with path := some "/".toList } ∧
    ReadsBack plainDisplay (setCookies response) [] 0
      { Cookie.new "id".toList "7".toList with path := some "/".toList } := by
  obtain ⟨response, fut, hserve, h⟩ := setCookie_complete_iff plainDisplay
    (fun _ _ => (⟨204, [], ()⟩ : Response Unit))
    (addCookie { Cookie.new "id".toList "7".toList with path := some "/".toList }).action [id]
    (addCookieRun { Cookie.new "id".toList "7".toList with path := some "/".toList }) ⟨none, ()⟩ rfl
  refine ⟨response, fut, hserve, (h 0 _ rfl).2.mpr ⟨by decide, ?_⟩⟩
  exact ⟨by decide, by decide, by decide, by decide⟩

end Finchers
