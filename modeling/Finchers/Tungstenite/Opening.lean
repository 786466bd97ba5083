import Finchers.Lib.FieldValue
import Finchers.Tungstenite.Handshake

/-!
# Opening handshakes

`Connection` and `Upgrade` are lists of tokens in any case; `handshake` compares the first line of
each with two spellings of a single token.

* `Opening` — a valid opening handshake;
* `spelled_has` — the two spellings are tokens that are asked for; `once_iff` — a version and a key on
  a single line;
* `handshake_opening_iff` — **`handshake` accepts just the valid opening handshakes, unless one is
  spelled otherwise, or a version or a key is repeated**.
-/

set_option autoImplicit false

namespace Finchers.Tungstenite

open FieldValue

variable {x : Digests} {request : Request}

/-- The lines of a header field. -/
def lines (request : Request) (name : HeaderName) : List HeaderValue :=
  request.headers.getAll name

/-- A valid opening handshake. -/
structure Opening (x : Digests) (request : Request) : Prop where
  connection : HasElement (lines request CONNECTION) (text "upgrade")
  upgrade : HasElement (lines request UPGRADE) (text "websocket")
  version : joined (lines request SEC_WEBSOCKET_VERSION) = some (text "13")
  key : ∃ key d, joined (lines request SEC_WEBSOCKET_KEY) = some key ∧ x.decode key = some d ∧
    d.length = 16

/-- A version and a key on a single line each. -/
structure Once (request : Request) : Prop where
  version : (lines request SEC_WEBSOCKET_VERSION).length = 1
  key : (lines request SEC_WEBSOCKET_KEY).length = 1

/-! ## First lines -/

theorem get_eq_head (m : HeaderMap) (name : HeaderName) : m.get name = (m.getAll name).head? := by
  unfold HeaderMap.get HeaderMap.getAll
  rw [List.head?_map, List.head?_filter]

/-- A single line is the first. -/
theorem get_of_lines {name : HeaderName} {h : HeaderValue} (hlines : lines request name = [h]) :
    request.headers.get name = some h := by
  rw [get_eq_head]
  exact congrArg List.head? hlines

/-- The first line of a field with one line. -/
theorem lines_of_get {name : HeaderName} {h : HeaderValue}
    (hget : request.headers.get name = some h) (honce : (lines request name).length = 1) :
    lines request name = [h] := by
  obtain ⟨line, hline⟩ := List.length_eq_one_iff.mp honce
  have hfirst := get_of_lines hline
  rw [hget] at hfirst
  rw [hline, Option.some.inj hfirst]

/-- The elements of the first line are elements of the field. -/
theorem hasElement_of_get {name : HeaderName} {h e : HeaderValue}
    (hget : request.headers.get name = some h) (he : e ∈ elements h) :
    HasElement (lines request name) e := by
  rw [get_eq_head] at hget
  exact hasElement_iff.mpr ⟨h, List.mem_of_head? hget, he⟩

/-! ## The two halves of the checks -/

/-- What `handshake` compares with are tokens that are asked for. -/
theorem spelled_has (h : Spelled request) :
    HasElement (lines request CONNECTION) (text "upgrade") ∧
      HasElement (lines request UPGRADE) (text "websocket") := by
  constructor
  · rcases h.connection with hget | hget
    · exact hasElement_of_get hget (by decide)
    · exact hasElement_of_get hget (by decide)
  · rcases h.upgrade with hget | hget
    · exact hasElement_of_get hget (by decide)
    · exact hasElement_of_get hget (by decide)

/-- A version and a key that are valid are on a single line each, and that line is right. -/
theorem once_iff :
    (joined (lines request SEC_WEBSOCKET_VERSION) = some (text "13") ∧
      ∃ key d, joined (lines request SEC_WEBSOCKET_KEY) = some key ∧ x.decode key = some d ∧
        d.length = 16) ↔
    Once request ∧ ∃ key, Keyed x request key := by
  have h13 : (44 : UInt8) ∉ text "13" := by decide
  constructor
  · rintro ⟨hversion, key, d, hkey, hd, hlen⟩
    rw [joined_eq_some_iff h13] at hversion
    rw [joined_eq_some_iff (x.not_comma hd)] at hkey
    refine ⟨⟨by rw [hversion, List.length_singleton], by rw [hkey, List.length_singleton]⟩, key, ?_⟩
    exact ⟨get_of_lines hversion, get_of_lines hkey, d, hd, hlen⟩
  · rintro ⟨honce, key, hkeyed⟩
    obtain ⟨d, hd, hlen⟩ := hkeyed.length
    refine ⟨?_, key, d, ?_, hd, hlen⟩
    · exact (joined_eq_some_iff h13).mpr (lines_of_get hkeyed.version honce.version)
    · exact (joined_eq_some_iff (x.not_comma hd)).mpr (lines_of_get hkeyed.first honce.key)

/-- A valid opening handshake, by its first lines. -/
theorem opening_iff :
    Opening x request ↔
      (HasElement (lines request CONNECTION) (text "upgrade") ∧
        HasElement (lines request UPGRADE) (text "websocket")) ∧
      Once request ∧ ∃ key, Keyed x request key := by
  rw [← once_iff (x := x)]
  constructor
  · rintro ⟨hconnection, hupgrade, hversion, hkey⟩
    exact ⟨⟨hconnection, hupgrade⟩, hversion, hkey⟩
  · rintro ⟨⟨hconnection, hupgrade⟩, hversion, hkey⟩
    exact ⟨hconnection, hupgrade, hversion, hkey⟩

/-- A request is accepted iff its first lines are spelled right, with a version and a key. -/
theorem accepts_iff :
    (∃ accept, handshake x request = .ok accept) ↔
      Spelled request ∧ ∃ key, Keyed x request key := by
  constructor
  · rintro ⟨accept, hok⟩
    obtain ⟨hspelled, key, hkeyed, -⟩ := handshake_ok_iff.mp hok
    exact ⟨hspelled, key, hkeyed⟩
  · rintro ⟨hspelled, key, hkeyed⟩
    exact ⟨⟨_⟩, handshake_ok_iff.mpr ⟨hspelled, key, hkeyed, rfl⟩⟩

/-! ## Which requests are accepted -/

/-- `handshake` accepts the request iff it is a valid opening handshake, and then with the hash of its
key. -/
def Judged (x : Digests) (request : Request) : Prop :=
  ((∃ accept, handshake x request = .ok accept) ↔ Opening x request) ∧
    ∀ accept, handshake x request = .ok accept →
      ∃ key, request.headers.get SEC_WEBSOCKET_KEY = some key ∧
        accept.hash = x.encode (x.sha1 (key ++ GUID))

/-- A valid opening handshake whose first lines are spelled in another way: another case, another
token before it, or another line. -/
structure SpelledOtherwise (x : Digests) (request : Request) : Prop where
  connection : HasElement (lines request CONNECTION) (text "upgrade")
  upgrade : HasElement (lines request UPGRADE) (text "websocket")
  once : Once request
  keyed : ∃ key, Keyed x request key
  spelled : ¬ Spelled request

/-- A version or a key is repeated, in a request whose first lines are all right. -/
structure Repeated (x : Digests) (request : Request) : Prop where
  spelled : Spelled request
  keyed : ∃ key, Keyed x request key
  once : ¬ Once request

/-- **When `handshake` judges rightly.**  It accepts just the valid opening handshakes, with the hash
of the key, iff the request is neither a valid one whose first `Connection` line is not `Upgrade` or
`upgrade`, or whose first `Upgrade` line is not `Websocket` or `websocket`, nor one that repeats its
version or its key after first lines that are all right. -/
theorem handshake_opening_iff (x : Digests) (request : Request) :
    Judged x request ↔ ¬ SpelledOtherwise x request ∧ ¬ Repeated x request := by
  have hhash : ∀ accept, handshake x request = .ok accept →
      ∃ key, request.headers.get SEC_WEBSOCKET_KEY = some key ∧
        accept.hash = x.encode (x.sha1 (key ++ GUID)) := by
    intro accept hok
    obtain ⟨-, key, hkeyed, hhash⟩ := handshake_ok_iff.mp hok
    exact ⟨key, hkeyed.first, hhash⟩
  unfold Judged
  rw [and_iff_left hhash, accepts_iff, opening_iff]
  constructor
  · intro h
    constructor
    · intro hother
      have hspelled := (h.mpr ⟨⟨hother.connection, hother.upgrade⟩, hother.once, hother.keyed⟩).1
      exact hother.spelled hspelled
    · intro hrep
      have honce := (h.mp ⟨hrep.spelled, hrep.keyed⟩).2.1
      exact hrep.once honce
  · rintro ⟨hother, hrep⟩
    constructor
    · rintro ⟨hspelled, hkeyed⟩
      by_cases honce : Once request
      · exact ⟨spelled_has hspelled, honce, hkeyed⟩
      · exact absurd ⟨hspelled, hkeyed, honce⟩ hrep
    · rintro ⟨htokens, honce, hkeyed⟩
      by_cases hspelled : Spelled request
      · exact ⟨hspelled, hkeyed⟩
      · exact absurd ⟨htokens.1, htokens.2, honce, hkeyed, hspelled⟩ hother

/-! ## A token before `Upgrade` -/

/-- The key of the example in the specification, its digest and its hash. -/
def sampleKey : HeaderValue := text "dGhlIHNhbXBsZSBub25jZQ=="

/-- The digests of that key. -/
def sampleDigests : Digests where
  decode s := if s = sampleKey then some (text "the sample nonce") else none
  encode d := if d = [179, 122, 79, 44, 192, 98, 79, 22, 144, 246, 70, 6, 207, 56, 89, 69, 178, 190,
    196, 234] then text "s3pPLMBiTxaQ9kYGzzhZRbK+xOo=" else []
  sha1 _ := [179, 122, 79, 44, 192, 98, 79, 22, 144, 246, 70, 6, 207, 56, 89, 69, 178, 190, 196, 234]
  not_comma := by
    intro s d h
    split at h
    · rename_i hs
      rw [hs]
      decide
    · cases h

/-- A handshake with a `Connection` header. -/
def opening (connection : String) : Request :=
  ⟨.get, .origin ⟨['/'], none, slash_rooted⟩,
    [(CONNECTION, text connection), (UPGRADE, text "websocket"),
      (SEC_WEBSOCKET_VERSION, text "13"), (SEC_WEBSOCKET_KEY, sampleKey)]⟩

/-- `Connection: keep-alive, Upgrade`, as browsers send it, is not accepted. -/
theorem handshake_refuses_keep_alive : ¬ Judged sampleDigests (opening "keep-alive, Upgrade") := by
  intro h
  have hopening : Opening sampleDigests (opening "keep-alive, Upgrade") :=
    ⟨⟨text "keep-alive, Upgrade", rfl, by decide⟩, ⟨text "websocket", rfl, by decide⟩, rfl,
      sampleKey, text "the sample nonce", rfl, rfl, rfl⟩
  obtain ⟨accept, hok⟩ := h.1.mpr hopening
  have hrefused : handshake sampleDigests (opening "keep-alive, Upgrade") =
      .error (.invalidHeader "Connection") := rfl
  cases hok.symm.trans hrefused

/-- With `Connection: upgrade` it is. -/
example : (handshake sampleDigests (opening "upgrade")).toOption.map Accept.hash =
    some (text "s3pPLMBiTxaQ9kYGzzhZRbK+xOo=") := by decide

end Finchers.Tungstenite
