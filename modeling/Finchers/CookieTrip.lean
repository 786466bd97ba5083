import Finchers.CookieHeader
import Finchers.CookieBytes
import Finchers.Endpoint.Encoded

/-!
# Cookies there and back

A response sends the changed cookies of a jar, each cut off at the size of a buffer; a client gives
back the name and the value of each; the next request reads them into a new jar.

* `clientPair`, `cookieString` — the client: what it takes from a `Set-Cookie` header, and the
  `Cookie` header it makes of that;
* `CookieText.ReadsPairs` — what the other libraries make of such a header;
* `Cookie.Returns` — a cookie that is given back as it was;
* `clientPair_encodeCookie` — what becomes of a cookie on its way to the client;
* `cookies_return_iff` — **the next request reads the cookies of the response as they were iff all
  of them are given back.**
-/

set_option autoImplicit false

namespace Finchers

open Resumable Percent

/-! ## The client -/

/-- A user agent takes the name and the value of a cookie from what precedes the first `;`; without
a `=`, or with an empty name, it ignores the header. -/
def clientPair (header : HeaderValue) : Option (HeaderValue × HeaderValue) :=
  match (header.takeWhile (· != 59)).span (· != 61) with
  | (_, []) => none
  | ([], _) => none
  | (name, _ :: value) => some (name, value)

/-- `name=value`. -/
def pairBytes (p : HeaderValue × HeaderValue) : HeaderValue := p.1 ++ 61 :: p.2

/-- The `Cookie` header of some cookies. -/
def cookieString : List HeaderValue → HeaderValue
  | [] => []
  | [p] => p
  | p :: ps => p ++ 59 :: 32 :: cookieString ps

/-- The `Cookie` headers of a request with some cookies; without any there is none. -/
def cookieHeaders (ps : List HeaderValue) : List HeaderValue :=
  if ps = [] then [] else [cookieString ps]

/-- A client gives back what it took from the `Set-Cookie` headers of a response, whatever their
attributes say. -/
def giveBack (headers : List HeaderValue) : List HeaderValue :=
  cookieHeaders ((headers.filterMap clientPair).map pairBytes)

/-! ## On the way to the client -/

/-- What precedes the first separator of a list that was cut off. -/
theorem takeWhile_take {α : Type} [DecidableEq α] {E rest : List α} {x : α} (hE : x ∉ E)
    (hrest : rest = [] ∨ ∃ tail, rest = x :: tail) (n : Nat) :
    ((E ++ rest).take n).takeWhile (· != x) = E.take n := by
  have hall : ∀ b ∈ E.take n, (b != x) = true := by
    intro b hb
    rw [bne_iff_ne]
    rintro rfl
    exact hE (List.mem_of_mem_take hb)
  rw [List.take_append, List.takeWhile_append_of_pos hall]
  have hnone : (rest.take (n - E.length)).takeWhile (· != x) = [] := by
    rcases hrest with rfl | ⟨tail, rfl⟩
    · simp
    · cases n - E.length with
      | zero => simp
      | succ k => simp
  rw [hnone, List.append_nil]

/-- The text of a cookie: the pair, and what a separator leads. -/
theorem CookieDisplay.encoded_pair (display : CookieDisplay) (c : Cookie) :
    ∃ rest, (rest = [] ∨ ∃ tail, rest = 59 :: tail) ∧
      display.encoded c = display.encodedName c ++ 61 :: display.encodedValue c ++ rest := by
  refine ⟨(display.parameters c).flatMap fun a => 59 :: 32 :: a.text, ?_, ?_⟩
  · cases display.parameters c with
    | nil => exact Or.inl rfl
    | cons a attributes => exact Or.inr ⟨_, rfl⟩
  · rw [display.encoded_eq_print]
    rfl

section

variable (display : CookieDisplay)

/-- What fits into the buffer of the encoded value. -/
def Cookie.valueRoom (c : Cookie) : Nat := c.capacity - ((display.encodedName c).length + 1)

/-- **What a client takes from the header of a cookie:** the encoded name, and as much of the
encoded value as fits; nothing, if the name is cut off or empty. -/
theorem clientPair_encodeCookie (c : Cookie) : clientPair (encodeCookie display c) =
    if (display.encodedName c).length < c.capacity ∧ c.name ≠ [] then
      some (display.encodedName c, (display.encodedValue c).take (c.valueRoom display))
    else none := by
  obtain ⟨rest, hrest, hencoded⟩ := display.encoded_pair c
  have hname : ∀ x, ¬ Token x → x ∉ display.encodedName c :=
    fun x hx hmem => hx (display.token_name c hmem)
  have hvalue : ∀ x, ¬ Token x → x ∉ display.encodedValue c :=
    fun x hx hmem => hx (display.token_value c hmem)
  have hsep : (59 : UInt8) ∉ display.encodedName c ++ 61 :: display.encodedValue c := by
    rw [List.mem_append, List.mem_cons]
    rintro (h | h | h)
    · exact hname 59 (by decide) h
    · exact absurd h (by decide)
    · exact hvalue 59 (by decide) h
  have hheader : encodeCookie display c =
      (display.encodedName c ++ 61 :: display.encodedValue c ++ rest).take c.capacity := by
    rw [encodeCookie_eq, hencoded]
    rfl
  unfold clientPair
  rw [hheader, takeWhile_take hsep hrest]
  by_cases hlen : (display.encodedName c).length < c.capacity
  · -- the `=` is in the buffer
    have htake : (display.encodedName c ++ 61 :: display.encodedValue c).take c.capacity =
        display.encodedName c ++ 61 :: (display.encodedValue c).take (c.valueRoom display) := by
      have hroom : c.capacity - (display.encodedName c).length = c.valueRoom display + 1 := by
        unfold Cookie.valueRoom
        omega
      rw [List.take_append, List.take_of_length_le (by omega), hroom, List.take_succ_cons]
    rw [htake, List.span_ne_of_not_mem (hname 61 (by decide))]
    have hempty := display.encodedName_eq_nil_iff c
    by_cases hnil : c.name = []
    · rw [if_neg fun h => h.2 hnil, hempty.mpr hnil]
    · rw [if_pos ⟨hlen, hnil⟩]
      obtain ⟨b, bs, hcons⟩ := List.exists_cons_of_ne_nil (fun h => hnil (hempty.mp h))
      rw [hcons]
  · have htake : (display.encodedName c ++ 61 :: display.encodedValue c).take c.capacity =
        (display.encodedName c).take c.capacity := by
      rw [List.take_append, Nat.sub_eq_zero_of_le (by omega), List.take_zero, List.append_nil]
    have hnone : (61 : UInt8) ∉ (display.encodedName c).take c.capacity :=
      fun h => hname 61 (by decide) (List.mem_of_mem_take h)
    rw [htake, List.span_ne_of_none hnone, if_neg fun h => hlen h.1]

end

/-! ## Back in a request -/

/-- What other libraries make of a `Cookie` header with encoded names and values: `to_str` gives its
text, `parse_encoded` splits a pair at the `=` and decodes both parts, if they are UTF-8. -/
structure CookieText.ReadsPairs (text : CookieText) : Prop where
  toStr : ∀ bs : HeaderValue, (∀ b ∈ bs, 32 ≤ b ∧ b < 127) → text.toStr bs = .ok (Utf8.ascii bs)
  parse : ∀ {name value : HeaderValue} {c : Cookie}, name ≠ [] → (∀ b ∈ name ++ value, Token b) →
    (text.parseEncoded (Utf8.ascii (pairBytes (name, value))) = .ok c ↔
      ∃ n v, decode name = Utf8.bytes n ∧ decode value = Utf8.bytes v ∧ c = .new n v)

/-- The bytes of a pair: visible ones without a separator. -/
def Piece (p : HeaderValue) : Prop := ∀ b ∈ p, Token b ∨ b = 61

theorem Piece.range {p : HeaderValue} (h : Piece p) {b : UInt8} (hb : b ∈ p) :
    33 ≤ b ∧ b < 127 ∧ b ≠ 59 := by
  rcases h b hb with ⟨h33, h127, h59, -⟩ | rfl
  · exact ⟨h33, h127, h59⟩
  · decide

theorem cookieString_range {ps : List HeaderValue} (h : ∀ p ∈ ps, Piece p) :
    ∀ b ∈ cookieString ps, 32 ≤ b ∧ b < 127 := by
  have hpiece : ∀ {p : HeaderValue}, Piece p → ∀ b ∈ p, 32 ≤ b ∧ b < 127 := by
    intro p hp b hb
    obtain ⟨h33, h127, -⟩ := hp.range hb
    exact ⟨by grind, h127⟩
  induction ps with
  | nil => exact fun b hb => nomatch hb
  | cons p ps ih =>
    obtain ⟨hp, hps⟩ := List.forall_mem_cons.mp h
    cases ps with
    | nil => exact hpiece hp
    | cons q qs =>
      intro b hb
      rw [cookieString, List.mem_append, List.mem_cons, List.mem_cons] at hb
      rcases hb with hb | rfl | rfl | hb
      · exact hpiece hp b hb
      · decide
      · decide
      · exact ih hps b hb
      · exact fun h => nomatch h

/-- A visible byte, as a character. -/
theorem visible_char {b : UInt8} (h33 : 33 ≤ b) (h127 : b < 127) :
    isWhitespace (Char.ofNat b.toNat) = false ∧ (b ≠ 59 → Char.ofNat b.toNat ≠ ';') ∧
      (b ≠ 61 → Char.ofNat b.toNat ≠ '=') := by
  have hchars : ∀ n, n < 127 → 33 ≤ n → isWhitespace (Char.ofNat n) = false ∧
      (n ≠ 59 → Char.ofNat n ≠ ';') ∧ (n ≠ 61 → Char.ofNat n ≠ '=') := by decide +kernel
  obtain ⟨hspace, hsep, hequals⟩ :=
    hchars _ (UInt8.lt_iff_toNat_lt.mp h127) (UInt8.le_iff_toNat_le.mp h33)
  exact ⟨hspace, fun h => hsep fun heq => h (UInt8.toNat_inj.mp heq),
    fun h => hequals fun heq => h (UInt8.toNat_inj.mp heq)⟩

/-- A byte of a piece, as a character. -/
theorem Piece.char {p : HeaderValue} (h : Piece p) {ch : Char} (hch : ch ∈ Utf8.ascii p) :
    isWhitespace ch = false ∧ ch ≠ ';' := by
  obtain ⟨b, hb, rfl⟩ := List.mem_map.mp hch
  obtain ⟨h33, h127, h59⟩ := h.range hb
  obtain ⟨hspace, hsep, -⟩ := visible_char h33 h127
  exact ⟨hspace, hsep h59⟩

/-- Trimming takes away what is white space before a text without any. -/
theorem trim_append {pre s : Str} (hpre : ∀ ch ∈ pre, isWhitespace ch = true)
    (hs : ∀ ch ∈ s, isWhitespace ch = false) : Str.trim (pre ++ s) = s := by
  have hdrop : ∀ {t : Str}, (∀ ch ∈ t, isWhitespace ch = false) →
      t.dropWhile isWhitespace = t := by
    intro t ht
    cases t with
    | nil => rfl
    | cons ch t =>
      have hch := ht ch List.mem_cons_self
      rw [List.dropWhile_cons_of_neg (by rw [hch]; exact Bool.false_ne_true)]
  unfold Str.trim
  rw [List.dropWhile_append_of_pos hpre, hdrop hs,
    hdrop fun ch hch => hs ch (List.mem_reverse.mp hch), List.reverse_reverse]

/-- The pieces of the text of a `Cookie` header, with white space before it, are those that it was
made of. -/
theorem splitOn_cookieString {ps : List HeaderValue} (hne : ps ≠ []) (h : ∀ p ∈ ps, Piece p)
    {pre : Str} (hpre : ∀ ch ∈ pre, ch = ' ') :
    ((pre ++ Utf8.ascii (cookieString ps)).splitOn ';').map Str.trim = ps.map Utf8.ascii := by
  have hspace : ∀ ch ∈ pre, isWhitespace ch = true ∧ ch ≠ ';' := by
    intro ch hch
    rw [hpre ch hch]
    decide
  induction ps generalizing pre with
  | nil => exact absurd rfl hne
  | cons p ps ih =>
    obtain ⟨hp, hps⟩ := List.forall_mem_cons.mp h
    have hsep : ';' ∉ pre ++ Utf8.ascii p := by
      rw [List.mem_append]
      rintro (hmem | hmem)
      · exact (hspace _ hmem).2 rfl
      · exact (hp.char hmem).2 rfl
    have htrim : Str.trim (pre ++ Utf8.ascii p) = Utf8.ascii p :=
      trim_append (fun ch hch => (hspace ch hch).1) fun ch hch => (hp.char hch).1
    cases ps with
    | nil =>
      have hone : (pre ++ Utf8.ascii p).splitOn ';' = [pre ++ Utf8.ascii p] :=
        List.splitOn_eq_singleton hsep
      rw [cookieString, hone, List.map_singleton, htrim]
      rfl
    | cons q qs =>
      have hascii : pre ++ Utf8.ascii (cookieString (p :: q :: qs)) =
          (pre ++ Utf8.ascii p) ++ ';' :: ([' '] ++ Utf8.ascii (cookieString (q :: qs))) := by
        simp only [cookieString, Utf8.ascii, List.map_append, List.map_cons, List.append_assoc]
        rfl
      have hsplit := List.splitOn_append_cons_self_of_not_mem hsep
        ([' '] ++ Utf8.ascii (cookieString (q :: qs)))
      have hone : ∀ ch ∈ [' '], ch = ' ' := fun ch hch => List.mem_singleton.mp hch
      have hrest := ih (List.cons_ne_nil q qs) hps hone fun ch hch => by
        rw [List.mem_singleton.mp hch]
        decide
      rw [hascii, hsplit, List.map_cons, htrim, hrest]
      rfl

theorem pieces_cookieString {ps : List HeaderValue} (hne : ps ≠ []) (h : ∀ p ∈ ps, Piece p) :
    CookieText.pieces (Utf8.ascii (cookieString ps)) = ps.map Utf8.ascii := by
  have hnil : ∀ ch ∈ ([] : Str), ch = ' ' := fun ch hch => nomatch hch
  exact splitOn_cookieString hne h hnil

/-- Reading what a client gives back: each piece is parsed, and the cookies are put into the jar. -/
theorem readHeaders_iff {ε : Type} {text : CookieText} (htext : text.ReadsPairs)
    {ps : List HeaderValue} (h : ∀ p ∈ ps, Piece p) {jar : CookieJar} :
    Loop.forEach (text.readHeader (ε := ε)) (cookieHeaders ps) .new = (.ok (), jar) ↔
      ∃ cs, List.Forall₂ (fun p c => text.parseEncoded (Utf8.ascii p) = .ok c) ps cs ∧
        jar = cs.foldl CookieJar.addOriginal .new := by
  have hpiece : ∀ (s : Str) (jar jar' : CookieJar), text.readPiece (ε := ε) s jar = (.ok (), jar') ↔
      ∃ c, text.parseEncoded s = .ok c ∧ jar' = jar.addOriginal c := by
    intro s jar jar'
    unfold CookieText.readPiece
    cases text.parseEncoded s with
    | error msg => simp
    | ok c => simp [eq_comm]
  by_cases hne : ps = []
  · subst hne
    constructor
    · intro h
      cases h
      exact ⟨[], .nil, rfl⟩
    · intro h
      obtain ⟨cs, hcs, rfl⟩ := h
      cases hcs
      rfl
  · have hread : Loop.forEach (text.readHeader (ε := ε)) (cookieHeaders ps) .new =
        Loop.forEach text.readPiece (ps.map Utf8.ascii) .new := by
      have hone : text.readHeader (ε := ε) (cookieString ps) .new =
          Loop.forEach text.readPiece (ps.map Utf8.ascii) .new := by
        unfold CookieText.readHeader
        rw [htext.toStr _ (cookieString_range h)]
        exact congrArg (Loop.forEach text.readPiece · CookieJar.new) (pieces_cookieString hne h)
      unfold cookieHeaders
      rw [if_neg hne, Loop.forEach, hone]
      rcases Loop.forEach text.readPiece (ps.map Utf8.ascii) .new with ⟨e | ⟨⟩, jar⟩
      · rfl
      · rfl
    rw [hread, Loop.forEach_eq_ok_iff hpiece]
    simp only [List.forall₂_map_left_iff]

/-- The cookies of a jar that some cookies were put into. -/
theorem length_originals_le (cs : List Cookie) (jar : CookieJar) :
    (cs.foldl CookieJar.addOriginal jar).originalCookies.length ≤
      jar.originalCookies.length + cs.length := by
  induction cs generalizing jar with
  | nil => exact Nat.le_refl _
  | cons c cs ih =>
    have hone : (jar.addOriginal c).originalCookies.length ≤ jar.originalCookies.length + 1 := by
      have hfilter := List.length_filter_le (fun d => d.name != c.name) jar.originalCookies
      simp only [CookieJar.addOriginal, List.length_append, List.length_singleton]
      omega
    have hrest := ih (jar.addOriginal c)
    rw [List.foldl_cons, List.length_cons]
    omega

/-- If all of them are there, they are there in their order. -/
theorem originals_of_length {cs : List Cookie} {jar : CookieJar}
    (h : (cs.foldl CookieJar.addOriginal jar).originalCookies.length =
      jar.originalCookies.length + cs.length) :
    (cs.foldl CookieJar.addOriginal jar).originalCookies = jar.originalCookies ++ cs := by
  induction cs generalizing jar with
  | nil => exact (List.append_nil _).symm
  | cons c cs ih =>
    have hrest := length_originals_le cs (jar.addOriginal c)
    have hone : (jar.addOriginal c).originalCookies.length =
        (jar.originalCookies.filter fun d => d.name != c.name).length + 1 := by
      simp [CookieJar.addOriginal]
    have hfilter := List.length_filter_le (fun d => d.name != c.name) jar.originalCookies
    rw [List.foldl_cons, List.length_cons] at h
    have hkept : jar.originalCookies.filter (fun d => d.name != c.name) = jar.originalCookies :=
      List.filter_sublist.eq_of_length (by omega)
    have hcookies : (jar.addOriginal c).originalCookies = jar.originalCookies ++ [c] := by
      rw [CookieJar.addOriginal, hkept]
    rw [List.foldl_cons, ih (by rw [hcookies, List.length_append, List.length_singleton]; omega),
      hcookies, List.append_assoc]
    rfl

/-- Cookies of different names are all there. -/
theorem originals_of_nodup {cs : List Cookie} {jar : CookieJar}
    (h : ((jar.originalCookies ++ cs).map (·.name)).Nodup) :
    (cs.foldl CookieJar.addOriginal jar).originalCookies = jar.originalCookies ++ cs := by
  induction cs generalizing jar with
  | nil => exact (List.append_nil _).symm
  | cons c cs ih =>
    have hkept : jar.originalCookies.filter (fun d => d.name != c.name) = jar.originalCookies := by
      rw [List.filter_eq_self]
      intro d hd
      rw [List.map_append, List.nodup_append] at h
      rw [bne_iff_ne]
      exact h.2.2 d.name (List.mem_map.mpr ⟨d, hd, rfl⟩) c.name
        (List.mem_map.mpr ⟨c, List.mem_cons_self, rfl⟩)
    have hcookies : (jar.addOriginal c).originalCookies = jar.originalCookies ++ [c] := by
      rw [CookieJar.addOriginal, hkept]
    have happend : jar.originalCookies ++ c :: cs = jar.originalCookies ++ [c] ++ cs := by
      rw [List.append_assoc]
      rfl
    rw [happend] at h ⊢
    rw [List.foldl_cons, ih (by rw [hcookies]; exact h), hcookies]

/-! ## One cookie -/

namespace Cookie

/-- What a request knows of a cookie: its name and its value. -/
def plain (c : Cookie) : Cookie := .new c.name c.value

/-- The cookie is given back as it was: it has a name, its name and its value survive the encoding,
and what is escaped in them fits into the buffer, or only the end of the escape of a last `%` is
missing. -/
def Returns (display : CookieDisplay) (c : Cookie) : Prop :=
  c.name ≠ [] ∧ display.encodeSet.Survives (Utf8.bytes c.name) ∧
    display.encodeSet.Survives (Utf8.bytes c.value) ∧
    (2 * display.escapes c.name + 2 * display.escapes c.value ≤
        31 - (Utf8.len c.name + Utf8.len c.value + 1) ∨
      display.encodeSet 37 = true ∧
        2 * display.escapes c.name + 2 * display.escapes c.value =
          31 - (Utf8.len c.name + Utf8.len c.value + 1) + 2 ∧
        EndsOpen (Utf8.bytes c.value))

instance (display : CookieDisplay) (c : Cookie) : Decidable (c.Returns display) :=
  inferInstanceAs (Decidable (_ ∧ _))

theorem plain_eq_new_iff {c : Cookie} {n v : Str} :
    c.plain = .new n v ↔ n = c.name ∧ v = c.value := by
  constructor
  · intro h
    cases h
    exact ⟨rfl, rfl⟩
  · intro h
    obtain ⟨rfl, rfl⟩ := h
    rfl

/-- The pair of a cookie, as the client gives it back, is parsed to the cookie. -/
def Parsed (display : CookieDisplay) (text : CookieText) (c : Cookie) : Prop :=
  ∃ p, clientPair (encodeCookie display c) = some p ∧
    text.parseEncoded (Utf8.ascii (pairBytes p)) = .ok c.plain

section

variable {display : CookieDisplay} {c : Cookie}

/-- What is missing of the value, in terms of what is escaped. -/
theorem valueRoom_iff (hlt : (display.encodedName c).length < c.capacity) (k : Nat) :
    (display.encodedValue c).length ≤ c.valueRoom display + k ↔
      2 * display.escapes c.name + 2 * display.escapes c.value ≤
        31 - (Utf8.len c.name + Utf8.len c.value + 1) + k := by
  have hname := display.length_encodedName c
  have hvalue := display.length_encodedValue c
  unfold valueRoom
  unfold capacity at hlt ⊢
  omega

/-- A cookie whose name does not fit is not given back. -/
theorem Returns.name_fits (h : c.Returns display) :
    (display.encodedName c).length < c.capacity := by
  obtain ⟨-, -, -, hfits⟩ := h
  have hname := display.length_encodedName c
  have hvalue := display.length_encodedValue c
  unfold capacity
  rcases hfits with hfits | ⟨hpct, hfits, hopen⟩
  · omega
  · have hthree : 3 ≤ (display.encodedValue c).length := hopen.three_le hpct
    omega

theorem parsed_iff {text : CookieText} (htext : text.ReadsPairs) :
    c.Parsed display text ↔ c.Returns display := by
  unfold Parsed
  rw [clientPair_encodeCookie]
  by_cases hpair : (display.encodedName c).length < c.capacity ∧ c.name ≠ []
  · have htoken : ∀ b ∈ display.encodedName c ++
        (display.encodedValue c).take (c.valueRoom display), Token b := by
      intro b hb
      rcases List.mem_append.mp hb with hb | hb
      · exact display.token_name c hb
      · exact display.token_value c (List.mem_of_mem_take hb)
    have hne : display.encodedName c ≠ [] :=
      fun h => hpair.2 ((display.encodedName_eq_nil_iff c).mp h)
    have hdecode : decode (display.encodedName c) = Utf8.bytes c.name ↔ _ :=
      decode_encode_eq_iff display.keepsDigits (Utf8.bytes c.name)
    have hcut : decode ((display.encodedValue c).take (c.valueRoom display)) =
        Utf8.bytes c.value ↔ _ :=
      decode_take_encode_iff display.keepsDigits (Utf8.bytes c.value) (c.valueRoom display)
    -- all of the value fits, or all but two bytes
    have hall := valueRoom_iff hpair.1 0
    have hone := valueRoom_iff hpair.1 1
    have htwo := valueRoom_iff hpair.1 2
    have hlength : (display.encodedValue c).length = (encode display.encodeSet
        (Utf8.bytes c.value)).length := rfl
    rw [← hlength] at hcut
    rw [if_pos hpair]
    constructor
    · intro h
      obtain ⟨p, hp, hparse⟩ := h
      cases hp
      obtain ⟨n, v, hn, hv, hc⟩ := (htext.parse hne htoken).mp hparse
      obtain ⟨rfl, rfl⟩ := plain_eq_new_iff.mp hc
      obtain ⟨hsurvives, hlen⟩ := hcut.mp hv
      refine ⟨hpair.2, hdecode.mp hn, hsurvives, ?_⟩
      rcases hlen with hlen | ⟨hpct, hlen, hopen⟩
      · exact Or.inl (hall.mp hlen)
      · exact Or.inr ⟨hpct, by omega, hopen⟩
    · intro h
      obtain ⟨-, hn, hv, hfits⟩ := h
      refine ⟨_, rfl, (htext.parse hne htoken).mpr ⟨c.name, c.value, hdecode.mpr hn, ?_, rfl⟩⟩
      refine hcut.mpr ⟨hv, ?_⟩
      rcases hfits with hfits | ⟨hpct, hfits, hopen⟩
      · exact Or.inl (hall.mpr hfits)
      · exact Or.inr ⟨hpct, by omega, hopen⟩
  · rw [if_neg hpair]
    constructor
    · intro h
      obtain ⟨p, hp, -⟩ := h
      cases hp
    · intro h
      exact absurd ⟨h.name_fits, h.1⟩ hpair

end

end Cookie

/-! ## All cookies of a response -/

/-- What a client gives back of some cookies. -/
def givenBack (display : CookieDisplay) (cs : List Cookie) : List HeaderValue :=
  (cs.filterMap fun c => clientPair (encodeCookie display c)).map pairBytes

theorem giveBack_encoded (display : CookieDisplay) (cs : List Cookie) :
    giveBack (cs.map (encodeCookie display)) = cookieHeaders (givenBack display cs) := by
  unfold giveBack givenBack
  rw [List.filterMap_map]
  rfl

theorem givenBack_piece {display : CookieDisplay} {cs : List Cookie} {p : HeaderValue}
    (h : p ∈ givenBack display cs) : Piece p := by
  obtain ⟨pair, hpair, rfl⟩ := List.mem_map.mp h
  obtain ⟨c, -, hc⟩ := List.mem_filterMap.mp hpair
  rw [clientPair_encodeCookie] at hc
  split at hc
  · cases hc
    intro b hb
    rcases List.mem_append.mp hb with hb | hb
    · exact Or.inl (display.token_name c hb)
    · rcases List.mem_cons.mp hb with rfl | hb
      · exact Or.inr rfl
      · exact Or.inl (display.token_value c (List.mem_of_mem_take hb))
  · cases hc

/-- The pieces that are given back are parsed to the cookies, none left out. -/
theorem forall₂_givenBack {display : CookieDisplay} {text : CookieText} {cs : List Cookie} :
    List.Forall₂ (fun p c => text.parseEncoded (Utf8.ascii p) = .ok c) (givenBack display cs)
      (cs.map Cookie.plain) ↔ ∀ c ∈ cs, c.Parsed display text := by
  have hlength : ∀ cs : List Cookie, (givenBack display cs).length ≤ cs.length := by
    intro cs
    unfold givenBack
    rw [List.length_map]
    exact List.length_filterMap_le _ _
  induction cs with
  | nil =>
    constructor
    · exact fun _ c hc => nomatch hc
    · exact fun _ => .nil
  | cons c cs ih =>
    rw [List.forall_mem_cons]
    refine Iff.trans ?_ (and_congr_right' ih)
    cases hpair : clientPair (encodeCookie display c) with
    | none =>
      have hdropped : givenBack display (c :: cs) = givenBack display cs := by
        unfold givenBack
        rw [List.filterMap_cons, hpair]
      rw [hdropped]
      constructor
      · intro h
        have heq := h.length_eq
        have hle := hlength cs
        rw [List.length_map, List.length_cons] at heq
        omega
      · intro h
        obtain ⟨⟨p, hp, -⟩, -⟩ := h
        rw [hpair] at hp
        cases hp
    | some p =>
      have hkept : givenBack display (c :: cs) = pairBytes p :: givenBack display cs := by
        unfold givenBack
        rw [List.filterMap_cons, hpair]
        rfl
      rw [hkept, List.map_cons, List.forall₂_cons]
      refine and_congr_left fun _ => ?_
      unfold Cookie.Parsed
      constructor
      · intro h
        exact ⟨p, hpair, h⟩
      · intro h
        obtain ⟨q, hq, hparse⟩ := h
        rw [hpair] at hq
        cases hq
        exact hparse

/-- A request with what a client gives back of some cookies reads them as they were iff each of them
is given back. -/
theorem reads_back_iff {ε : Type} {display : CookieDisplay} {text : CookieText}
    (htext : text.ReadsPairs) {cs : List Cookie}
    (hnames : (cs.map (·.name)).Nodup) :
    (∃ jar, Loop.forEach (text.readHeader (ε := ε)) (giveBack (cs.map (encodeCookie display))) .new =
        (.ok (), jar) ∧ jar.originalCookies = cs.map Cookie.plain) ↔ ∀ c ∈ cs, c.Returns display := by
  have hparsed : (∀ c ∈ cs, c.Returns display) ↔ ∀ c ∈ cs, c.Parsed display text := by
    refine forall₂_congr fun c _ => ?_
    exact (Cookie.parsed_iff htext).symm
  rw [hparsed, ← forall₂_givenBack, giveBack_encoded]
  simp only [readHeaders_iff htext fun _ => givenBack_piece]
  constructor
  · intro h
    obtain ⟨jar, ⟨ds, hds, rfl⟩, hjar⟩ := h
    -- no cookie was dropped and no two became one
    have hread := length_originals_le ds .new
    have hlen := congrArg List.length hjar
    have hgiven : (givenBack display cs).length ≤ cs.length := by
      unfold givenBack
      rw [List.length_map]
      exact List.length_filterMap_le _ _
    have heq := hds.length_eq
    have hnil : CookieJar.new.originalCookies = [] := rfl
    rw [List.length_map] at hlen
    rw [hnil, List.length_nil] at hread
    have hall : (ds.foldl CookieJar.addOriginal .new).originalCookies.length =
        CookieJar.new.originalCookies.length + ds.length := by
      rw [hnil, List.length_nil]
      omega
    have horder := originals_of_length hall
    rw [hnil, List.nil_append, hjar] at horder
    rw [horder]
    exact hds
  · intro h
    refine ⟨_, ⟨_, h, rfl⟩, ?_⟩
    refine originals_of_nodup ?_
    have hplain : (cs.map Cookie.plain).map (·.name) = cs.map (·.name) := by
      rw [List.map_map]
      rfl
    show ((cs.map Cookie.plain).map (·.name)).Nodup
    rw [hplain]
    exact hnames

/-! ## Runs -/

/-- The first call of `cookies` in a request reads its `Cookie` headers. -/
theorem cookiesJar_new_iff {ε : Type} (text : CookieText) (addr : Nat) (request : Request)
    (jar : CookieJar) : ((Context.new addr request).cookiesJar (ε := ε) text).1 = .ok jar ↔
      Loop.forEach (text.readHeader (ε := ε)) (request.headers.getAll COOKIE) .new =
        (.ok (), jar) := by
  have hcookies : ((Context.new addr request).cookiesJar (ε := ε) text).1 =
      (Loop.forEach (text.readHeader (ε := ε)) (request.headers.getAll COOKIE) .new).1.map
        fun _ => (Loop.forEach (text.readHeader (ε := ε)) (request.headers.getAll COOKIE) .new).2 :=
    rfl
  rw [hcookies]
  rcases Loop.forEach (text.readHeader (ε := ε)) (request.headers.getAll COOKIE) .new with
    ⟨e | ⟨⟩, jar'⟩
  · simp [Except.map]
  · simp [Except.map]

/-- **What comes back of the cookies of a response.**  At the end of any run the response carries
the changed cookies of the jar, no two of which have the same name.  A client gives their names and
values back in its next request, and that request reads them all as they were iff each of them
returns; otherwise the call of `cookies` fails, or a cookie is missing or changed. -/
theorem cookies_return_iff {ε Bd Env σ B : Type} {ts : List Type} [HttpError ε]
    (display : CookieDisplay) {text : CookieText} (htext : text.ReadsPairs)
    (intoResponse : HList ts → Request → Response B) (f : EndpointAction ε Bd Env σ ts)
    (gs : List (Thread Env → Thread Env)) (fut : AppFuture σ Bd) (th : Thread Env) {l : List Event}
    {r : Except (Error ε) (HList ts)} {fut' : AppFuture σ Bd} {th' : Thread Env}
    (h : AppFuture.drive f gs fut th = ⟨l, .ok (some r, fut', th')⟩)
    (hown : setCookies (baseResponse intoResponse r fut'.context.request) = [])
    (hsupplemental : fut'.context.supplemental SET_COOKIE = [])
    (hnames : (fut'.context.delta.map (·.name)).Nodup) :
    ∃ response fut'', AppFuture.serve display intoResponse f gs fut th =
        ⟨l, .ok (some response, fut'', th')⟩ ∧
      ∀ addr (next : Request), next.headers.getAll COOKIE = giveBack (setCookies response) →
        ((∃ jar, ((Context.new addr next).cookiesJar (ε := ε) text).1 = .ok jar ∧
          jar.originalCookies = fut'.context.delta.map Cookie.plain) ↔
            ∀ c ∈ fut'.context.delta, c.Returns display) := by
  refine ⟨(fut'.respond display intoResponse r).1, (fut'.respond display intoResponse r).2, ?_, ?_⟩
  · rw [serve_eq, h]
    simp
  intro addr next hnext
  have hset : setCookies (fut'.respond display intoResponse r).1 =
      fut'.context.delta.map (encodeCookie display) := by
    rw [setCookies_respond, hown, hsupplemental, List.nil_append, List.append_nil]
  rw [hset] at hnext
  simp only [cookiesJar_new_iff, hnext]
  exact reads_back_iff htext hnames

/-- Eleven characters of three bytes each are cut off. -/
example : ¬ (Cookie.new "q".toList (List.replicate 11 'あ')).Returns plainDisplay := by decide

/-! ## A cookie with a space in its value -/

/-- `to_str`, and `parse_encoded` on cookies without attributes. -/
def encodedText : CookieText where
  toStr raw :=
    if raw.all (fun b => (32 ≤ b && b < 127) || b == 9) then .ok (Utf8.ascii raw)
    else .error "failed to convert header to a str"
  parseEncoded s :=
    match (s.takeWhile (· != ';')).span (· != '=') with
    | (_, []) => .error "the cookie is missing a name/value pair"
    | (name, _ :: value) =>
      if Str.trim name = [] then .error "the cookie's name is empty"
      else match EncodedStr.percentDecode (Str.trim name),
          EncodedStr.percentDecode (Str.trim value) with
        | .ok n, .ok v => .ok (.new n v)
        | .error err, _ => .error (displayUtf8Error err)
        | .ok _, .error err => .error (displayUtf8Error err)

theorem percentDecode_ascii {bs : HeaderValue} (h : ∀ b ∈ bs, Token b) {s : Str} :
    EncodedStr.percentDecode (Utf8.ascii bs) = .ok s ↔ decode bs = Utf8.bytes s := by
  have hlow : ∀ b ∈ bs, b < 128 := by
    intro b hb
    obtain ⟨-, h127, -⟩ := h b hb
    rw [UInt8.lt_iff_toNat_lt] at h127 ⊢
    exact Nat.lt_succ_of_lt h127
  rw [EncodedStr.percentDecode_eq_ok_iff, Utf8.bytes_ascii hlow]

theorem encodedText_readsPairs : encodedText.ReadsPairs where
  toStr bs h := by
    have hall : bs.all (fun b => (32 ≤ b && b < 127) || b == 9) = true := by
      rw [List.all_eq_true]
      intro b hb
      obtain ⟨h32, h127⟩ := h b hb
      simp [h32, h127]
    exact if_pos hall
  parse {name value c} hne h := by
    have hname : ∀ b ∈ name, Token b := fun b hb => h b (List.mem_append_left _ hb)
    have hvalue : ∀ b ∈ value, Token b := fun b hb => h b (List.mem_append_right _ hb)
    have htoken : ∀ {bs : HeaderValue}, (∀ b ∈ bs, Token b) → ∀ ch ∈ Utf8.ascii bs,
        isWhitespace ch = false ∧ ch ≠ ';' ∧ ch ≠ '=' := by
      intro bs hbs ch hch
      obtain ⟨b, hb, rfl⟩ := List.mem_map.mp hch
      obtain ⟨h33, h127, h59, h61⟩ := hbs b hb
      obtain ⟨hspace, hsep, hequals⟩ := visible_char h33 h127
      exact ⟨hspace, hsep h59, hequals h61⟩
    have htext : Utf8.ascii (pairBytes (name, value)) =
        Utf8.ascii name ++ '=' :: Utf8.ascii value := by
      unfold pairBytes Utf8.ascii
      rw [List.map_append, List.map_cons]
      rfl
    have hsep : ∀ ch ∈ Utf8.ascii name ++ '=' :: Utf8.ascii value, (ch != ';') = true := by
      intro ch hch
      rw [bne_iff_ne]
      rcases List.mem_append.mp hch with hch | hch
      · exact (htoken hname ch hch).2.1
      · rcases List.mem_cons.mp hch with rfl | hch
        · decide
        · exact (htoken hvalue ch hch).2.1
    have hequals : '=' ∉ Utf8.ascii name := fun hmem => (htoken hname _ hmem).2.2 rfl
    have htrim : ∀ {bs : HeaderValue}, (∀ b ∈ bs, Token b) →
        Str.trim (Utf8.ascii bs) = Utf8.ascii bs := by
      intro bs hbs
      have hnil : ∀ ch ∈ ([] : Str), isWhitespace ch = true := fun ch hch => nomatch hch
      exact trim_append hnil fun ch hch => (htoken hbs ch hch).1
    have hascii : Utf8.ascii name ≠ [] := fun hnil => hne (List.map_eq_nil_iff.mp hnil)
    rw [htext]
    unfold encodedText
    simp only [List.takeWhile_eq_self_iff.mpr hsep, List.span_ne_of_not_mem hequals, htrim hname,
      htrim hvalue, if_neg hascii]
    simp only [← percentDecode_ascii hname, ← percentDecode_ascii hvalue]
    rcases EncodedStr.percentDecode (Utf8.ascii name) with err | n
    · simp
    · rcases EncodedStr.percentDecode (Utf8.ascii value) with err | v
      · simp
      · simp [eq_comm]

/-- `id=a b`. -/
def spaceCookie : Cookie := .new "id".toList "a b".toList

/-- The next request, with `Cookie: id=a%20b`. -/
def nextRequest : Request :=
  ⟨.get, .origin ⟨['/'], none, slash_rooted⟩, [(COOKIE, Utf8.bytes "id=a%20b".toList)]⟩

/-- The value comes back with its space. -/
theorem cookies_return_space : ∃ response fut,
    AppFuture.serve plainDisplay (fun _ _ => (⟨204, [], ()⟩ : Response Unit))
      (addCookie spaceCookie).action [id] (addCookieRun spaceCookie) ⟨none, ()⟩ =
        ⟨[⟨[], .preflight ⟨1, 0⟩ .incomplete⟩, ⟨[], .poll .ready false⟩],
          .ok (some response, fut, ⟨none, ()⟩)⟩ ∧
    ∃ jar, ((Context.new 1 nextRequest).cookiesJar (ε := Empty) encodedText).1 = .ok jar ∧
      jar.originalCookies = [spaceCookie] := by
  obtain ⟨response, fut, hserve, hreturn⟩ := cookies_return_iff plainDisplay encodedText_readsPairs
    (fun _ _ => (⟨204, [], ()⟩ : Response Unit)) (addCookie spaceCookie).action [id]
    (addCookieRun spaceCookie) ⟨none, ()⟩ rfl rfl rfl (by decide)
  refine ⟨response, fut, hserve, ?_⟩
  cases hserve
  exact (hreturn 1 nextRequest (by decide +kernel)).mpr (by decide +kernel)

end Finchers
