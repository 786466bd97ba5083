import Finchers.SetCookie

/-!
# Which bytes a `Set-Cookie` header can hold

`encode_cookie` makes a header value of the bytes it wrote without checking them.  The name and the
value of the cookie are percent-encoded, the attributes `Path` and `Domain` are printed as they are.

* `valid_take_flatMap` — what is written of a text in parts is valid iff what is written of each
  part is;
* `Cookie.PrintedClean` — no control byte of `Path` or `Domain` lies within the buffer;
* `encodeCookie_valid_iff` — **the header value is valid iff this is so.**
-/

set_option autoImplicit false

namespace Finchers

open HeaderValue

/-- There is no CR, LF, NUL or other control byte in a valid header value. -/
theorem HeaderValue.Valid.not_control {value : HeaderValue} (h : Valid value) {b : UInt8}
    (hb : b < 32 ∧ b ≠ 9 ∨ b = 127) : b ∉ value := by
  intro hmem
  have hvalid := h b hmem
  rcases hb with ⟨hlt, hne⟩ | rfl
  · have hge : ¬ 32 ≤ b := by
      rw [UInt8.le_iff_toNat_le]
      rw [UInt8.lt_iff_toNat_lt] at hlt
      omega
    simp [validByte, hne, hge] at hvalid
  · revert hvalid
    decide

/-! ## Texts without control bytes -/

@[simp] theorem HeaderValue.valid_nil : Valid [] := by simp [Valid]

theorem HeaderValue.valid_of_all {bs : List UInt8} (h : bs.all validByte = true) : Valid bs :=
  List.all_eq_true.mp h

@[simp] theorem HeaderValue.valid_append (a b : List UInt8) :
    Valid (a ++ b) ↔ Valid a ∧ Valid b := by
  simp only [Valid, List.mem_append, or_imp, forall_and]

theorem HeaderValue.Valid.take {a : List UInt8} (h : Valid a) (n : Nat) : Valid (a.take n) :=
  fun b hb => h b (List.mem_of_mem_take hb)

/-- What a buffer holds of a text in two parts. -/
theorem valid_take_append (n : Nat) (a b : List UInt8) :
    Valid ((a ++ b).take n) ↔ Valid (a.take n) ∧ Valid (b.take (n - a.length)) := by
  rw [List.take_append, valid_append]

/-- A first part that is valid leaves the question to the second one. -/
theorem valid_take_append_of_valid {a : List UInt8} (h : Valid a) (n : Nat) (b : List UInt8) :
    Valid ((a ++ b).take n) ↔ Valid (b.take (n - a.length)) := by
  rw [valid_take_append]
  exact and_iff_right (h.take n)

/-- What a buffer holds of a text in any number of parts. -/
theorem valid_take_flatMap {α : Type} (f : α → List UInt8) (parts : List α) (n : Nat) :
    Valid ((parts.flatMap f).take n) ↔ ∀ before a after, parts = before ++ a :: after →
      Valid ((f a).take (n - (before.flatMap f).length)) := by
  induction parts generalizing n with
  | nil => simp
  | cons a parts ih =>
    rw [List.flatMap_cons, valid_take_append, ih]
    constructor
    · rintro ⟨hfirst, hrest⟩ before b after hparts
      cases before with
      | nil =>
        cases hparts
        exact hfirst
      | cons x before =>
        cases hparts
        have hlater := hrest before b after rfl
        rw [Nat.sub_sub] at hlater
        rw [List.flatMap_cons, List.length_append]
        exact hlater
    · intro h
      refine ⟨h [] a parts rfl, fun before b after hparts => ?_⟩
      have hlater := h (a :: before) b after (by rw [hparts]; rfl)
      rw [List.flatMap_cons, List.length_append] at hlater
      rw [Nat.sub_sub]
      exact hlater

/-- A token is a byte of a header value. -/
theorem Token.valid {b : UInt8} (h : Token b) : validByte b = true := by
  obtain ⟨h33, h127, -, -⟩ := h
  have hge : 32 ≤ b := by
    rw [UInt8.le_iff_toNat_le] at h33 ⊢
    exact Nat.le_of_succ_le h33
  have hne : b ≠ 127 := by
    rintro rfl
    exact absurd h127 (by decide)
  simp [validByte, hge, hne]

/-! ## The text of a cookie -/

section

variable (display : CookieDisplay) (c : Cookie)

/-- The size of the buffer. -/
def Cookie.capacity : Nat := max 31 (Utf8.len c.name + Utf8.len c.value + 1)

/-- The room that is left for the value of an attribute with a value: it comes after the encoded
name and value, what is printed of the attributes `before` it, and its own name. -/
def Cookie.room (before : List Params.Param) (a : Params.Param) : Nat :=
  c.capacity - ((Params.print (display.pair c) before).length + (a.name.length + 3))

/-- No control byte of the attributes that are printed as they are is within the buffer. -/
structure Cookie.PrintedClean : Prop where
  path : ∀ before a after, display.parameters c = before ++ a :: after → a.name = pathName →
    ∀ p, c.path = some p → Valid ((Utf8.bytes p).take (c.room display before a))
  domain : ∀ before a after, display.parameters c = before ++ a :: after → a.name = domainName →
    ∀ d, c.domain = some d → Valid ((Utf8.bytes d).take (c.room display before a))

/-- The encoded name and value. -/
theorem valid_pair : Valid (display.pair c).text := by
  intro b hb
  rcases List.mem_append.mp hb with hb | hb
  · exact (display.token_name c hb).valid
  · rcases List.mem_cons.mp hb with rfl | hb
    · decide
    · exact (display.token_value c hb).valid

/-- What the buffer holds of an attribute is valid iff what it holds of its value is. -/
theorem valid_take_attribute {a : Params.Param} (ha : a ∈ display.parameters c) (n : Nat) :
    Valid ((59 :: 32 :: a.text).take n) ↔
      ∀ v, a.value = some v → Valid (v.take (n - (a.name.length + 3))) := by
  have hname : Valid a.name := by
    intro b hb
    exact (attributeByte_token b (display.attributeName ha b hb)).valid
  obtain ⟨name, value⟩ := a
  have hname : Valid name := hname
  have hlead : Valid ([59, 32] ++ name) :=
    (valid_append _ _).mpr ⟨valid_of_all (by decide), hname⟩
  cases value with
  | none =>
    have htake : Valid (([59, 32] ++ name).take n) := hlead.take n
    constructor
    · exact fun _ v hv => nomatch hv
    · exact fun _ => htake
  | some v =>
    have htext : 59 :: 32 :: Params.Param.text ⟨name, some v⟩ =
        ([59, 32] ++ name ++ [61]) ++ v := by
      simp [Params.Param.text]
    have hlead : Valid ([59, 32] ++ name ++ [61]) :=
      (valid_append _ _).mpr ⟨hlead, valid_of_all (by decide)⟩
    have hlength : ([59, 32] ++ name ++ [61]).length = name.length + 3 := by
      simp
    rw [htext, valid_take_append_of_valid hlead, hlength]
    simp

end

/-- **The bytes of a `Set-Cookie` header form a valid header value iff no control byte of `Path` or
`Domain` is within the buffer.** -/
theorem encodeCookie_valid_iff (display : CookieDisplay) (c : Cookie) (hdate : c.DatePrinted) :
    Valid (encodeCookie display c) ↔ c.PrintedClean display := by
  have hheader : encodeCookie display c = ((display.pair c).text ++
      (display.parameters c).flatMap fun a => 59 :: 32 :: a.text).take c.capacity := by
    rw [encodeCookie_eq, display.encoded_eq_print]
    rfl
  have hmem : ∀ {before : List Params.Param} {a : Params.Param} {after : List Params.Param},
      display.parameters c = before ++ a :: after → a ∈ display.parameters c := by
    intro before a after hparts
    rw [hparts]
    exact List.mem_append_right before List.mem_cons_self
  -- what the buffer holds of the value of an attribute
  have hroom : ∀ (before : List Params.Param) (a : Params.Param),
      c.capacity - (display.pair c).text.length -
          (before.flatMap fun a => 59 :: 32 :: a.text).length - (a.name.length + 3) =
        c.room display before a := by
    intro before a
    unfold Cookie.room Params.print
    rw [List.length_append]
    omega
  rw [hheader, valid_take_append_of_valid (valid_pair display c), valid_take_flatMap]
  constructor
  · intro h
    have hvalue : ∀ before a after, display.parameters c = before ++ a :: after →
        ∀ v, a.value = some v → Valid (v.take (c.room display before a)) := by
      intro before a after hparts v hv
      have hpart :=
        (valid_take_attribute display c (hmem hparts) _).mp (h before a after hparts) v hv
      rw [hroom] at hpart
      exact hpart
    constructor
    · intro before a after hparts hname p hp
      exact hvalue before a after hparts _ (by rw [display.path (hmem hparts) hname, hp]; rfl)
    · intro before a after hparts hname d hd
      exact hvalue before a after hparts _ (by rw [display.domain (hmem hparts) hname, hd]; rfl)
  · intro h before a after hparts
    have ha := hmem hparts
    rw [valid_take_attribute display c ha, hroom]
    intro v hv
    by_cases hpath : a.name = pathName
    · obtain ⟨p, hp, rfl⟩ := Option.map_eq_some_iff.mp ((display.path ha hpath).symm.trans hv)
      exact h.path before a after hparts hpath p hp
    · by_cases hdomain : a.name = domainName
      · obtain ⟨d, hd, rfl⟩ := Option.map_eq_some_iff.mp ((display.domain ha hdomain).symm.trans hv)
        exact h.domain before a after hparts hdomain d hd
      · exact (display.valid hdate ha hpath hdomain v hv).take _

/-- A cookie whose path ends the header line and starts another one. -/
def splittingCookie : Cookie :=
  { Cookie.new "a".toList [] with path := some "/\r\nX: y".toList }

theorem encodeCookie_splits :
    encodeCookie plainDisplay splittingCookie = Utf8.bytes "a=; Path=/\r\nX: y".toList ∧
      ¬ Valid (encodeCookie plainDisplay splittingCookie) := by
  have htext : encodeCookie plainDisplay splittingCookie =
      Utf8.bytes "a=; Path=/\r\nX: y".toList := by
    rw [encodeCookie_eq]
    decide
  refine ⟨htext, fun h => ?_⟩
  have hcr : (13 : UInt8) ∈ encodeCookie plainDisplay splittingCookie := by
    rw [htext]
    exact Utf8.mem_bytes (c := '\r') (by decide) (by decide)
  exact h.not_control (Or.inl (by decide)) hcr

/-- A cookie with the path `/` and a host as its domain. -/
theorem encodeCookie_valid_host : Valid (encodeCookie plainDisplay
    { Cookie.new "id".toList "7".toList with
      path := some "/".toList, domain := some "example.com".toList }) := by
  rw [encodeCookie_valid_iff _ _ (fun t ht => by cases ht)]
  have hvisible : ∀ {bs : List UInt8}, bs.all validByte = true → ∀ n, Valid (bs.take n) := by
    intro bs hbs n
    exact (valid_of_all hbs).take n
  constructor
  · rintro before a after - - p hp
    cases hp
    exact hvisible (by decide) _
  · rintro before a after - - d hd
    cases hd
    exact hvisible (by decide) _

end Finchers
