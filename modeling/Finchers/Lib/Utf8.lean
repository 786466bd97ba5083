import Mathlib.Data.List.Basic

/-!
# Texts sliced at byte offsets

A text is the list of its characters; a position in it is a number of bytes of its UTF-8
form.  Slicing is defined exactly at the positions that are in bounds and on a character
boundary; everywhere else it has no result.

* `sliceFrom_eq_some_iff` — a slice is defined iff the text splits at that many bytes, and then
  it is the second part;
* `find_eq_some_iff`, `find_eq_none_iff` — the byte offset of the first occurrence of a
  character;
* `decode` — the text of some bytes, or where they stop being UTF-8; `decode_bytes` — it undoes
  `bytes`.
-/

set_option autoImplicit false

namespace Utf8

/-- The number of bytes of a text. -/
def len : List Char → Nat
  | [] => 0
  | c :: s => c.utf8Size + len s

/-- The bytes of a text. -/
def bytes (s : List Char) : List UInt8 := s.flatMap String.utf8EncodeChar

/-- The part of a text from byte `n` on. -/
def sliceFrom : List Char → Nat → Option (List Char)
  | s, 0 => some s
  | [], _ + 1 => none
  | c :: s, n + 1 => if c.utf8Size ≤ n + 1 then sliceFrom s (n + 1 - c.utf8Size) else none

/-- The part of a text before byte `n`. -/
def sliceTo : List Char → Nat → Option (List Char)
  | _, 0 => some []
  | [], _ + 1 => none
  | c :: s, n + 1 =>
    if c.utf8Size ≤ n + 1 then (sliceTo s (n + 1 - c.utf8Size)).map (c :: ·) else none

/-- The part of a text between two bytes. -/
def slice (s : List Char) (i j : Nat) : Option (List Char) :=
  if i ≤ j then (sliceFrom s i).bind (sliceTo · (j - i)) else none

/-- The byte offset of the first occurrence of a character. -/
def find (c : Char) : List Char → Option Nat
  | [] => none
  | d :: s => if d = c then some 0 else (find c s).map (d.utf8Size + ·)

@[simp] theorem len_nil : len [] = 0 := rfl

@[simp] theorem len_cons (c : Char) (s : List Char) : len (c :: s) = c.utf8Size + len s := rfl

@[simp] theorem len_append (s t : List Char) : len (s ++ t) = len s + len t := by
  induction s with
  | nil => simp
  | cons c s ih => simp [ih, Nat.add_assoc]

theorem length_bytes (s : List Char) : (bytes s).length = len s := by
  induction s with
  | nil => rfl
  | cons c s ih => simp [bytes] at ih ⊢; exact ih

@[simp] theorem bytes_append (s t : List Char) : bytes (s ++ t) = bytes s ++ bytes t := by
  simp [bytes]

theorem utf8Size_pos (c : Char) : 0 < c.utf8Size := Char.utf8Size_pos c

theorem len_eq_zero_iff {s : List Char} : len s = 0 ↔ s = [] := by
  cases s with
  | nil => simp
  | cons c s =>
    have := utf8Size_pos c
    simp; omega

theorem sliceFrom_append (s t : List Char) : sliceFrom (s ++ t) (len s) = some t := by
  induction s with
  | nil => cases t <;> rfl
  | cons c s ih =>
    have hc := utf8Size_pos c
    obtain ⟨n, hn⟩ : ∃ n, c.utf8Size + len s = n + 1 := ⟨c.utf8Size + len s - 1, by omega⟩
    rw [List.cons_append, len_cons, hn, sliceFrom, if_pos (by omega),
      show n + 1 - c.utf8Size = len s by omega, ih]

/-- A suffix is defined iff the text splits at that many bytes. -/
theorem sliceFrom_eq_some_iff {s t : List Char} {n : Nat} :
    sliceFrom s n = some t ↔ ∃ a, s = a ++ t ∧ len a = n := by
  constructor
  · intro h
    induction s generalizing n with
    | nil =>
      cases n with
      | zero => cases h; exact ⟨[], rfl, rfl⟩
      | succ n => cases h
    | cons c s ih =>
      cases n with
      | zero => cases h; exact ⟨[], rfl, rfl⟩
      | succ n =>
        rw [sliceFrom] at h
        split at h
        · rename_i hle
          obtain ⟨a, rfl, ha⟩ := ih h
          exact ⟨c :: a, rfl, by simp; omega⟩
        · cases h
  · rintro ⟨a, rfl, rfl⟩
    exact sliceFrom_append a t

theorem sliceTo_append (s t : List Char) : sliceTo (s ++ t) (len s) = some s := by
  induction s with
  | nil => cases t <;> rfl
  | cons c s ih =>
    have hc := utf8Size_pos c
    obtain ⟨n, hn⟩ : ∃ n, c.utf8Size + len s = n + 1 := ⟨c.utf8Size + len s - 1, by omega⟩
    rw [List.cons_append, len_cons, hn, sliceTo, if_pos (by omega),
      show n + 1 - c.utf8Size = len s by omega, ih]
    rfl

/-- The middle of a text. -/
theorem slice_append (a s t : List Char) : slice (a ++ (s ++ t)) (len a) (len a + len s) = some s := by
  rw [slice, if_pos (by omega), sliceFrom_append, Option.bind_some,
    show len a + len s - len a = len s by omega, sliceTo_append]

/-- A found offset splits the text at the first occurrence. -/
theorem find_eq_some_iff {c : Char} {s : List Char} {n : Nat} :
    find c s = some n ↔ ∃ a b, s = a ++ c :: b ∧ c ∉ a ∧ len a = n := by
  induction s generalizing n with
  | nil => simp [find]
  | cons d s ih =>
    by_cases hd : d = c
    · subst hd
      constructor
      · intro h
        simp only [find, if_true, Option.some.injEq] at h
        exact ⟨[], s, rfl, List.not_mem_nil, h⟩
      · rintro ⟨a, b, hs, ha, rfl⟩
        cases a with
        | nil => simp [find]
        | cons e a =>
          rw [List.cons_append, List.cons.injEq] at hs
          exact absurd hs.1 (fun h => ha (h ▸ List.mem_cons_self))
    · rw [find, if_neg hd]
      constructor
      · intro h
        obtain ⟨k, hk, rfl⟩ := Option.map_eq_some_iff.mp h
        obtain ⟨a, b, rfl, ha, rfl⟩ := ih.mp hk
        refine ⟨d :: a, b, rfl, ?_, rfl⟩
        simp only [List.mem_cons, not_or]
        exact ⟨fun h => hd h.symm, ha⟩
      · rintro ⟨a, b, hs, ha, rfl⟩
        cases a with
        | nil =>
          rw [List.nil_append, List.cons.injEq] at hs
          exact absurd hs.1 hd
        | cons e a =>
          rw [List.cons_append, List.cons.injEq] at hs
          obtain ⟨rfl, rfl⟩ := hs
          rw [ih.mpr ⟨a, b, rfl, fun h => ha (List.mem_cons_of_mem _ h), rfl⟩]
          rfl

theorem find_eq_none_iff {c : Char} {s : List Char} : find c s = none ↔ c ∉ s := by
  induction s with
  | nil => simp [find]
  | cons d s ih =>
    rw [find]
    split
    · rename_i hd
      simp [hd]
    · rename_i hd
      rw [Option.map_eq_none_iff, ih, List.mem_cons, not_or]
      exact ⟨fun h => ⟨fun hc => hd hc.symm, h⟩, fun h => h.2⟩

/-! ## Decoding -/

/-- The first byte that is not part of a character, and the length of the invalid sequence there;
no length if the bytes end within a character. -/
structure Utf8Error where
  validUpTo : Nat
  errorLen : Option Nat
  deriving DecidableEq, Repr

def isContinuation (b : UInt8) : Bool := decide (0x80 ≤ b) && decide (b ≤ 0xBF)

/-- How many bytes a character has that begins with `b`, and which bytes may come second. -/
def sequence (b : UInt8) : Option (Nat × UInt8 × UInt8) :=
  if b ≤ 0x7F then some (1, 0, 0)
  else if 0xC2 ≤ b ∧ b ≤ 0xDF then some (2, 0x80, 0xBF)
  else if b = 0xE0 then some (3, 0xA0, 0xBF)
  else if b = 0xED then some (3, 0x80, 0x9F)
  else if 0xE1 ≤ b ∧ b ≤ 0xEF then some (3, 0x80, 0xBF)
  else if b = 0xF0 then some (4, 0x90, 0xBF)
  else if 0xF1 ≤ b ∧ b ≤ 0xF3 then some (4, 0x80, 0xBF)
  else if b = 0xF4 then some (4, 0x80, 0x8F)
  else none

/-- The length of the invalid sequence at the start of some bytes. -/
def errorLen : List UInt8 → Option Nat
  | [] => none
  | b :: rest =>
    match sequence b with
    | none => some 1
    | some (n, lo, hi) =>
      match rest with
      | [] => none
      | second :: rest =>
        if lo ≤ second ∧ second ≤ hi then
          let tail := (rest.take (n - 2)).takeWhile isContinuation
          if tail.length = rest.length then none else some (2 + tail.length)
        else some 1

def decode? (bs : List UInt8) : Option (List Char) :=
  bs.toByteArray.utf8Decode?.map (·.toList)

/-- The text of some bytes. -/
def decode (bs : List UInt8) : Except Utf8Error (List Char) :=
  match decode? bs with
  | some s => .ok s
  | none =>
    let valid := (List.range bs.length).filter (fun n => (decode? (bs.take n)).isSome)
    let validUpTo := valid.getLastD 0
    .error ⟨validUpTo, errorLen (bs.drop validUpTo)⟩

theorem decode_bytes (s : List Char) : decode (bytes s) = .ok s := by
  have h : decode? (bytes s) = some s := by
    have henc : (bytes s).toByteArray = List.utf8Encode s := rfl
    unfold decode?
    rw [henc, List.utf8Decode?_utf8Encode]
    rfl
  unfold decode
  rw [h]

/-- A character below 128 is one byte. -/
theorem utf8EncodeChar_ascii {c : Char} (h : c.toNat < 128) :
    String.utf8EncodeChar c = [UInt8.ofNat c.toNat] := by
  have hle : c.val.toNat ≤ 0x7f := by
    show c.toNat ≤ 0x7f
    omega
  unfold String.utf8EncodeChar
  exact if_pos hle

/-- Bytes below 128 are the bytes of a text. -/
theorem exists_bytes_eq {bs : List UInt8} (h : ∀ b ∈ bs, b < 128) : ∃ s, bytes s = bs := by
  induction bs with
  | nil => exact ⟨[], rfl⟩
  | cons b bs ih =>
    obtain ⟨hb, hbs⟩ := List.forall_mem_cons.mp h
    obtain ⟨s, rfl⟩ := ih hbs
    have hlt : b.toNat < 128 := UInt8.lt_iff_toNat_lt.mp hb
    have hvalid : b.toNat.isValidChar := Or.inl (by omega)
    have hc : (Char.ofNat b.toNat).toNat = b.toNat := by
      unfold Char.ofNat
      rw [dif_pos hvalid]
      rfl
    refine ⟨Char.ofNat b.toNat :: s, ?_⟩
    unfold bytes
    rw [List.flatMap_cons, utf8EncodeChar_ascii (by rw [hc]; exact hlt), hc, UInt8.ofNat_toNat]
    rfl

/-- A character below 128 leaves its byte in the bytes of a text. -/
theorem mem_bytes {c : Char} (h : c.toNat < 128) {s : List Char} (hc : c ∈ s) :
    UInt8.ofNat c.toNat ∈ bytes s := by
  refine List.mem_flatMap.mpr ⟨c, hc, ?_⟩
  rw [utf8EncodeChar_ascii h]
  exact List.mem_singleton_self _

/-- Bytes decode to a text iff they are its bytes. -/
theorem decode_eq_ok_iff {bs : List UInt8} {s : List Char} : decode bs = .ok s ↔ bs = bytes s := by
  constructor
  · intro h
    unfold decode at h
    split at h
    · rename_i t ht
      cases h
      unfold decode? at ht
      obtain ⟨cs, hcs, rfl⟩ := Option.map_eq_some_iff.mp ht
      have hsome : bs.toByteArray.utf8Decode?.isSome = true := by rw [hcs]; rfl
      have henc : (bs.toByteArray.utf8Decode?.get hsome).toList.utf8Encode = bs.toByteArray :=
        ByteArray.utf8Encode_get_utf8Decode?
      have hget : bs.toByteArray.utf8Decode?.get hsome = cs := by
        rw [Option.get_of_eq_some hsome hcs]
      rw [hget] at henc
      have hbytes : (bytes cs.toList).toByteArray = bs.toByteArray := henc
      have hdata := congrArg (fun a : ByteArray => a.data.toList) hbytes
      simpa using hdata.symm
    · cases h
  · rintro rfl
    exact decode_bytes s

/-- The text of some bytes below 128. -/
def ascii (bs : List UInt8) : List Char := bs.map fun b => Char.ofNat b.toNat

theorem toNat_ascii {b : UInt8} (h : b < 128) : (Char.ofNat b.toNat).toNat = b.toNat := by
  have hlt : b.toNat < 128 := UInt8.lt_iff_toNat_lt.mp h
  have hvalid : b.toNat.isValidChar := Or.inl (by omega)
  unfold Char.ofNat
  rw [dif_pos hvalid]
  rfl

theorem bytes_ascii {bs : List UInt8} (h : ∀ b ∈ bs, b < 128) : bytes (ascii bs) = bs := by
  induction bs with
  | nil => rfl
  | cons b bs ih =>
    obtain ⟨hb, hbs⟩ := List.forall_mem_cons.mp h
    have hlt : b.toNat < 128 := UInt8.lt_iff_toNat_lt.mp hb
    have hchar := toNat_ascii hb
    have hcons : bytes (ascii (b :: bs)) =
        String.utf8EncodeChar (Char.ofNat b.toNat) ++ bytes (ascii bs) := List.flatMap_cons
    rw [hcons, ih hbs, utf8EncodeChar_ascii (by omega), hchar, UInt8.ofNat_toNat]
    rfl

end Utf8
