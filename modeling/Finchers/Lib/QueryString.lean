import Finchers.Lib.Percent
import Finchers.Lib.Utf8

/-!
# Query strings

A query string is a list of `key=value` separated by `&`, the keys and values percent-encoded.

* `Percent.Encoded` — a spelling of some bytes: each byte stands for itself or is escaped, and only
  unreserved bytes stand for themselves;
* `Writes` — a query string that carries some parameters, each key and value encoded once;
* `read_of_writes` — **reading is a left inverse**: what was written is read, in every spelling;
* `exists_writes` — any parameters can be written.
-/

set_option autoImplicit false

namespace Percent

/-- The bytes that need no escape in a key or value: letters, digits and `-._~!*'()`. -/
def unescaped (b : UInt8) : Bool :=
  decide (48 ≤ b ∧ b ≤ 57 ∨ 65 ≤ b ∧ b ≤ 90 ∨ 97 ≤ b ∧ b ≤ 122) ||
    [45, 46, 95, 126, 33, 42, 39, 40, 41].contains b

/-- `Encoded raw bs`: `raw` is an encoding of `bs`. -/
inductive Encoded : List UInt8 → List UInt8 → Prop where
  | nil : Encoded [] []
  | literal {b : UInt8} {raw bs : List UInt8} (hb : unescaped b = true) (h : Encoded raw bs) :
      Encoded (b :: raw) (b :: bs)
  | escape {d e : UInt8} {d' e' : Nat} {raw bs : List UInt8} (hd : hexVal d = some d')
      (he : hexVal e = some e') (h : Encoded raw bs) :
      Encoded (37 :: d :: e :: raw) (UInt8.ofNat (16 * d' + e') :: bs)

theorem Encoded.decode {raw bs : List UInt8} (h : Encoded raw bs) : Percent.decode raw = bs := by
  induction h with
  | nil => rfl
  | @literal b raw bs hb h ih =>
    have hne : b ≠ 37 := by
      rintro rfl
      cases hb
    rw [decode_of_literal (escape_eq_none hne raw), ih]
  | escape hd he h ih => rw [decode_of_escape (escape_mk hd he _), ih]

theorem unescaped_lt {b : UInt8} (h : unescaped b = true) : b < 128 := by
  unfold unescaped at h
  rw [Bool.or_eq_true, decide_eq_true_eq, List.contains_iff_mem] at h
  simp only [UInt8.le_iff_toNat_le, UInt8.lt_iff_toNat_lt] at h ⊢
  rcases h with (⟨-, h⟩ | ⟨-, h⟩ | ⟨-, h⟩) | h
  · exact Nat.lt_of_le_of_lt h (by decide)
  · exact Nat.lt_of_le_of_lt h (by decide)
  · exact Nat.lt_of_le_of_lt h (by decide)
  · simp only [List.mem_cons, List.not_mem_nil, or_false] at h
    rcases h with rfl | rfl | rfl | rfl | rfl | rfl | rfl | rfl | rfl <;> decide

theorem unescaped_of_hexVal {b : UInt8} {n : Nat} (h : hexVal b = some n) : unescaped b = true := by
  unfold hexVal at h
  dsimp only at h
  unfold unescaped
  simp only [UInt8.le_iff_toNat_le, Bool.or_eq_true, decide_eq_true_eq]
  left
  split at h
  · next hb => exact Or.inl hb
  · split at h
    · next hb => exact Or.inr (Or.inl ⟨hb.1, by have := hb.2; show b.toNat ≤ 90; omega⟩)
    · split at h
      · next hb => exact Or.inr (Or.inr ⟨hb.1, by have := hb.2; show b.toNat ≤ 122; omega⟩)
      · cases h

/-- An encoding has no other bytes. -/
theorem Encoded.mem {raw bs : List UInt8} (h : Encoded raw bs) {b : UInt8} (hb : b ∈ raw) :
    b = 37 ∨ unescaped b = true := by
  induction h with
  | nil => cases hb
  | literal hc h ih =>
    rcases List.mem_cons.mp hb with rfl | hb
    · exact Or.inr hc
    · exact ih hb
  | escape hd he h ih =>
    simp only [List.mem_cons] at hb
    rcases hb with rfl | rfl | rfl | hb
    · exact Or.inl rfl
    · exact Or.inr (unescaped_of_hexVal hd)
    · exact Or.inr (unescaped_of_hexVal he)
    · exact ih hb

theorem encoded_self {bs : List UInt8} (h : bs.all unescaped = true) : Encoded bs bs := by
  induction bs with
  | nil => exact .nil
  | cons b bs ih =>
    rw [List.all_cons, Bool.and_eq_true] at h
    exact .literal h.1 (ih h.2)

theorem encoded_encode (bs : List UInt8) : Encoded (encode (fun b => !unescaped b) bs) bs := by
  induction bs with
  | nil => exact .nil
  | cons b bs ih =>
    rw [encode_cons]
    cases hb : unescaped b with
    | true =>
      rw [encodeByte_literal (by simp [hb])]
      exact .literal hb ih
    | false =>
      rw [encodeByte_escaped (by simp [hb])]
      have hlt := b.toNat_lt
      have h := Encoded.escape (hexVal_hexDigit (b.toNat / 16) (by omega))
        (hexVal_hexDigit (b.toNat % 16) (by omega)) ih
      have hbyte : 16 * (b.toNat / 16) + b.toNat % 16 = b.toNat := by omega
      rw [hbyte, UInt8.ofNat_toNat] at h
      exact h

end Percent

namespace QueryString

open Percent

/-- The text is an encoding of another one. -/
def EncodedText (raw s : List Char) : Prop := Encoded (Utf8.bytes raw) (Utf8.bytes s)

/-- A part of a query string, and the key and value that it carries. -/
def WritesParam (part : List Char) (p : List Char × List Char) : Prop :=
  ∃ key value, part = key ++ '=' :: value ∧ EncodedText key p.1 ∧ EncodedText value p.2

/-- A query string, and the parameters that it carries. -/
def Writes (s : List Char) (params : List (List Char × List Char)) : Prop :=
  ∃ parts, s = ['&'].intercalate parts ∧ List.Forall₂ WritesParam parts params

/-- Decode a key or value. -/
def readText (raw : List Char) : Except Utf8.Utf8Error (List Char) :=
  Utf8.decode (Percent.decode (Utf8.bytes raw))

def readParam (part : List Char) : Except Utf8.Utf8Error (List Char × List Char) := do
  let key ← readText (part.takeWhile (· != '='))
  let value ← readText ((part.dropWhile (· != '=')).drop 1)
  return (key, value)

/-- Read a query string. -/
def read (s : List Char) : Except Utf8.Utf8Error (List (List Char × List Char)) :=
  (s.splitOn '&').mapM readParam

theorem EncodedText.read {raw s : List Char} (h : EncodedText raw s) : readText raw = .ok s :=
  Utf8.decode_eq_ok_iff.mpr h.decode

/-- A character that is reserved does not occur in an encoding. -/
theorem EncodedText.not_mem {raw s : List Char} (h : EncodedText raw s) {c : Char}
    (hc : c.toNat < 128) (hpct : UInt8.ofNat c.toNat ≠ 37)
    (hres : unescaped (UInt8.ofNat c.toNat) = false) : c ∉ raw := by
  intro hmem
  rcases h.mem (Utf8.mem_bytes hc hmem) with heq | hun
  · exact hpct heq
  · rw [hres] at hun
    cases hun

theorem EncodedText.not_mem_eq {raw s : List Char} (h : EncodedText raw s) : '=' ∉ raw :=
  h.not_mem (by decide) (by decide) (by decide)

theorem EncodedText.not_mem_amp {raw s : List Char} (h : EncodedText raw s) : '&' ∉ raw :=
  h.not_mem (by decide) (by decide) (by decide)

theorem readParam_of_writes {part : List Char} {p : List Char × List Char}
    (h : WritesParam part p) : readParam part = .ok p := by
  obtain ⟨key, value, rfl, hkey, hvalue⟩ := h
  have hne : ∀ c ∈ key, (c != '=') = true := by
    intro c hc
    simp only [bne_iff_ne, ne_eq]
    rintro rfl
    exact hkey.not_mem_eq hc
  have htake : (key ++ '=' :: value).takeWhile (· != '=') = key := by
    rw [List.takeWhile_append_of_pos hne, List.takeWhile_cons_of_neg (by decide), List.append_nil]
  have hdrop : ((key ++ '=' :: value).dropWhile (· != '=')).drop 1 = value := by
    rw [List.dropWhile_append_of_pos hne, List.dropWhile_cons_of_neg (by decide)]
    rfl
  unfold readParam
  rw [htake, hdrop, hkey.read, hvalue.read]
  rfl

theorem not_mem_amp_of_writes {part : List Char} {p : List Char × List Char}
    (h : WritesParam part p) : '&' ∉ part := by
  obtain ⟨key, value, rfl, hkey, hvalue⟩ := h
  simp only [List.mem_append, List.mem_cons, not_or]
  exact ⟨hkey.not_mem_amp, by decide, hvalue.not_mem_amp⟩

theorem splitOn_of_writes {parts : List (List Char)} {params : List (List Char × List Char)}
    (h : List.Forall₂ WritesParam parts params) (hne : params ≠ []) :
    (['&'].intercalate parts).splitOn '&' = parts := by
  apply List.splitOn_intercalate
  · clear hne
    induction h with
    | nil => exact fun _ hpart => absurd hpart List.not_mem_nil
    | cons hp hrest ih => exact List.forall_mem_cons.mpr ⟨not_mem_amp_of_writes hp, ih⟩
  · rintro rfl
    cases h
    exact hne rfl

theorem read_of_writes {s : List Char} {params : List (List Char × List Char)}
    (h : Writes s params) (hne : params ≠ []) : read s = .ok params := by
  obtain ⟨parts, rfl, hparts⟩ := h
  unfold read
  rw [splitOn_of_writes hparts hne]
  clear hne
  induction hparts with
  | nil => rfl
  | cons hp hrest ih =>
    rw [List.mapM_cons, readParam_of_writes hp, ih]
    rfl

theorem exists_encodedText (s : List Char) : ∃ raw, EncodedText raw s := by
  have h := encoded_encode (Utf8.bytes s)
  have hascii : ∀ b ∈ encode (fun b => !unescaped b) (Utf8.bytes s), b < 128 := by
    intro b hb
    rcases h.mem hb with rfl | hun
    · decide
    · exact unescaped_lt hun
  obtain ⟨raw, hraw⟩ := Utf8.exists_bytes_eq hascii
  exact ⟨raw, by rw [EncodedText, hraw]; exact h⟩

theorem exists_writes (params : List (List Char × List Char)) : ∃ s, Writes s params := by
  have hparts : ∃ parts, List.Forall₂ WritesParam parts params := by
    induction params with
    | nil => exact ⟨[], .nil⟩
    | cons p params ih =>
      obtain ⟨parts, hparts⟩ := ih
      obtain ⟨key, hkey⟩ := exists_encodedText p.1
      obtain ⟨value, hvalue⟩ := exists_encodedText p.2
      exact ⟨(key ++ '=' :: value) :: parts, .cons ⟨key, value, rfl, hkey, hvalue⟩ hparts⟩
  obtain ⟨parts, hparts⟩ := hparts
  exact ⟨_, parts, rfl, hparts⟩

end QueryString
