import Mathlib.Data.List.Basic
import Mathlib.Data.List.Count

/-!
# Percent-encoding

Bytes of an encode set are written as `%XX` with upper-case digits; decoding accepts digits of
either case and leaves a `%` that no two digits follow as it is.

* `length_encode` — each byte of the set costs two bytes more;
* `decode_encode` — encoding is undone by decoding, up to the escapes that are there already;
* `decode_eq_self_iff` — decoding changes nothing iff there is no escape;
* `canonical`, `encode_decode`, `canonical_encode` — the one spelling that encoding produces;
* `decode_take_encode_eq_iff` — an encoding that may be cut off;
* `decode_encode_eq_iff`, `decode_take_encode_iff` — the same for sets that may contain `%`.
-/

set_option autoImplicit false

/-- A property of all bytes, tried on each of them. -/
theorem UInt8.forall_of_lt {P : UInt8 → Prop} (h : ∀ n, n < 256 → P (UInt8.ofNat n)) (b : UInt8) :
    P b := by
  have hb := h b.toNat b.toNat_lt
  rw [UInt8.ofNat_toNat] at hb
  exact hb

namespace Percent

/-- The bytes that are escaped. -/
abbrev EncodeSet := UInt8 → Bool

/-- Add some ASCII characters to a set. -/
def EncodeSet.with (set : EncodeSet) (cs : List Char) : EncodeSet :=
  fun b => set b || (cs.map Char.toUInt8).contains b

/-- Control characters and bytes outside ASCII. -/
def simpleEncodeSet : EncodeSet := fun b => decide (b < 0x20) || decide (b > 0x7E)

def queryEncodeSet : EncodeSet := simpleEncodeSet.with [' ', '"', '#', '<', '>']

def defaultEncodeSet : EncodeSet := queryEncodeSet.with ['\x60', '?', '\x7b', '\x7d']

def userinfoEncodeSet : EncodeSet :=
  defaultEncodeSet.with ['/', ':', ';', '=', '@', '[', '\\', ']', '^', '|']

def hexDigit (n : Nat) : UInt8 := UInt8.ofNat (if n < 10 then 48 + n else 55 + n)

def encodeByte (set : EncodeSet) (b : UInt8) : List UInt8 :=
  if set b then [37, hexDigit (b.toNat / 16), hexDigit (b.toNat % 16)] else [b]

def encode (set : EncodeSet) (bs : List UInt8) : List UInt8 := bs.flatMap (encodeByte set)

def hexVal (b : UInt8) : Option Nat :=
  let n := b.toNat
  if 48 ≤ n ∧ n ≤ 57 then some (n - 48)
  else if 65 ≤ n ∧ n ≤ 70 then some (n - 55)
  else if 97 ≤ n ∧ n ≤ 102 then some (n - 87)
  else none

def decode : List UInt8 → List UInt8
  | [] => []
  | [b] => [b]
  | [b, c] => [b, c]
  | b :: h :: l :: rest =>
    match b == 37, hexVal h, hexVal l with
    | true, some h', some l' => UInt8.ofNat (16 * h' + l') :: decode rest
    | _, _, _ => b :: decode (h :: l :: rest)

/-- Each escaped byte takes two bytes more. -/
theorem length_encode (set : EncodeSet) (bs : List UInt8) :
    (encode set bs).length = bs.length + 2 * bs.countP set := by
  induction bs with
  | nil => rfl
  | cons b bs ih =>
    have hb : (encodeByte set b).length = if set b then 3 else 1 := by
      unfold encodeByte
      split <;> rfl
    rw [encode, List.flatMap_cons, List.length_append, hb, ← encode, ih, List.countP_cons,
      List.length_cons]
    split <;> omega

/-! ## Escapes -/

/-- The byte that an escape at the front stands for, and what follows the escape. -/
def escape : List UInt8 → Option (UInt8 × List UInt8)
  | b :: h :: l :: rest =>
    match b == 37, hexVal h, hexVal l with
    | true, some h', some l' => some (UInt8.ofNat (16 * h' + l'), rest)
    | _, _, _ => none
  | _ => none

/-- There is a `%` somewhere that two hexadecimal digits follow. -/
def hasEscape : List UInt8 → Bool
  | [] => false
  | b :: bs => (escape (b :: bs)).isSome || hasEscape bs

theorem escape_eq_some {bs rest : List UInt8} {x : UInt8} (h : escape bs = some (x, rest)) :
    ∃ d e d' e', bs = 37 :: d :: e :: rest ∧ hexVal d = some d' ∧ hexVal e = some e' ∧
      x = UInt8.ofNat (16 * d' + e') := by
  unfold escape at h
  split at h
  · rename_i b d e tail
    split at h
    · rename_i d' e' hb hd he
      cases h
      exact ⟨d, e, d', e', by rw [beq_iff_eq.mp hb], hd, he, rfl⟩
    · cases h
  · cases h

theorem escape_mk {d e : UInt8} {d' e' : Nat} (hd : hexVal d = some d') (he : hexVal e = some e')
    (rest : List UInt8) :
    escape (37 :: d :: e :: rest) = some (UInt8.ofNat (16 * d' + e'), rest) := by
  simp [escape, hd, he]

theorem escape_eq_none {b : UInt8} (h : b ≠ 37) (bs : List UInt8) : escape (b :: bs) = none := by
  unfold escape
  split
  · rename_i hd he heq
    cases heq
    simp [h]
  · rfl

theorem decode_of_escape {bs rest : List UInt8} {x : UInt8} (h : escape bs = some (x, rest)) :
    decode bs = x :: decode rest := by
  obtain ⟨d, e, d', e', rfl, hd, he, rfl⟩ := escape_eq_some h
  simp [decode, hd, he]

theorem decode_of_literal {b : UInt8} {bs : List UInt8} (h : escape (b :: bs) = none) :
    decode (b :: bs) = b :: decode bs := by
  match bs with
  | [] => rfl
  | [c] => rfl
  | d :: e :: rest =>
    unfold escape at h
    rw [decode]
    split
    · rename_i d' e' hb hd he
      simp [hb, hd, he] at h
    · rfl

/-! ## Encoding and decoding -/

theorem hexVal_hexDigit : ∀ n, n < 16 → hexVal (hexDigit n) = some n := by decide

theorem hexVal_lt {b : UInt8} {n : Nat} (h : hexVal b = some n) : n < 16 := by
  unfold hexVal at h
  dsimp only at h
  split at h
  · cases h
    omega
  · split at h
    · cases h
      omega
    · split at h
      · cases h
        omega
      · cases h

/-- A set that escapes neither `%` nor a hexadecimal digit. -/
structure EncodeSet.Regular (set : EncodeSet) : Prop where
  percent : set 37 = false
  digit : ∀ {b n}, hexVal b = some n → set b = false

@[simp] theorem encode_nil (set : EncodeSet) : encode set [] = [] := rfl

theorem encode_cons (set : EncodeSet) (b : UInt8) (bs : List UInt8) :
    encode set (b :: bs) = encodeByte set b ++ encode set bs := rfl

theorem encodeByte_literal {set : EncodeSet} {b : UInt8} (h : set b = false) :
    encodeByte set b = [b] := by simp [encodeByte, h]

theorem encodeByte_escaped {set : EncodeSet} {b : UInt8} (h : set b = true) :
    encodeByte set b = [37, hexDigit (b.toNat / 16), hexDigit (b.toNat % 16)] := by
  simp [encodeByte, h]

/-- What encoding writes for a byte of the set is an escape for that byte. -/
theorem escape_encoded (b : UInt8) (rest : List UInt8) :
    escape (37 :: hexDigit (b.toNat / 16) :: hexDigit (b.toNat % 16) :: rest) = some (b, rest) := by
  have hb := b.toNat_lt
  have hhi := hexVal_hexDigit (b.toNat / 16) (by omega)
  have hlo := hexVal_hexDigit (b.toNat % 16) (by omega)
  have hval : 16 * (b.toNat / 16) + b.toNat % 16 = b.toNat := by omega
  rw [escape_mk hhi hlo, hval, UInt8.ofNat_toNat]

/-- A digit is at the front of an encoding iff it is at the front of the bytes. -/
theorem hexVal_head_encode {set : EncodeSet} (hset : set.Regular) (bs : List UInt8) :
    (encode set bs).head?.bind hexVal = bs.head?.bind hexVal := by
  cases bs with
  | nil => rfl
  | cons b bs =>
    rw [encode_cons]
    by_cases hb : set b = true
    · have hnone : hexVal b = none := by
        cases hv : hexVal b with
        | none => rfl
        | some n =>
          rw [hset.digit hv] at hb
          cases hb
      rw [encodeByte_escaped hb]
      simp [hnone]
      decide
    · rw [encodeByte_literal (Bool.eq_false_iff.mpr hb)]
      rfl

/-- Encoding neither makes nor breaks an escape at the front. -/
theorem escape_encode {set : EncodeSet} (hset : set.Regular) {b : UInt8} (hb : set b = false)
    (bs : List UInt8) :
    escape (b :: encode set bs) = (escape (b :: bs)).map (fun r => (r.1, encode set r.2)) := by
  by_cases hpct : b = 37
  · subst hpct
    match bs with
    | [] => rfl
    | d :: ds =>
      by_cases hd : (hexVal d).isSome
      · obtain ⟨d', hd'⟩ := Option.isSome_iff_exists.mp hd
        rw [encode_cons, encodeByte_literal (hset.digit hd'), List.singleton_append]
        match ds with
        | [] => rfl
        | e :: rest =>
          by_cases he : (hexVal e).isSome
          · obtain ⟨e', he'⟩ := Option.isSome_iff_exists.mp he
            rw [encode_cons, encodeByte_literal (hset.digit he'), List.singleton_append,
              escape_mk hd' he', escape_mk hd' he']
            rfl
          · have hnone : hexVal e = none := by simpa using he
            have hhead := hexVal_head_encode hset (e :: rest)
            have hr : escape (37 :: d :: e :: rest) = none := by simp [escape, hd', hnone]
            rw [hr, Option.map_none]
            cases henc : encode set (e :: rest) with
            | nil => rfl
            | cons x xs =>
              rw [henc] at hhead
              have hx : hexVal x = none := by simpa [hnone] using hhead
              simp [escape, hd', hx]
      · have hnone : hexVal d = none := by simpa using hd
        have hhead := hexVal_head_encode hset (d :: ds)
        have hr : escape (37 :: d :: ds) = none := by
          cases ds with
          | nil => rfl
          | cons e rest => simp [escape, hnone]
        rw [hr, Option.map_none]
        cases henc : encode set (d :: ds) with
        | nil => rfl
        | cons x xs =>
          rw [henc] at hhead
          have hx : hexVal x = none := by simpa [hnone] using hhead
          cases xs with
          | nil => rfl
          | cons y ys => simp [escape, hx]
  · rw [escape_eq_none hpct, escape_eq_none hpct]
    rfl

/-- Encoding changes nothing iff there is nothing to escape. -/
theorem encode_eq_self_iff {set : EncodeSet} (bs : List UInt8) :
    encode set bs = bs ↔ ∀ b ∈ bs, set b = false := by
  induction bs with
  | nil => simp
  | cons b bs ih =>
    rw [encode_cons, List.forall_mem_cons, ← ih]
    by_cases hb : set b = true
    · refine ⟨fun heq => ?_, fun h => ?_⟩
      · have hlen := congrArg List.length heq
        have hle := length_encode set bs
        rw [encodeByte_escaped hb, List.length_append, List.length_cons] at hlen
        simp only [List.length_cons, List.length_nil] at hlen
        omega
      · rw [h.1] at hb
        cases hb
    · have hb' := Bool.eq_false_iff.mpr hb
      rw [encodeByte_literal hb', List.singleton_append, List.cons_inj_right]
      simp [hb']

/-- A byte of the set does not occur in an encoding, unless escapes are made of it. -/
theorem not_mem_encode {set : EncodeSet} {x : UInt8} (hx : set x = true) (hpct : x ≠ 37)
    (hdigit : ∀ n, n < 16 → x ≠ hexDigit n) (bs : List UInt8) : x ∉ encode set bs := by
  intro h
  obtain ⟨b, -, hmem⟩ := List.mem_flatMap.mp h
  have hlt := b.toNat_lt
  by_cases hb : set b = true
  · rw [encodeByte_escaped hb] at hmem
    simp only [List.mem_cons, List.not_mem_nil, or_false] at hmem
    rcases hmem with h1 | h1 | h1
    · exact hpct h1
    · exact hdigit _ (by omega) h1
    · exact hdigit _ (by omega) h1
  · rw [encodeByte_literal (Bool.eq_false_iff.mpr hb), List.mem_singleton] at hmem
    rw [← hmem] at hb
    exact hb hx

theorem length_lt_of_escape {bs rest : List UInt8} {x : UInt8} (h : escape bs = some (x, rest)) :
    rest.length + 3 = bs.length := by
  obtain ⟨d, e, -, -, rfl, -⟩ := escape_eq_some h
  rfl

/-- **Decoding an encoding gives what decoding the bytes themselves gives.** -/
theorem decode_encode {set : EncodeSet} (hset : set.Regular) (bs : List UInt8) :
    decode (encode set bs) = decode bs := by
  induction hm : bs.length using Nat.strongRecOn generalizing bs with
  | ind m ih =>
    match bs with
    | [] => rfl
    | b :: bs =>
      rw [encode_cons]
      by_cases hb : set b = true
      · have hpct : b ≠ 37 := by
          rintro rfl
          rw [hset.percent] at hb
          cases hb
        rw [encodeByte_escaped hb]
        refine (decode_of_escape (escape_encoded b _)).trans ?_
        rw [decode_of_literal (escape_eq_none hpct bs)]
        exact congrArg (b :: ·) (ih _ (by rw [← hm]; exact Nat.lt_succ_self _) bs rfl)
      · rw [encodeByte_literal (Bool.eq_false_iff.mpr hb), List.singleton_append]
        have hesc := escape_encode hset (Bool.eq_false_iff.mpr hb) bs
        cases hr : escape (b :: bs) with
        | none =>
          rw [hr] at hesc
          rw [decode_of_literal hesc, decode_of_literal hr]
          exact congrArg (b :: ·) (ih _ (by rw [← hm]; exact Nat.lt_succ_self _) bs rfl)
        | some r =>
          obtain ⟨x, rest⟩ := r
          rw [hr] at hesc
          rw [decode_of_escape hesc, decode_of_escape hr]
          have hlen := length_lt_of_escape hr
          exact congrArg (x :: ·) (ih _ (by omega) rest rfl)

theorem length_decode_le (bs : List UInt8) : (decode bs).length ≤ bs.length := by
  induction hm : bs.length using Nat.strongRecOn generalizing bs with
  | ind m ih =>
    match bs with
    | [] => exact Nat.zero_le _
    | b :: bs =>
      cases hr : escape (b :: bs) with
      | none =>
        have := ih bs.length (by rw [← hm]; exact Nat.lt_succ_self _) bs rfl
        rw [decode_of_literal hr, List.length_cons, ← hm, List.length_cons]
        omega
      | some r =>
        obtain ⟨x, rest⟩ := r
        have hlen := length_lt_of_escape hr
        have := ih rest.length (by omega) rest rfl
        rw [decode_of_escape hr, List.length_cons]
        omega

/-- **Decoding changes nothing iff there is no escape.** -/
theorem decode_eq_self_iff (bs : List UInt8) : decode bs = bs ↔ hasEscape bs = false := by
  induction bs with
  | nil => exact ⟨fun _ => rfl, fun _ => rfl⟩
  | cons b bs ih =>
    cases hr : escape (b :: bs) with
    | none =>
      rw [decode_of_literal hr, hasEscape, hr, List.cons_inj_right, ih]
      simp
    | some r =>
      obtain ⟨x, rest⟩ := r
      have hlen := length_lt_of_escape hr
      have hle := length_decode_le rest
      refine ⟨fun heq => ?_, fun hno => ?_⟩
      · have := congrArg List.length heq
        rw [decode_of_escape hr, List.length_cons] at this
        omega
      · simp [hasEscape, hr] at hno

/-! ## Canonical spellings -/

/-- Every escape is upper-case and of a byte of the set, and no byte of the set stands there
unescaped. -/
def canonical (set : EncodeSet) : List UInt8 → Bool
  | [] => true
  | [b] => !set b
  | [b, c] => !set b && !set c
  | b :: h :: l :: rest =>
    match b == 37, hexVal h, hexVal l with
    | true, some h', some l' =>
      set (UInt8.ofNat (16 * h' + l')) && (h == hexDigit h' && l == hexDigit l') &&
        canonical set rest
    | _, _, _ => !set b && canonical set (h :: l :: rest)

theorem canonical_of_literal {set : EncodeSet} {b : UInt8} {bs : List UInt8}
    (h : escape (b :: bs) = none) : canonical set (b :: bs) = (!set b && canonical set bs) := by
  match bs with
  | [] => simp [canonical]
  | [c] => simp [canonical]
  | d :: e :: rest =>
    unfold escape at h
    rw [canonical]
    split
    · rename_i d' e' hb hd he
      simp [hb, hd, he] at h
    · rfl

/-- An escape that is spelled canonically is the one that encoding writes. -/
theorem canonical_of_escape {set : EncodeSet} {bs rest : List UInt8} {x : UInt8}
    (h : escape bs = some (x, rest)) :
    canonical set bs = true ↔
      set x = true ∧ bs = encodeByte set x ++ rest ∧ canonical set rest = true := by
  obtain ⟨d, e, d', e', rfl, hd, he, rfl⟩ := escape_eq_some h
  have hd16 := hexVal_lt hd
  have he16 := hexVal_lt he
  have hval : (UInt8.ofNat (16 * d' + e')).toNat = 16 * d' + e' := by
    rw [UInt8.toNat_ofNat']
    omega
  have hdiv : (16 * d' + e') / 16 = d' := by omega
  have hmod : (16 * d' + e') % 16 = e' := by omega
  simp only [canonical, hd, he, beq_self_eq_true, Bool.and_eq_true, beq_iff_eq]
  constructor
  · rintro ⟨⟨hx, hdd, hee⟩, hrest⟩
    refine ⟨hx, ?_, hrest⟩
    rw [encodeByte_escaped hx, hval, hdiv, hmod, ← hdd, ← hee]
    rfl
  · rintro ⟨hx, heq, hrest⟩
    rw [encodeByte_escaped hx, hval, hdiv, hmod] at heq
    simp only [List.cons_append, List.nil_append, List.cons.injEq, and_true, true_and] at heq
    exact ⟨⟨hx, heq.1, heq.2⟩, hrest⟩

/-- **A canonical spelling is the encoding of what it decodes to.** -/
theorem encode_decode {set : EncodeSet} {bs : List UInt8} (h : canonical set bs = true) :
    encode set (decode bs) = bs := by
  induction hm : bs.length using Nat.strongRecOn generalizing bs with
  | ind m ih =>
    match bs with
    | [] => rfl
    | b :: bs =>
      cases hr : escape (b :: bs) with
      | none =>
        rw [canonical_of_literal hr, Bool.and_eq_true, Bool.not_eq_true'] at h
        rw [decode_of_literal hr, encode_cons, encodeByte_literal h.1, List.singleton_append]
        exact congrArg (b :: ·) (ih _ (by rw [← hm]; exact Nat.lt_succ_self _) h.2 rfl)
      | some r =>
        obtain ⟨x, rest⟩ := r
        obtain ⟨-, hbs, hrest⟩ := (canonical_of_escape hr).mp h
        have hlen := length_lt_of_escape hr
        rw [decode_of_escape hr, encode_cons, ih _ (by omega) hrest rfl, ← hbs]

/-- **The encoding of bytes without an escape is canonical.** -/
theorem canonical_encode {set : EncodeSet} (hset : set.Regular) {bs : List UInt8}
    (h : hasEscape bs = false) : canonical set (encode set bs) = true := by
  induction bs with
  | nil => rfl
  | cons b bs ih =>
    rw [hasEscape, Bool.or_eq_false_iff] at h
    rw [encode_cons]
    by_cases hb : set b = true
    · rw [encodeByte_escaped hb]
      refine (canonical_of_escape (escape_encoded b _)).mpr ⟨hb, ?_, ih h.2⟩
      rw [encodeByte_escaped hb]
      rfl
    · have hb' := Bool.eq_false_iff.mpr hb
      have hno : escape (b :: encode set bs) = none := by
        have hnone : escape (b :: bs) = none := by simpa using h.1
        rw [escape_encode hset hb', hnone, Option.map_none]
      rw [encodeByte_literal hb', List.singleton_append, canonical_of_literal hno, hb', ih h.2]
      rfl

example : decode (encode userinfoEncodeSet [97, 32, 98, 37, 50, 102]) = [97, 32, 98, 47] := by
  decide

/-! ## An encoding that is cut off -/

/-- An escape at the front of what is left of a list that was cut off is one of the whole list. -/
theorem escape_take {b x : UInt8} {bs rest : List UInt8} {n : Nat}
    (h : escape (b :: bs.take n) = some (x, rest)) :
    ∃ k rest', escape (b :: bs) = some (x, rest') ∧ rest = rest'.take k := by
  obtain ⟨d, e, d', e', heq, hd, he, rfl⟩ := escape_eq_some h
  match n, bs, heq with
  | n + 2, _ :: _ :: bs, heq =>
    simp only [List.take_succ_cons, List.cons.injEq] at heq
    obtain ⟨rfl, rfl, rfl, rfl⟩ := heq
    exact ⟨n, bs, escape_mk hd he bs, rfl⟩
  | 0, _, heq => simp at heq
  | 1, [], heq => simp at heq
  | 1, _ :: _, heq => simp at heq
  | _ + 2, [], heq => simp at heq
  | _ + 2, [_], heq => simp at heq

/-- What is read of an encoding that is cut off is at most one byte longer than the bytes: the cut may
leave a `%` and a digit of an escape. -/
theorem length_decode_take_encode_le {set : EncodeSet} (hset : set.Regular) (bs : List UInt8)
    (n : Nat) : (decode ((encode set bs).take n)).length ≤ bs.length + 1 := by
  induction hm : bs.length using Nat.strongRecOn generalizing bs n with
  | ind m ih =>
    match bs with
    | [] => simp [decode]
    | b :: bs =>
      have hlt : bs.length < m := by
        rw [← hm]
        exact Nat.lt_succ_self _
      rw [encode_cons]
      by_cases hb : set b = true
      · rw [encodeByte_escaped hb]
        match n with
        | 0 => simp [decode]
        | 1 => simp [decode]
        | 2 =>
          simp only [List.cons_append, List.take_succ_cons, List.take_zero, decode,
            List.length_cons, List.length_nil]
          rw [List.length_cons] at hm
          omega
        | n + 3 =>
          have hstep : decode ((37 :: hexDigit (b.toNat / 16) :: hexDigit (b.toNat % 16) ::
              encode set bs).take (n + 3)) = b :: decode ((encode set bs).take n) :=
            decode_of_escape (escape_encoded b _)
          have hrest := ih _ hlt bs n rfl
          rw [List.cons_append, List.cons_append, List.singleton_append, hstep, List.length_cons]
          rw [List.length_cons] at hm
          omega
      · have hb' := Bool.eq_false_iff.mpr hb
        rw [encodeByte_literal hb', List.singleton_append]
        match n with
        | 0 => simp [decode]
        | n + 1 =>
          rw [List.take_succ_cons]
          cases hr : escape (b :: (encode set bs).take n) with
          | none =>
            have hrest := ih _ hlt bs n rfl
            rw [decode_of_literal hr, List.length_cons]
            rw [List.length_cons] at hm
            omega
          | some r =>
            obtain ⟨x, rest⟩ := r
            obtain ⟨k, rest', hr', rfl⟩ := escape_take hr
            rw [escape_encode hset hb'] at hr'
            obtain ⟨⟨y, bs'⟩, hbs', heq⟩ := Option.map_eq_some_iff.mp hr'
            dsimp only at heq
            cases heq
            have hlen := length_lt_of_escape hbs'
            rw [List.length_cons] at hlen hm
            have hrest := ih bs'.length (by omega) bs' k rfl
            rw [decode_of_escape hr, List.length_cons]
            omega

/-- **What is left of an encoding decodes to the bytes iff nothing was cut off and the bytes have no
escape.** -/
theorem decode_take_encode_eq_iff {set : EncodeSet} (hset : set.Regular) (bs : List UInt8) (n : Nat) :
    decode ((encode set bs).take n) = bs ↔
      (encode set bs).length ≤ n ∧ hasEscape bs = false := by
  constructor
  · intro h
    induction bs generalizing n with
    | nil => exact ⟨Nat.zero_le n, rfl⟩
    | cons b bs ih =>
      rw [encode_cons] at h ⊢
      by_cases hb : set b = true
      · have hpct : b ≠ 37 := by
          rintro rfl
          rw [hset.percent] at hb
          cases hb
        rw [encodeByte_escaped hb] at h ⊢
        match n with
        | 0 => simp [decode] at h
        | 1 =>
          simp only [List.cons_append, List.take_succ_cons, List.take_zero, decode,
            List.cons.injEq] at h
          exact absurd h.1.symm hpct
        | 2 =>
          simp only [List.cons_append, List.take_succ_cons, List.take_zero, decode,
            List.cons.injEq] at h
          exact absurd h.1.symm hpct
        | n + 3 =>
          have hstep : decode ((37 :: hexDigit (b.toNat / 16) :: hexDigit (b.toNat % 16) ::
              encode set bs).take (n + 3)) = b :: decode ((encode set bs).take n) :=
            decode_of_escape (escape_encoded b _)
          rw [List.cons_append, List.cons_append, List.singleton_append, hstep,
            List.cons_inj_right] at h
          obtain ⟨hlen, hno⟩ := ih n h
          refine ⟨by simpa using hlen, ?_⟩
          rw [hasEscape, escape_eq_none hpct, hno]
          rfl
      · have hb' := Bool.eq_false_iff.mpr hb
        rw [encodeByte_literal hb', List.singleton_append] at h ⊢
        match n with
        | 0 => simp [decode] at h
        | n + 1 =>
          rw [List.take_succ_cons] at h
          cases hr : escape (b :: (encode set bs).take n) with
          | none =>
            rw [decode_of_literal hr, List.cons_inj_right] at h
            obtain ⟨hlen, hno⟩ := ih n h
            rw [List.take_of_length_le hlen, escape_encode hset hb', Option.map_eq_none_iff] at hr
            refine ⟨by simpa using hlen, ?_⟩
            rw [hasEscape, hr, hno]
            rfl
          | some r =>
            -- then too few bytes are read
            obtain ⟨x, rest⟩ := r
            obtain ⟨k, rest', hr', rfl⟩ := escape_take hr
            rw [escape_encode hset hb'] at hr'
            obtain ⟨⟨y, bs'⟩, hbs', heq⟩ := Option.map_eq_some_iff.mp hr'
            dsimp only at heq
            cases heq
            rw [decode_of_escape hr] at h
            have hlen := length_lt_of_escape hbs'
            have hshort := length_decode_take_encode_le hset bs' k
            have hlong := congrArg List.length h
            rw [List.length_cons, List.length_cons] at hlong
            rw [List.length_cons] at hlen
            omega
  · intro h
    obtain ⟨hlen, hno⟩ := h
    rw [List.take_of_length_le hlen, decode_encode hset]
    exact (decode_eq_self_iff bs).mpr hno

/-! ## Sets that contain `%` -/

/-- The set escapes no hexadecimal digit. -/
def EncodeSet.KeepsDigits (set : EncodeSet) : Prop := ∀ {b n}, hexVal b = some n → set b = false

/-- Nothing that was in the bytes is taken for an escape of the encoding: it is escaped itself, or
there is nothing like it. -/
def EncodeSet.Survives (set : EncodeSet) (bs : List UInt8) : Prop :=
  set 37 = true ∨ hasEscape bs = false

instance (set : EncodeSet) (bs : List UInt8) : Decidable (set.Survives bs) :=
  inferInstanceAs (Decidable (_ ∨ _))

theorem decode_encode_of_percent {set : EncodeSet} (hpct : set 37 = true) (bs : List UInt8) :
    decode (encode set bs) = bs := by
  induction bs with
  | nil => rfl
  | cons b bs ih =>
    rw [encode_cons]
    by_cases hb : set b = true
    · rw [encodeByte_escaped hb]
      exact (decode_of_escape (escape_encoded b _)).trans (congrArg (b :: ·) ih)
    · have hne : b ≠ 37 := by
        rintro rfl
        exact hb hpct
      rw [encodeByte_literal (Bool.eq_false_iff.mpr hb), List.singleton_append,
        decode_of_literal (escape_eq_none hne _), ih]

/-- **An encoding decodes to the bytes iff they survive.** -/
theorem decode_encode_eq_iff {set : EncodeSet} (hset : set.KeepsDigits) (bs : List UInt8) :
    decode (encode set bs) = bs ↔ set.Survives bs := by
  unfold EncodeSet.Survives
  cases hpct : set 37 with
  | true => simp [decode_encode_of_percent hpct]
  | false =>
    rw [decode_encode ⟨hpct, hset⟩, decode_eq_self_iff]
    simp

/-- The bytes end with a `%`, or with a `%` and the first digit of its escape. -/
def EndsOpen (bs : List UInt8) : Prop := [37] <:+ bs ∨ [37, 50] <:+ bs

instance (bs : List UInt8) : Decidable (EndsOpen bs) := inferInstanceAs (Decidable (_ ∨ _))

theorem endsOpen_cons {b : UInt8} {bs : List UInt8} :
    EndsOpen (b :: bs) ↔ b = 37 ∧ (bs = [] ∨ bs = [50]) ∨ EndsOpen bs := by
  unfold EndsOpen
  simp only [List.suffix_cons_iff, List.cons.injEq]
  constructor
  · rintro ((⟨rfl, rfl⟩ | h) | (⟨rfl, rfl⟩ | h))
    · exact Or.inl ⟨rfl, Or.inl rfl⟩
    · exact Or.inr (Or.inl h)
    · exact Or.inl ⟨rfl, Or.inr rfl⟩
    · exact Or.inr (Or.inr h)
  · rintro (⟨rfl, rfl | rfl⟩ | h | h)
    · exact Or.inl (Or.inl ⟨rfl, rfl⟩)
    · exact Or.inr (Or.inl ⟨rfl, rfl⟩)
    · exact Or.inl (Or.inr h)
    · exact Or.inr (Or.inr h)

section

variable {set : EncodeSet}

theorem length_le_encode (set : EncodeSet) (bs : List UInt8) : bs.length ≤ (encode set bs).length := by
  rw [length_encode]
  omega

theorem encode_fifty (hset : set.KeepsDigits) : encode set [50] = [50] := by
  have h50 : set 50 = false := hset (n := 2) (by decide)
  rw [encode_cons, encodeByte_literal h50]
  rfl

/-- The encoding of the last `%` has three bytes. -/
theorem EndsOpen.three_le (hpct : set 37 = true) {bs : List UInt8} (h : EndsOpen bs) :
    3 ≤ (encode set bs).length := by
  have hmem : 37 ∈ bs := by
    rcases h with h | h
    · exact h.subset List.mem_cons_self
    · exact h.subset List.mem_cons_self
  have hcount : 0 < bs.countP set := List.countP_pos_iff.mpr ⟨37, hmem, hpct⟩
  have hlength := List.length_pos_of_mem hmem
  rw [length_encode]
  omega

/-- What an encoding of `bs` with room for `n` bytes has to be to be read as `bs`. -/
def EncodeSet.CutReadable (set : EncodeSet) (bs : List UInt8) (n : Nat) : Prop :=
  (encode set bs).length ≤ n ∨ (encode set bs).length = n + 2 ∧ EndsOpen bs

/-- A byte that is not cut leaves the question to the others. -/
theorem cutReadable_cons (hset : set.KeepsDigits) {b : UInt8} {bs : List UInt8} {n k : Nat}
    (hk : (encodeByte set b).length = k) :
    set.CutReadable (b :: bs) (n + k) ↔ set.CutReadable bs n := by
  have hlength : (encode set (b :: bs)).length = (encode set bs).length + k := by
    rw [encode_cons, List.length_append, hk, Nat.add_comm]
  have hopen : (encode set bs).length = n + 2 → (EndsOpen (b :: bs) ↔ EndsOpen bs) := by
    intro hlen
    rw [endsOpen_cons, or_iff_right_iff_imp]
    rintro ⟨-, rfl | rfl⟩
    · rw [encode_nil, List.length_nil] at hlen
      omega
    · rw [encode_fifty hset, List.length_singleton] at hlen
      omega
  unfold EncodeSet.CutReadable
  rw [hlength]
  constructor
  · rintro (hle | ⟨hlen, h⟩)
    · exact Or.inl (by omega)
    · have hlen' : (encode set bs).length = n + 2 := by omega
      exact Or.inr ⟨hlen', (hopen hlen').mp h⟩
  · rintro (hle | ⟨hlen, h⟩)
    · exact Or.inl (by omega)
    · exact Or.inr ⟨by omega, (hopen hlen).mpr h⟩

/-- The cut is through the escape of the first byte, after `n` bytes of it. -/
theorem cutReadable_first (hset : set.KeepsDigits) (hpct : set 37 = true) {b : UInt8}
    {bs : List UInt8} (hb : set b = true) {n : Nat} (hn : n < 3) :
    (encodeByte set b).take n = b :: bs ↔ set.CutReadable (b :: bs) n := by
  unfold EncodeSet.CutReadable
  have hlength : (encode set (b :: bs)).length = (encode set bs).length + 3 := by
    rw [encode_cons, encodeByte_escaped hb, List.length_append, Nat.add_comm]
    rfl
  have hle := length_le_encode set bs
  rw [hlength, encodeByte_escaped hb]
  constructor
  · intro h
    match n, hn, h with
    | 0, _, h => cases h
    | 1, _, h =>
      cases h
      exact Or.inr ⟨rfl, by decide⟩
    | 2, _, h =>
      rw [List.take_succ_cons, List.cons.injEq] at h
      obtain ⟨rfl, hbs⟩ := h
      have hfifty : bs = [50] := hbs.symm
      rw [hfifty, encode_fifty hset]
      exact Or.inr ⟨rfl, by decide⟩
  · rintro (h | ⟨h, hopen⟩)
    · omega
    · rcases endsOpen_cons.mp hopen with ⟨rfl, rfl | rfl⟩ | hrest
      · rw [encode_nil, List.length_nil] at h
        obtain rfl : n = 1 := by omega
        rfl
      · rw [encode_fifty hset, List.length_singleton] at h
        obtain rfl : n = 2 := by omega
        rfl
      · -- a `%` further on is too long
        have hthree := hrest.three_le hpct
        omega

/-- **A set with `%`: an encoding that was cut off decodes to the bytes iff nothing is missing, or
the cut goes through the escape of a last `%`, so that what is left of it stands for itself.** -/
theorem decode_take_encode_of_percent (hset : set.KeepsDigits) (hpct : set 37 = true)
    (bs : List UInt8) (n : Nat) :
    decode ((encode set bs).take n) = bs ↔ set.CutReadable bs n := by
  induction bs generalizing n with
  | nil => simp [decode, EncodeSet.CutReadable]
  | cons b bs ih =>
    by_cases hb : set b = true
    · rcases Nat.lt_or_ge n 3 with hn | hn
      · rw [← cutReadable_first hset hpct hb hn, encode_cons, encodeByte_escaped hb]
        match n, hn with
        | 0, _ => rfl
        | 1, _ => rfl
        | 2, _ => rfl
      · obtain ⟨m, rfl⟩ := Nat.exists_eq_add_of_le' hn
        rw [cutReadable_cons hset (by rw [encodeByte_escaped hb]; rfl), encode_cons,
          encodeByte_escaped hb]
        have hcut : decode (List.take (m + 3) ([37, hexDigit (b.toNat / 16),
            hexDigit (b.toNat % 16)] ++ encode set bs)) = b :: decode ((encode set bs).take m) :=
          decode_of_escape (escape_encoded b _)
        rw [hcut, List.cons_inj_right]
        exact ih m
    · have hne : b ≠ 37 := by
        rintro rfl
        exact hb hpct
      have hliteral := encodeByte_literal (Bool.eq_false_iff.mpr hb)
      match n with
      | 0 =>
        have hlength : (encode set (b :: bs)).length = (encode set bs).length + 1 := by
          rw [encode_cons, hliteral]
          rfl
        unfold EncodeSet.CutReadable
        rw [hlength]
        constructor
        · intro h
          cases h
        · rintro (h | ⟨h, hopen⟩)
          · omega
          · rcases endsOpen_cons.mp hopen with ⟨heq, -⟩ | hrest
            · exact absurd heq hne
            · have hthree := hrest.three_le hpct
              omega
      | n + 1 =>
        rw [cutReadable_cons hset (by rw [hliteral]; rfl), encode_cons, hliteral,
          List.singleton_append, List.take_succ_cons, decode_of_literal (escape_eq_none hne _),
          List.cons_inj_right]
        exact ih n

end

/-- **What is left of an encoding decodes to the bytes:** the bytes survive, and nothing was cut off
that is missed. -/
theorem decode_take_encode_iff {set : EncodeSet} (hset : set.KeepsDigits) (bs : List UInt8)
    (n : Nat) :
    decode ((encode set bs).take n) = bs ↔ set.Survives bs ∧
      ((encode set bs).length ≤ n ∨
        set 37 = true ∧ (encode set bs).length = n + 2 ∧ EndsOpen bs) := by
  unfold EncodeSet.Survives
  cases hpct : set 37 with
  | true =>
    rw [decode_take_encode_of_percent hset hpct]
    simp [EncodeSet.CutReadable]
  | false =>
    rw [decode_take_encode_eq_iff ⟨hpct, hset⟩]
    simp [and_comm]

end Percent
