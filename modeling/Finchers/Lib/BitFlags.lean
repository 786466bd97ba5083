import Mathlib.Data.Nat.Bitwise

/-!
# Sets of bit flags

A set of flags is a bit vector that has no bits but those of the mask `all` of declared flags.

* `contains_union`, `contains_inter` — membership of a single flag;
* `advance_flag` — shifting a single flag goes on to the next one, or to the empty set after the
  last one;
* `rank_advance_lt` — shifting ends: every flag leaves the vector at its upper end.
-/

set_option autoImplicit false

/-- A set of the flags in `all`. -/
structure BitFlags {w : Nat} (all : BitVec w) where
  bits : BitVec w
  within : bits &&& all = bits
  deriving DecidableEq, Repr

namespace BitFlags

variable {w : Nat} {all : BitVec w}

theorem ext {a b : BitFlags all} (h : a.bits = b.bits) : a = b := by
  cases a; cases b; cases h; rfl

/-- Drop the bits that are no flags. -/
def fromBitsTruncate (bits : BitVec w) : BitFlags all :=
  ⟨bits &&& all, by rw [BitVec.and_assoc, BitVec.and_self]⟩

def isEmpty (a : BitFlags all) : Bool := a.bits == 0#w

/-- Every flag of `b` is one of `a`. -/
def contains (a b : BitFlags all) : Bool := a.bits &&& b.bits == b.bits

def union (a b : BitFlags all) : BitFlags all :=
  ⟨a.bits ||| b.bits, by rw [BitVec.and_or_distrib_right, a.within, b.within]⟩

def inter (a b : BitFlags all) : BitFlags all :=
  ⟨a.bits &&& b.bits, by rw [BitVec.and_assoc, b.within]⟩

/-- The flags one place further up. -/
def advance (a : BitFlags all) : BitFlags all := fromBitsTruncate (a.bits <<< 1)

@[simp] theorem bits_union (a b : BitFlags all) : (a.union b).bits = a.bits ||| b.bits := rfl

@[simp] theorem bits_inter (a b : BitFlags all) : (a.inter b).bits = a.bits &&& b.bits := rfl

@[simp] theorem bits_advance (a : BitFlags all) : a.advance.bits = a.bits <<< 1 &&& all := rfl

/-! ## Single flags -/

/-- `a` is the flag at bit `i`. -/
def IsFlag (a : BitFlags all) (i : Nat) : Prop := i < w ∧ a.bits = BitVec.twoPow w i

instance (a : BitFlags all) (i : Nat) : Decidable (a.IsFlag i) := inferInstanceAs (Decidable (_ ∧ _))

variable {f g : BitFlags all} {i j : Nat}

theorem IsFlag.getLsbD (h : f.IsFlag i) (k : Nat) : f.bits.getLsbD k = decide (i = k) := by
  rw [h.2, BitVec.getLsbD_twoPow]
  have hlt := h.1
  by_cases hk : i = k
  · subst hk
    simp [hlt]
  · simp [hk]

theorem contains_iff (a : BitFlags all) (h : f.IsFlag i) :
    a.contains f = true ↔ a.bits.getLsbD i = true := by
  rw [contains, beq_iff_eq]
  constructor
  · intro heq
    have hi := congrArg (·.getLsbD i) heq
    simpa [h.getLsbD] using hi
  · intro hi
    apply BitVec.eq_of_getLsbD_eq
    intro k _
    rw [BitVec.getLsbD_and, h.getLsbD]
    by_cases hk : i = k
    · subst hk
      simp [hi]
    · simp [hk]

theorem contains_union (a b : BitFlags all) (h : f.IsFlag i) :
    (a.union b).contains f = (a.contains f || b.contains f) := by
  rw [Bool.eq_iff_iff, Bool.or_eq_true, contains_iff _ h, contains_iff _ h, contains_iff _ h,
    bits_union, BitVec.getLsbD_or, Bool.or_eq_true]

/-- A set cut down to the flag at `i` has no other flag. -/
theorem contains_inter (a : BitFlags all) (hf : f.IsFlag i) (hg : g.IsFlag j) :
    (a.inter f).contains g = (decide (i = j) && a.contains f) := by
  rw [Bool.eq_iff_iff, Bool.and_eq_true, contains_iff _ hg, contains_iff _ hf, bits_inter,
    BitVec.getLsbD_and, hf.getLsbD]
  by_cases hij : i = j
  · subst hij
    simp
  · simp [hij]

theorem contains_flag (hf : f.IsFlag i) (hg : g.IsFlag j) : f.contains g = decide (i = j) := by
  rw [Bool.eq_iff_iff, contains_iff _ hg, hf.getLsbD]

theorem advance_flag (hf : f.IsFlag i) (hg : g.IsFlag (i + 1)) : f.advance = g := by
  apply ext
  apply BitVec.eq_of_getLsbD_eq
  intro k hk
  have hall := congrArg (·.getLsbD k) g.within
  simp only [BitVec.getLsbD_and, hg.getLsbD] at hall
  simp only [bits_advance, BitVec.getLsbD_and, BitVec.getLsbD_shiftLeft, hf.getLsbD, hg.getLsbD]
  by_cases hik : i + 1 = k
  · subst hik
    simp only [decide_true, Bool.true_and] at hall
    simp [hk, hall]
  · have hne : ¬ (¬ k < 1 ∧ i = k - 1) := by omega
    have hno : (!decide (k < 1) && decide (i = k - 1)) = false := by simpa using hne
    rw [Bool.and_assoc (decide (k < w)), hno, Bool.and_false, Bool.false_and, decide_eq_false hik]

theorem IsFlag.not_isEmpty (h : f.IsFlag i) : f.isEmpty = false := by
  rw [isEmpty, beq_eq_false_iff_ne]
  intro heq
  have hi := h.getLsbD i
  rw [heq] at hi
  simp at hi

/-! ## Shifting ends -/

/-- The bits read from the other end: shifting the flags up makes it smaller. -/
def rank (a : BitFlags all) : Nat := a.bits.reverse.toNat

theorem rank_advance_lt {a : BitFlags all} (h : a.advance.isEmpty = false) :
    a.advance.rank < a.rank := by
  have hrev : a.advance.bits.reverse = (a.bits.reverse >>> 1) &&& all.reverse := by
    apply BitVec.eq_of_getLsbD_eq
    intro k hk
    simp only [bits_advance, BitVec.getLsbD_reverse, BitVec.getMsbD_and, BitVec.getLsbD_and,
      BitVec.getLsbD_ushiftRight, BitVec.getMsbD_shiftLeft, Nat.add_comm]
  have hle : a.advance.rank ≤ a.rank / 2 := by
    rw [rank, hrev, BitVec.toNat_and, BitVec.toNat_ushiftRight, Nat.shiftRight_one]
    exact Nat.and_le_left
  have hne : a.rank ≠ 0 := by
    intro h0
    rw [isEmpty, beq_eq_false_iff_ne] at h
    apply h
    have hzero : a.bits.reverse = 0#w := BitVec.eq_of_toNat_eq (by simpa [rank] using h0)
    have hbits : a.bits = 0#w := by
      rw [← BitVec.reverse_reverse_eq (x := a.bits), hzero]
      apply BitVec.eq_of_getLsbD_eq
      intro k _
      simp [BitVec.getLsbD_reverse]
    simp [hbits]
  omega

end BitFlags
