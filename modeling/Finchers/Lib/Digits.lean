import Mathlib.Algebra.GroupWithZero.Nat
import Mathlib.Data.Nat.Basic

/-!
# Numbers of fixed width

The digits of a number in base `b`, as many as wanted and the most significant one first.

* `ofDigits_digits` — **the digits of a number stand for it**, if there are enough of them;
* `lt_of_mem_digits` — a digit is below the base.
-/

set_option autoImplicit false

namespace FixedWidth

/-- The last `k` digits of `n`. -/
def digits (b : Nat) : Nat → Nat → List Nat
  | 0, _ => []
  | k + 1, n => digits b k (n / b) ++ [n % b]

/-- The number that the digits stand for. -/
def ofDigits (b : Nat) (ds : List Nat) : Nat := ds.foldl (fun acc d => b * acc + d) 0

@[simp] theorem length_digits (b k n : Nat) : (digits b k n).length = k := by
  induction k generalizing n with
  | zero => rfl
  | succ k ih => simp [digits, ih]

theorem lt_of_mem_digits {b : Nat} (hb : 0 < b) (k n : Nat) : ∀ d ∈ digits b k n, d < b := by
  induction k generalizing n with
  | zero =>
    intro d hd
    cases hd
  | succ k ih =>
    intro d hd
    rcases List.mem_append.mp hd with hd | hd
    · exact ih (n / b) d hd
    · rw [List.mem_singleton.mp hd]
      exact Nat.mod_lt n hb

theorem ofDigits_append_singleton (b : Nat) (ds : List Nat) (d : Nat) :
    ofDigits b (ds ++ [d]) = b * ofDigits b ds + d := by
  unfold ofDigits
  rw [List.foldl_append]
  rfl

theorem ofDigits_digits {b k n : Nat} (hn : n < b ^ k) : ofDigits b (digits b k n) = n := by
  induction k generalizing n with
  | zero =>
    rw [Nat.pow_zero] at hn
    have hzero : n = 0 := by omega
    rw [hzero]
    rfl
  | succ k ih =>
    have hdiv : n / b < b ^ k := by
      apply Nat.div_lt_of_lt_mul
      rwa [Nat.mul_comm, ← Nat.pow_succ]
    rw [digits, ofDigits_append_singleton, ih hdiv]
    exact Nat.div_add_mod n b

end FixedWidth
