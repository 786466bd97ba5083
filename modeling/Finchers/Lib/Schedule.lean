import Mathlib.Data.List.Basic

/-!
# Endless schedules

A system whose steps are always possible, run along an endless schedule.

* `invariant` — what holds at the start and is preserved by every step holds always;
* `Often` — a step that is scheduled again and again;
* `eventually_zero` — **a measure reaches zero**, if no step increases it, and in each state some step
  that is scheduled again and again decreases it and stays the one to wait for until something does.
-/

set_option autoImplicit false

namespace Schedule

variable {S A : Type} {step : S → A → S} {s : S} {sched : Nat → A}

/-- The states of the run. -/
def states (step : S → A → S) (s : S) (sched : Nat → A) : Nat → S
  | 0 => s
  | n + 1 => step (states step s sched n) (sched n)

theorem invariant {I : S → Prop} (hs : I s) (hstep : ∀ {s a}, I s → I (step s a)) (n : Nat) :
    I (states step s sched n) := by
  induction n with
  | zero => exact hs
  | succ n ih => exact hstep ih

/-- The step is scheduled again and again. -/
def Often (sched : Nat → A) (a : A) : Prop := ∀ n, ∃ m, n ≤ m ∧ sched m = a

section

variable {I : S → Prop} (size : S → Nat) (helpful : S → A)

/-- Until the helpful step is taken, the measure goes down or the same step remains helpful. -/
theorem decreases_within (hI : ∀ n, I (states step s sched n))
    (hstay : ∀ {s a}, I s → 0 < size s →
      size (step s a) < size s ∨ (size (step s a) = size s ∧ helpful (step s a) = helpful s))
    (hhelp : ∀ {s}, I s → 0 < size s → size (step s (helpful s)) < size s) {n d : Nat}
    (hpos : 0 < size (states step s sched n))
    (hd : sched (n + d) = helpful (states step s sched n)) :
    ∃ m, size (states step s sched m) < size (states step s sched n) := by
  induction d generalizing n with
  | zero =>
    refine ⟨n + 1, ?_⟩
    show size (step (states step s sched n) (sched n)) < _
    rw [show sched n = helpful (states step s sched n) from hd]
    exact hhelp (hI n) hpos
  | succ d ih =>
    rcases hstay (a := sched n) (hI n) hpos with hlt | ⟨heq, hsame⟩
    · exact ⟨n + 1, hlt⟩
    · have heq : size (states step s sched (n + 1)) = size (states step s sched n) := heq
      have hnext : sched (n + 1 + d) = helpful (states step s sched (n + 1)) := by
        have hindex : n + 1 + d = n + (d + 1) := by omega
        rw [hindex, hd]
        exact hsame.symm
      obtain ⟨m, hm⟩ := ih (heq ▸ hpos) hnext
      exact ⟨m, by omega⟩

theorem eventually_zero (hI : ∀ n, I (states step s sched n))
    (hstay : ∀ {s a}, I s → 0 < size s →
      size (step s a) < size s ∨ (size (step s a) = size s ∧ helpful (step s a) = helpful s))
    (hhelp : ∀ {s}, I s → 0 < size s → size (step s (helpful s)) < size s)
    (hoften : ∀ {s}, I s → 0 < size s → Often sched (helpful s)) :
    ∃ n, size (states step s sched n) = 0 := by
  have hbelow : ∀ k n, size (states step s sched n) ≤ k → ∃ m, size (states step s sched m) = 0 := by
    intro k
    induction k with
    | zero => exact fun n hn => ⟨n, by omega⟩
    | succ k ih =>
      intro n hn
      by_cases hzero : size (states step s sched n) = 0
      · exact ⟨n, hzero⟩
      · have hpos : 0 < size (states step s sched n) := by omega
        obtain ⟨m, hnm, hm⟩ := hoften (hI n) hpos n
        obtain ⟨d, rfl⟩ := Nat.exists_eq_add_of_le hnm
        obtain ⟨m', hlt⟩ := decreases_within size helpful hI hstay hhelp hpos hm
        exact ih m' (by omega)
  exact hbelow _ 0 (Nat.le_refl _)

end

end Schedule
