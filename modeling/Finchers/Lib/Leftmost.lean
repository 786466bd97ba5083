import Mathlib.Order.Lattice
import Mathlib.Data.List.Basic

/-!
# The leftmost maximum of a list with gaps

A list of options holds the scores of some candidates; `none` stands for a candidate that is
out of the running.

* `IsLeftmostMax.unique` — there is at most one leftmost candidate of maximal score;
* `IsLeftmostMax.append_left`, `IsLeftmostMax.append_right` — the leftmost maximum of a
  concatenation is the one of the first part, unless the second part has a greater one.
-/

set_option autoImplicit false

namespace Leftmost

variable {α : Type}

/-- No candidate is left. -/
def Exhausted (l : List (Option α)) : Prop := ∀ x ∈ l, x = none

theorem Exhausted.not_score {l : List (Option α)} (h : Exhausted l) {j : Nat} {m : α} :
    ¬ l[j]? = some (some m) := by
  intro hj
  exact absurd (h _ (List.mem_of_getElem? hj)) (by simp)

/-- A score of a concatenation is one of the two parts. -/
theorem getElem?_append_cases {l l' : List (Option α)} {j : Nat} {m : α}
    (h : (l ++ l')[j]? = some (some m)) :
    l[j]? = some (some m) ∨ l.length ≤ j ∧ l'[j - l.length]? = some (some m) := by
  rcases Nat.lt_or_ge j l.length with hj | hj
  · rw [List.getElem?_append_left hj] at h
    exact Or.inl h
  · rw [List.getElem?_append_right hj] at h
    exact Or.inr ⟨hj, h⟩

variable [LinearOrder α]

/-- Candidate `i` has the score `k`, no candidate has more, and none before it has as much. -/
structure IsLeftmostMax (l : List (Option α)) (i : Nat) (k : α) : Prop where
  score : l[i]? = some (some k)
  le : ∀ {j : Nat} {m : α}, l[j]? = some (some m) → m ≤ k
  lt : ∀ {j : Nat} {m : α}, l[j]? = some (some m) → j < i → m < k

theorem IsLeftmostMax.unique {l : List (Option α)} {i j : Nat} {k m : α}
    (hi : IsLeftmostMax l i k) (hj : IsLeftmostMax l j m) : i = j ∧ k = m := by
  have hkm : k = m := le_antisymm (hj.le hi.score) (hi.le hj.score)
  subst hkm
  refine ⟨?_, rfl⟩
  rcases Nat.lt_trichotomy i j with h | h | h
  · exact absurd (hj.lt hi.score h) (lt_irrefl k)
  · exact h
  · exact absurd (hi.lt hj.score h) (lt_irrefl k)

theorem Exhausted.not_isLeftmostMax {l : List (Option α)} (h : Exhausted l) {i : Nat} {k : α} :
    ¬ IsLeftmostMax l i k := by
  intro hi
  exact h.not_score hi.score

theorem isLeftmostMax_singleton (k : α) : IsLeftmostMax [some k] 0 k where
  score := rfl
  le {j m} h := by
    have hmem := List.mem_of_getElem? h
    rw [List.mem_singleton, Option.some.injEq] at hmem
    exact le_of_eq hmem
  lt _ hj := absurd hj (Nat.not_lt_zero _)

/-- The first part wins if nothing in the second part is greater. -/
theorem IsLeftmostMax.append_left {l l' : List (Option α)} {i : Nat} {k : α}
    (h : IsLeftmostMax l i k) (h' : ∀ {j : Nat} {m : α}, l'[j]? = some (some m) → m ≤ k) :
    IsLeftmostMax (l ++ l') i k := by
  have hi : i < l.length := (List.getElem?_eq_some_iff.mp h.score).1
  refine ⟨?_, fun {j m} hj => ?_, fun {j m} hj hlt => ?_⟩
  · rw [List.getElem?_append_left hi]
    exact h.score
  · rcases getElem?_append_cases hj with hj | ⟨-, hj⟩
    · exact h.le hj
    · exact h' hj
  · rw [List.getElem?_append_left (by omega)] at hj
    exact h.lt hj hlt

/-- The second part wins if everything in the first part is smaller. -/
theorem IsLeftmostMax.append_right {l l' : List (Option α)} {i : Nat} {k : α}
    (h : IsLeftmostMax l' i k) (h' : ∀ {j : Nat} {m : α}, l[j]? = some (some m) → m < k) :
    IsLeftmostMax (l ++ l') (l.length + i) k := by
  refine ⟨?_, fun {j m} hj => ?_, fun {j m} hj hlt => ?_⟩
  · rw [List.getElem?_append_right (by omega), Nat.add_sub_cancel_left]
    exact h.score
  · rcases getElem?_append_cases hj with hj | ⟨-, hj⟩
    · exact le_of_lt (h' hj)
    · exact h.le hj
  · rcases getElem?_append_cases hj with hj | ⟨hle, hj⟩
    · exact h' hj
    · exact h.lt hj (by omega)

end Leftmost
