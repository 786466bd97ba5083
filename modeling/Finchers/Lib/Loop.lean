import Mathlib.Data.List.Basic

/-!
# Loops with an early return

A loop over a list whose body works on a state and may return an error: the error ends the loop,
and what the body has done to the state by then stays done.

* `forEach_ok_iff` — when a loop runs to its end;
* `forEach_holds` — what the state has then: what the body puts into it for each element;
* `forEach_eq_ok_iff` — the state then, if the body reads each element and takes a step with it.
-/

set_option autoImplicit false

namespace Loop

variable {α S E N : Type}

/-- A `for` loop whose body may return an error; what it has done to the state stays done. -/
def forEach (body : α → S → Except E Unit × S) : List α → S → Except E Unit × S
  | [], s => (.ok (), s)
  | a :: as, s =>
    match body a s with
    | (.error e, s) => (.error e, s)
    | (.ok (), s) => forEach body as s

variable {body : α → S → Except E Unit × S}

/-- A loop runs to its end iff its body does for each element. -/
theorem forEach_ok_iff {Good : α → Prop} (hbody : ∀ a s, (body a s).1 = .ok () ↔ Good a)
    (as : List α) (s : S) : (forEach body as s).1 = .ok () ↔ ∀ a ∈ as, Good a := by
  induction as generalizing s with
  | nil => exact ⟨fun _ a ha => (by cases ha), fun _ => rfl⟩
  | cons a as ih =>
    rw [List.forall_mem_cons, ← hbody a s, forEach]
    rcases body a s with ⟨e | ⟨⟩, s'⟩
    · constructor
      · intro h
        cases h
      · rintro ⟨h, -⟩
        cases h
    · rw [ih s']
      constructor
      · intro h
        exact ⟨rfl, h⟩
      · intro h
        exact h.2

/-- When a loop runs to its end, the state has what it had before and what the body puts into it
for each element. -/
theorem forEach_holds {Has : S → N → Prop} {Puts : α → N → Prop}
    (hbody : ∀ a s s', body a s = (.ok (), s') → ∀ n, Has s' n ↔ Has s n ∨ Puts a n)
    {as : List α} {s s' : S} (h : forEach body as s = (.ok (), s')) (n : N) :
    Has s' n ↔ Has s n ∨ ∃ a ∈ as, Puts a n := by
  induction as generalizing s with
  | nil =>
    cases h
    simp
  | cons a as ih =>
    rw [forEach] at h
    rcases hb : body a s with ⟨e | ⟨⟩, s₁⟩
    · rw [hb] at h
      cases h
    · rw [hb] at h
      rw [ih h, hbody a s s₁ hb n, List.exists_mem_cons_iff, or_assoc]

/-- When a loop runs to its end whose body reads each element and takes a step with what it has read. -/
theorem forEach_eq_ok_iff {X : Type} {Reads : α → X → Prop} {step : S → X → S}
    (hbody : ∀ a s s', body a s = (.ok (), s') ↔ ∃ x, Reads a x ∧ s' = step s x) {as : List α}
    {s s' : S} : forEach body as s = (.ok (), s') ↔
      ∃ xs, List.Forall₂ Reads as xs ∧ s' = xs.foldl step s := by
  induction as generalizing s with
  | nil =>
    constructor
    · intro h
      cases h
      exact ⟨[], .nil, rfl⟩
    · intro h
      obtain ⟨xs, hxs, rfl⟩ := h
      cases hxs
      rfl
  | cons a as ih =>
    rw [forEach]
    constructor
    · intro h
      rcases hb : body a s with ⟨e | ⟨⟩, s₁⟩
      · rw [hb] at h
        cases h
      · rw [hb] at h
        obtain ⟨x, hx, rfl⟩ := (hbody a s s₁).mp hb
        obtain ⟨xs, hxs, rfl⟩ := ih.mp h
        exact ⟨x :: xs, .cons hx hxs, rfl⟩
    · intro h
      obtain ⟨_, hxs, rfl⟩ := h
      cases hxs with
      | @cons _ x _ xs hx hxs =>
        rw [(hbody a s _).mpr ⟨x, hx, rfl⟩]
        exact ih.mpr ⟨xs, hxs, rfl⟩

end Loop
