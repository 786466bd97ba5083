import Finchers.Lib.Machine

/-!
# Joined futures

A future is polled again and again until it has a result; here it is given by its answers.  Two futures
are joined into one that waits for both and fails as soon as one of them does.

* `Settles` — the first answer that is not `NotReady`;
* `JoinSpec` — what joining does, poll by poll;
* `JoinSpec.settles_ok`, `settles_error`, `waits_forever` — **what the joined future comes to**, by what
  its sides come to;
* `joined_spec` — a join that keeps the values of its sides does it.
-/

set_option autoImplicit false

namespace Resumable

/-- The answers of a future to its polls, one after the other. -/
abbrev Answers (E T : Type) := Nat → Poll E T

/-- The answers up to `n` are `NotReady`, and then the future has the result `r`. -/
structure Settles {E A : Type} (a : Answers E A) (n : Nat) (r : Except E A) : Prop where
  before : ∀ k, k < n → a k = .ok .notReady
  answer : a n = .ofResult r

variable {E A B : Type} {a : Answers E A} {b : Answers E B} {i j : Nat}

/-- What `Future::join` does: it polls both futures until they are ready, is ready when both are, and
fails as soon as one of them does, the left one first. -/
structure JoinSpec (join : Answers E A → Answers E B → Answers E (A × B)) : Prop where
  waits : ∀ {a b n}, (∀ k e, k ≤ n → ¬ Settles a k (.error e)) →
    (∀ k e, k ≤ n → ¬ Settles b k (.error e)) →
    ((∀ k x, k ≤ n → ¬ Settles a k (.ok x)) ∨ ∀ k y, k ≤ n → ¬ Settles b k (.ok y)) →
    join a b n = .ok .notReady
  ready : ∀ {a b i j x y}, Settles a i (.ok x) → Settles b j (.ok y) →
    join a b (max i j) = .ok (.ready (x, y))
  failsLeft : ∀ {a b i e}, Settles a i (.error e) →
    (∀ j e', Settles b j (.error e') → i ≤ j) → join a b i = .error e
  failsRight : ∀ {a b j e}, Settles b j (.error e) →
    (∀ i e', Settles a i (.error e') → j < i) → join a b j = .error e

/-! ## How futures settle -/

theorem Settles.unique {r r' : Except E A} (h : Settles a i r) (h' : Settles a j r') :
    i = j ∧ r = r' := by
  have hready : ∀ r : Except E A, Poll.ofResult r ≠ .ok .notReady := by
    intro r
    cases r <;> intro hr <;> cases hr
  rcases Nat.lt_trichotomy i j with hlt | rfl | hlt
  · exact absurd (h.answer.symm.trans (h'.before i hlt)) (hready r)
  · refine ⟨rfl, ?_⟩
    have heq := h.answer.symm.trans h'.answer
    cases r <;> cases r' <;> cases heq <;> rfl
  · exact absurd (h'.answer.symm.trans (h.before j hlt)) (hready r')

theorem Settles.not_of_ok {x : A} {e : E} (h : Settles a i (.ok x)) : ¬ Settles a j (.error e) := by
  intro h'
  cases (h.unique h').2

/-- A future waits, or it has settled. -/
theorem waits_or_settles (a : Answers E A) (n : Nat) :
    (∀ k, k ≤ n → a k = .ok .notReady) ∨ ∃ i r, i ≤ n ∧ Settles a i r := by
  have hnext : ∀ n, (∀ k, k < n → a k = .ok .notReady) →
      a n = .ok .notReady ∨ ∃ r, Settles a n r := by
    intro n hbefore
    rcases ha : a n with e | (x | _)
    · exact Or.inr ⟨.error e, hbefore, ha⟩
    · exact Or.inr ⟨.ok x, hbefore, ha⟩
    · exact Or.inl rfl
  induction n with
  | zero =>
    rcases hnext 0 (by omega) with ha | ⟨r, h⟩
    · refine Or.inl fun k hk => ?_
      rw [Nat.le_zero.mp hk, ha]
    · exact Or.inr ⟨0, r, Nat.le_refl 0, h⟩
  | succ n ih =>
    rcases ih with hwaits | ⟨i, r, hi, h⟩
    · rcases hnext (n + 1) (fun k hk => hwaits k (by omega)) with ha | ⟨r, h⟩
      · refine Or.inl fun k hk => ?_
        rcases Nat.lt_or_eq_of_le hk with hlt | rfl
        · exact hwaits k (by omega)
        · exact ha
      · exact Or.inr ⟨n + 1, r, Nat.le_refl _, h⟩
    · exact Or.inr ⟨i, r, by omega, h⟩

/-- The future that has the result `r` after `n` polls. -/
def settling (n : Nat) (r : Except E A) : Answers E A := fun k =>
  if k < n then .ok .notReady else .ofResult r

theorem settles_settling (n : Nat) (r : Except E A) : Settles (settling n r) n r :=
  ⟨fun _ hk => if_pos hk, if_neg (Nat.lt_irrefl n)⟩

/-! ## What a join comes to -/

section

variable {join : Answers E A → Answers E B → Answers E (A × B)}

theorem JoinSpec.settles_ok (hjoin : JoinSpec join) {x : A} {y : B} (ha : Settles a i (.ok x))
    (hb : Settles b j (.ok y)) : Settles (join a b) (max i j) (.ok (x, y)) := by
  refine ⟨fun k hk => ?_, hjoin.ready ha hb⟩
  refine hjoin.waits (fun _ _ _ => ha.not_of_ok) (fun _ _ _ => hb.not_of_ok) ?_
  by_cases hki : k < i
  · refine Or.inl fun k' x' hk' h => ?_
    have := (ha.unique h).1
    omega
  · refine Or.inr fun k' y' hk' h => ?_
    have := (hb.unique h).1
    omega

theorem JoinSpec.settles_left (hjoin : JoinSpec join) {e : E} (ha : Settles a i (.error e))
    (hb : ∀ j e', Settles b j (.error e') → i ≤ j) : Settles (join a b) i (.error e) := by
  refine ⟨fun k hk => ?_, hjoin.failsLeft ha hb⟩
  refine hjoin.waits ?_ ?_ (Or.inl fun _ _ _ h => h.not_of_ok ha)
  · intro k' e' hk' h
    have := (ha.unique h).1
    omega
  · intro k' e' hk' h
    have := hb k' e' h
    omega

theorem JoinSpec.settles_right (hjoin : JoinSpec join) {e : E} (hb : Settles b j (.error e))
    (ha : ∀ i e', Settles a i (.error e') → j < i) : Settles (join a b) j (.error e) := by
  refine ⟨fun k hk => ?_, hjoin.failsRight hb ha⟩
  refine hjoin.waits ?_ ?_ (Or.inr fun _ _ _ h => h.not_of_ok hb)
  · intro k' e' hk' h
    have := ha k' e' h
    omega
  · intro k' e' hk' h
    have := (hb.unique h).1
    omega

/-- If one side fails, then the joined futures fail with the error of a side. -/
theorem JoinSpec.settles_error (hjoin : JoinSpec join)
    (h : (∃ i e, Settles a i (.error e)) ∨ ∃ j e, Settles b j (.error e)) :
    ∃ k e, ((∃ i, Settles a i (.error e)) ∨ ∃ j, Settles b j (.error e)) ∧
      Settles (join a b) k (.error e) := by
  by_cases ha : ∃ i e, Settles a i (.error e)
  · obtain ⟨i, e, ha⟩ := ha
    by_cases hb : ∃ j e', Settles b j (.error e') ∧ j < i
    · obtain ⟨j, e', hb, hji⟩ := hb
      refine ⟨j, e', Or.inr ⟨j, hb⟩, hjoin.settles_right hb fun i' e'' ha' => ?_⟩
      rw [← (ha.unique ha').1]
      exact hji
    · refine ⟨i, e, Or.inl ⟨i, ha⟩, hjoin.settles_left ha fun j e' hb' => ?_⟩
      exact Nat.le_of_not_lt fun hji => hb ⟨j, e', hb', hji⟩
  · obtain ⟨j, e, hb⟩ := h.resolve_left ha
    exact ⟨j, e, Or.inr ⟨j, hb⟩, hjoin.settles_right hb fun i e' ha' => absurd ⟨i, e', ha'⟩ ha⟩

theorem JoinSpec.waits_forever (hjoin : JoinSpec join) (ha : ∀ i e, ¬ Settles a i (.error e))
    (hb : ∀ j e, ¬ Settles b j (.error e))
    (h : (∀ n, a n = .ok .notReady) ∨ ∀ n, b n = .ok .notReady) (n : Nat) :
    join a b n = .ok .notReady := by
  refine hjoin.waits (fun k e _ => ha k e) (fun k e _ => hb k e) ?_
  rcases h with h | h
  · exact Or.inl fun k x _ hs => absurd ((h k).symm.trans hs.answer) (by intro heq; cases heq)
  · exact Or.inr fun k y _ hs => absurd ((h k).symm.trans hs.answer) (by intro heq; cases heq)

end

/-! ## A join -/

/-- The value that a side holds once it has been polled `n` times. -/
def held (a : Answers E A) : Nat → Option A
  | 0 => none
  | n + 1 =>
    match held a n, a n with
    | some x, _ => some x
    | none, .ok (.ready x) => some x
    | none, _ => none

/-- The poll `n` of a side: it is not polled any more when it has its value. -/
def pollSide (a : Answers E A) (n : Nat) : Except E (Option A) :=
  match held a n, a n with
  | some x, _ => .ok (some x)
  | none, .ok (.ready x) => .ok (some x)
  | none, .ok .notReady => .ok none
  | none, .error e => .error e

/-- The poll `n` of both sides. -/
def joined (a : Answers E A) (b : Answers E B) : Answers E (A × B) := fun n =>
  match pollSide a n, pollSide b n with
  | .error e, _ => .error e
  | .ok _, .error e => .error e
  | .ok (some x), .ok (some y) => .ok (.ready (x, y))
  | .ok _, .ok _ => .ok .notReady

theorem held_waiting {n : Nat} (h : ∀ k, k < n → a k = .ok .notReady) : held a n = none := by
  induction n with
  | zero => rfl
  | succ n ih => simp only [held, ih fun k hk => h k (by omega), h n (Nat.lt_succ_self n)]

theorem held_settled {x : A} (h : Settles a i (.ok x)) {n : Nat} (hn : i < n) : held a n = some x := by
  induction n with
  | zero => omega
  | succ n ih =>
    rcases Nat.lt_or_eq_of_le (Nat.le_of_lt_succ hn) with hlt | rfl
    · simp only [held, ih hlt]
    · simp only [held, held_waiting h.before, h.answer, Poll.ofResult]

theorem pollSide_waiting {n : Nat} (h : ∀ k, k ≤ n → a k = .ok .notReady) :
    pollSide a n = .ok none := by
  simp only [pollSide, held_waiting fun k hk => h k (Nat.le_of_lt hk), h n (Nat.le_refl n)]

theorem pollSide_settled {x : A} (h : Settles a i (.ok x)) {n : Nat} (hn : i ≤ n) :
    pollSide a n = .ok (some x) := by
  rcases Nat.lt_or_eq_of_le hn with hlt | rfl
  · simp only [pollSide, held_settled h hlt]
  · simp only [pollSide, held_waiting h.before, h.answer, Poll.ofResult]

theorem pollSide_failed {e : E} (h : Settles a i (.error e)) : pollSide a i = .error e := by
  simp only [pollSide, held_waiting h.before, h.answer, Poll.ofResult]

/-- A side that has not failed waits or has its value. -/
theorem pollSide_of_not_failed {n : Nat} (h : ∀ k e, k ≤ n → ¬ Settles a k (.error e)) :
    pollSide a n = .ok none ∨ ∃ k x, k ≤ n ∧ Settles a k (.ok x) ∧ pollSide a n = .ok (some x) := by
  rcases waits_or_settles a n with hwaits | ⟨k, e | x, hk, hs⟩
  · exact Or.inl (pollSide_waiting hwaits)
  · exact absurd hs (h k e hk)
  · exact Or.inr ⟨k, x, hk, hs, pollSide_settled hs hk⟩

theorem joined_spec : JoinSpec (joined : Answers E A → Answers E B → Answers E (A × B)) where
  waits := by
    intro a b n ha hb hwaits
    rcases pollSide_of_not_failed ha with hx | ⟨i, x, hi, hs, hx⟩
    · rcases pollSide_of_not_failed hb with hy | ⟨j, y, -, -, hy⟩ <;> simp only [joined, hx, hy]
    · rcases pollSide_of_not_failed hb with hy | ⟨j, y, hj, hs', hy⟩
      · simp only [joined, hx, hy]
      · rcases hwaits with h | h
        · exact absurd hs (h i x hi)
        · exact absurd hs' (h j y hj)
  ready := by
    intro a b i j x y ha hb
    simp only [joined, pollSide_settled ha (Nat.le_max_left i j),
      pollSide_settled hb (Nat.le_max_right i j)]
  failsLeft := by
    intro a b i e ha _
    simp only [joined, pollSide_failed ha]
  failsRight := by
    intro a b j e hb ha
    have hno : ∀ k e', k ≤ j → ¬ Settles a k (.error e') := by
      intro k e' hk h
      have := ha k e' h
      omega
    rcases pollSide_of_not_failed hno with hx | ⟨-, x, -, -, hx⟩
    · simp only [joined, hx, pollSide_failed hb]
    · simp only [joined, hx, pollSide_failed hb]

end Resumable
