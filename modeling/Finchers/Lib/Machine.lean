import Finchers.Lib.Traced

/-!
# Machines that are polled to completion

A machine with states `σ` is polled in a world `W`: each poll returns a value, an error or
`notReady`, and a machine that was not ready is polled again, from the state it left; in the
meantime `tick` happens to the world.  `Finishes tick poll t l r s w` says that the outcome `t` of a
poll, followed by as many further polls as it takes, ends with the result `r`, in state `s` and
world `w`, and that `l` was recorded on the way.  There is no rule for a machine that panics or
that stays not ready for ever.

* `Finishes.det` — a machine finishes in at most one way;
* `completes_seqPoll` — **sequencing**: a machine that polls another one until that has its
  result, and then continues in the same poll, finishes exactly if the other one does and the
  continuation does;
* `completes_mapLog`, `finishes_pack` — renaming events; keeping a part of the world in the state;
* `liftPoll` — a machine that passes every poll on.
-/

set_option autoImplicit false

namespace Resumable

/-- A value that is there, or not yet. -/
inductive Async (T : Type) where
  | ready (x : T)
  | notReady
  deriving DecidableEq, Repr

/-- The answer of a poll: an error, a value, or not ready yet. -/
abbrev Poll (E T : Type) := Except E (Async T)

/-- Rewrite the value of a ready poll. -/
def Poll.map {E T U : Type} (f : T → U) : Poll E T → Poll E U
  | .ok (.ready x) => .ok (.ready (f x))
  | .ok .notReady => .ok .notReady
  | .error e => .error e

/-- Rewrite the error of a failed poll. -/
def Poll.mapErr {E T : Type} (f : E → E) : Poll E T → Poll E T
  | .error e => .error (f e)
  | r => r

/-- The answer that has the result `r`. -/
def Poll.ofResult {E T : Type} : Except E T → Poll E T
  | .ok x => .ok (.ready x)
  | .error e => .error e

theorem Poll.map_ofResult {E T U : Type} (f : T → U) (x : Except E T) :
    Poll.map f (.ofResult x) = .ofResult (x.map f) := by
  cases x <;> rfl

theorem Poll.mapErr_ofResult {E T : Type} (f : E → E) (x : Except E T) :
    Poll.mapErr f (.ofResult x) = .ofResult (x.mapError f) := by
  cases x <;> rfl

theorem Poll.map_eq_notReady {E T U : Type} {f : T → U} {r : Poll E T}
    (h : r.map f = .ok .notReady) : r = .ok .notReady := by
  match r with
  | .ok .notReady => rfl
  | .ok (.ready x) => cases h
  | .error e => cases h

theorem Poll.mapErr_eq_notReady {E T : Type} {f : E → E} {r : Poll E T}
    (h : r.mapErr f = .ok .notReady) : r = .ok .notReady := by
  match r with
  | .ok .notReady => rfl
  | .ok (.ready x) => cases h
  | .error e => cases h

/-- One poll of a machine, in a world. -/
abbrev PollFn (P Ev E σ W T : Type) := σ → W → Traced P Ev (Poll E T × σ × W)

variable {P Ev Ev' E F σ μ W V T U : Type} {tick : W → W}

/-- The outcome of a poll, driven on to a result. -/
inductive Finishes (tick : W → W) (poll : PollFn P Ev E σ W T) :
    Traced P Ev (Poll E T × σ × W) → List Ev → Except E T → σ → W → Prop where
  | ready {l : List Ev} {x : T} {s : σ} {w : W} :
      Finishes tick poll ⟨l, .ok (.ok (.ready x), s, w)⟩ l (.ok x) s w
  | err {l : List Ev} {e : E} {s : σ} {w : W} :
      Finishes tick poll ⟨l, .ok (.error e, s, w)⟩ l (.error e) s w
  | notReady {l l' : List Ev} {r : Except E T} {s s' : σ} {w w' : W} :
      Finishes tick poll (poll s (tick w)) l' r s' w' →
      Finishes tick poll ⟨l, .ok (.ok .notReady, s, w)⟩ (l ++ l') r s' w'

/-- Poll from `s` in `w` until there is a result. -/
def Completes (tick : W → W) (poll : PollFn P Ev E σ W T) (s : σ) (w : W) (l : List Ev)
    (r : Except E T) (s' : σ) (w' : W) : Prop :=
  Finishes tick poll (poll s w) l r s' w'

section

variable {poll : PollFn P Ev E σ W T} {l l' : List Ev} {r : Except E T} {s s' : σ} {w w' : W}

theorem finishes_ready_iff {x : T} :
    Finishes tick poll ⟨l, .ok (.ok (.ready x), s, w)⟩ l' r s' w' ↔
      l' = l ∧ r = .ok x ∧ s' = s ∧ w' = w := by
  refine ⟨fun h => ?_, fun h => ?_⟩
  · cases h
    exact ⟨rfl, rfl, rfl, rfl⟩
  · obtain ⟨rfl, rfl, rfl, rfl⟩ := h
    exact .ready

theorem finishes_err_iff {e : E} :
    Finishes tick poll ⟨l, .ok (.error e, s, w)⟩ l' r s' w' ↔
      l' = l ∧ r = .error e ∧ s' = s ∧ w' = w := by
  refine ⟨fun h => ?_, fun h => ?_⟩
  · cases h
    exact ⟨rfl, rfl, rfl, rfl⟩
  · obtain ⟨rfl, rfl, rfl, rfl⟩ := h
    exact .err

theorem finishes_notReady_iff :
    Finishes tick poll ⟨l, .ok (.ok .notReady, s, w)⟩ l' r s' w' ↔
      ∃ l₁, Completes tick poll s (tick w) l₁ r s' w' ∧ l' = l ++ l₁ := by
  refine ⟨fun h => ?_, fun h => ?_⟩
  · cases h with
    | notReady h => exact ⟨_, h, rfl⟩
  · obtain ⟨l₁, h, rfl⟩ := h
    exact .notReady h

/-- A machine that panics has no result. -/
theorem not_finishes_panic {p : P} : ¬ Finishes tick poll ⟨l, .error p⟩ l' r s' w' := by
  intro h
  cases h

/-- A machine finishes in at most one way. -/
theorem Finishes.det {t : Traced P Ev (Poll E T × σ × W)} {l₁ l₂ : List Ev} {r₁ r₂ : Except E T}
    {s₁ s₂ : σ} {w₁ w₂ : W} (h₁ : Finishes tick poll t l₁ r₁ s₁ w₁)
    (h₂ : Finishes tick poll t l₂ r₂ s₂ w₂) : l₁ = l₂ ∧ r₁ = r₂ ∧ s₁ = s₂ ∧ w₁ = w₂ := by
  induction h₁ generalizing l₂ with
  | ready =>
    obtain ⟨rfl, rfl, rfl, rfl⟩ := finishes_ready_iff.mp h₂
    exact ⟨rfl, rfl, rfl, rfl⟩
  | err =>
    obtain ⟨rfl, rfl, rfl, rfl⟩ := finishes_err_iff.mp h₂
    exact ⟨rfl, rfl, rfl, rfl⟩
  | notReady _ ih =>
    obtain ⟨l, h, rfl⟩ := finishes_notReady_iff.mp h₂
    obtain ⟨rfl, rfl, rfl, rfl⟩ := ih h
    exact ⟨rfl, rfl, rfl, rfl⟩

/-- Events recorded before the outcome only extend the log. -/
theorem finishes_prepend {t : Traced P Ev (Poll E T × σ × W)} {l₀ : List Ev} :
    Finishes tick poll (t.prepend l₀) l r s w ↔
      ∃ l', Finishes tick poll t l' r s w ∧ l = l₀ ++ l' := by
  obtain ⟨lt, res⟩ := t
  rw [Traced.prepend_mk]
  match res with
  | .error p => simp [not_finishes_panic]
  | .ok (.ok (.ready x), s₀, w₀) => simp [finishes_ready_iff]; grind
  | .ok (.error e, s₀, w₀) => simp [finishes_err_iff]; grind
  | .ok (.ok .notReady, s₀, w₀) =>
    simp only [finishes_notReady_iff, List.append_assoc]
    refine ⟨fun h => ?_, fun h => ?_⟩
    · obtain ⟨l₁, h, rfl⟩ := h
      exact ⟨lt ++ l₁, ⟨l₁, h, rfl⟩, rfl⟩
    · obtain ⟨_, ⟨l₁, h, rfl⟩, rfl⟩ := h
      exact ⟨l₁, h, rfl⟩

end

/-! ## Sequencing -/

/-- Poll a first machine; as soon as it has its result, go on with `k` in the same poll.  While
it is not ready, the states of the whole are those of the first machine under `i`. -/
def seqPoll (i : σ → μ) (k : Except E T → σ → W → Traced P Ev (Poll F U × μ × W))
    (t : Traced P Ev (Poll E T × σ × W)) : Traced P Ev (Poll F U × μ × W) := do
  let (r, s, w) ← t
  match r with
  | .ok .notReady => return (.ok .notReady, i s, w)
  | .ok (.ready x) => k (.ok x) s w
  | .error e => k (.error e) s w

section

variable {A : PollFn P Ev E σ W T} {M : PollFn P Ev F μ W U} {i : σ → μ}
  {k : Except E T → σ → W → Traced P Ev (Poll F U × μ × W)}

theorem finishes_of_seqPoll (hM : ∀ s w, M (i s) w = seqPoll i k (A s w))
    {t' : Traced P Ev (Poll F U × μ × W)} {l : List Ev} {r : Except F U} {m : μ} {w : W}
    (h : Finishes tick M t' l r m w) :
    ∀ t, t' = seqPoll i k t → ∃ l₁ x s₁ w₁ l₂, Finishes tick A t l₁ x s₁ w₁ ∧
      Finishes tick M (k x s₁ w₁) l₂ r m w ∧ l = l₁ ++ l₂ := by
  have direct : ∀ lt x s₁ w₁ {t : Traced P Ev (Poll F U × μ × W)} {l r m w},
      Finishes tick M t l r m w → t = (k x s₁ w₁).prepend lt →
        ∃ l₂, Finishes tick M (k x s₁ w₁) l₂ r m w ∧ l = lt ++ l₂ := by
    intro lt x s₁ w₁ t l r m w h ht
    subst ht
    exact finishes_prepend.mp h
  induction h with
  | ready | err =>
    intro t ht
    obtain ⟨lt, res⟩ := t
    match res with
    | .error p => cases ht
    | .ok (.ok .notReady, s₀, w₀) => cases ht
    | .ok (.ok (.ready x), s₀, w₀) =>
      obtain ⟨l₂, h₂, hl⟩ := direct lt (.ok x) s₀ w₀ (by constructor) ht
      exact ⟨lt, .ok x, s₀, w₀, l₂, .ready, h₂, hl⟩
    | .ok (.error e, s₀, w₀) =>
      obtain ⟨l₂, h₂, hl⟩ := direct lt (.error e) s₀ w₀ (by constructor) ht
      exact ⟨lt, .error e, s₀, w₀, l₂, .err, h₂, hl⟩
  | @notReady l₀ l' r s s' w w' hn ih =>
    intro t ht
    obtain ⟨lt, res⟩ := t
    match res with
    | .error p => cases ht
    | .ok (.ok .notReady, s₀, w₀) =>
      simp only [seqPoll, Traced.mk_ok_bind, Traced.pure_def, Traced.prepend_mk,
        List.append_nil, Traced.mk.injEq, Except.ok.injEq, Prod.mk.injEq, true_and] at ht
      obtain ⟨rfl, rfl, rfl⟩ := ht
      obtain ⟨l₁, x, s₁, w₁, l₂, h₁, h₂, rfl⟩ := ih (A s₀ (tick w)) (hM s₀ (tick w))
      exact ⟨l₀ ++ l₁, x, s₁, w₁, l₂, .notReady h₁, h₂, by simp⟩
    | .ok (.ok (.ready x), s₀, w₀) =>
      obtain ⟨l₂, h₂, hl⟩ := direct lt (.ok x) s₀ w₀ (.notReady hn) ht
      exact ⟨lt, .ok x, s₀, w₀, l₂, .ready, h₂, hl⟩
    | .ok (.error e, s₀, w₀) =>
      obtain ⟨l₂, h₂, hl⟩ := direct lt (.error e) s₀ w₀ (.notReady hn) ht
      exact ⟨lt, .error e, s₀, w₀, l₂, .err, h₂, hl⟩

theorem seqPoll_of_finishes (hM : ∀ s w, M (i s) w = seqPoll i k (A s w))
    {t : Traced P Ev (Poll E T × σ × W)} {l₁ l₂ : List Ev} {x : Except E T} {s₁ : σ} {w₁ : W}
    {r : Except F U} {m : μ} {w : W} (h₁ : Finishes tick A t l₁ x s₁ w₁)
    (h₂ : Finishes tick M (k x s₁ w₁) l₂ r m w) :
    Finishes tick M (seqPoll i k t) (l₁ ++ l₂) r m w := by
  induction h₁ with
  | ready | err => exact finishes_prepend.mpr ⟨l₂, h₂, rfl⟩
  | @notReady l₀ l' _ s _ _ _ _ ih =>
    have h := ih h₂
    rw [← hM] at h
    simp only [seqPoll, Traced.mk_ok_bind, Traced.pure_def, Traced.prepend_mk, List.append_nil,
      List.append_assoc]
    exact .notReady h

/-- **Sequencing.**  A machine that polls `A` until it has its result and then continues with
`k` in the same poll finishes exactly if `A` does and the continuation does. -/
theorem completes_seqPoll (hM : ∀ s w, M (i s) w = seqPoll i k (A s w)) {s : σ} {w : W}
    {l : List Ev} {r : Except F U} {m : μ} {w' : W} :
    Completes tick M (i s) w l r m w' ↔ ∃ l₁ x s₁ w₁ l₂, Completes tick A s w l₁ x s₁ w₁ ∧
      Finishes tick M (k x s₁ w₁) l₂ r m w' ∧ l = l₁ ++ l₂ := by
  unfold Completes
  refine ⟨fun h => finishes_of_seqPoll hM h (A s w) (hM s w), fun h => ?_⟩
  obtain ⟨l₁, x, s₁, w₁, l₂, h₁, h₂, rfl⟩ := h
  rw [hM]
  exact seqPoll_of_finishes hM h₁ h₂

end

/-! ## Renaming events, and keeping a part of the world in the state -/

theorem finishes_mapLog {A : PollFn P Ev E σ W T} {g : Ev → Ev'}
    {t : Traced P Ev (Poll E T × σ × W)} {l : List Ev} {r : Except E T} {s : σ} {w : W}
    (h : Finishes tick A t l r s w) :
    Finishes tick (fun s w => (A s w).mapLog g) (t.mapLog g) (l.map g) r s w := by
  induction h with
  | ready => exact .ready
  | err => exact .err
  | notReady _ ih =>
    rw [List.map_append]
    exact .notReady ih

theorem finishes_of_mapLog {A : PollFn P Ev E σ W T} {g : Ev → Ev'}
    {t' : Traced P Ev' (Poll E T × σ × W)} {l' : List Ev'} {r : Except E T} {s : σ} {w : W}
    (h : Finishes tick (fun s w => (A s w).mapLog g) t' l' r s w) :
    ∀ t, t' = t.mapLog g → ∃ l, Finishes tick A t l r s w ∧ l' = l.map g := by
  induction h with
  | ready =>
    intro t ht
    obtain ⟨lt, hl⟩ := t
    cases ht
    exact ⟨lt, .ready, rfl⟩
  | err =>
    intro t ht
    obtain ⟨lt, hl⟩ := t
    cases ht
    exact ⟨lt, .err, rfl⟩
  | notReady _ ih =>
    intro t ht
    obtain ⟨lt, hl⟩ := t
    cases ht
    obtain ⟨l, h, rfl⟩ := ih _ rfl
    exact ⟨lt ++ l, .notReady h, by rw [List.map_append]⟩

/-- Renaming the events of a machine renames those of its runs. -/
theorem completes_mapLog {A : PollFn P Ev E σ W T} {g : Ev → Ev'} {s s' : σ} {w w' : W}
    {l' : List Ev'} {r : Except E T} :
    Completes tick (fun s w => (A s w).mapLog g) s w l' r s' w' ↔
      ∃ l, Completes tick A s w l r s' w' ∧ l' = l.map g := by
  refine ⟨fun h => finishes_of_mapLog h _ rfl, fun h => ?_⟩
  obtain ⟨l, h, rfl⟩ := h
  exact finishes_mapLog h

/-- The outcome of a poll with a part of its world moved into the state. -/
def packPoll (pack : σ → W → μ × V) (t : Traced P Ev (Poll E T × σ × W)) :
    Traced P Ev (Poll E T × μ × V) := do
  let (r, s, w) ← t
  return (r, pack s w)

/-- A machine that keeps a part of the world of another one in its state runs as the other one. -/
theorem finishes_pack {tick' : V → V} {A : PollFn P Ev E σ W T} {M : PollFn P Ev E μ V T}
    (pack : σ → W → μ × V)
    (hM : ∀ s w, M (pack s w).1 (tick' (pack s w).2) = packPoll pack (A s (tick w)))
    {t : Traced P Ev (Poll E T × σ × W)} {l : List Ev} {r : Except E T} {m : μ} {v : V} :
    Finishes tick' M (packPoll pack t) l r m v ↔
      ∃ s w, Finishes tick A t l r s w ∧ (m, v) = pack s w := by
  refine ⟨fun h => ?_, fun h => ?_⟩
  · generalize ht : packPoll pack t = t' at h
    induction h generalizing t with
    | @ready l x m v =>
      obtain ⟨lt, res⟩ := t
      match res with
      | .error p => cases ht
      | .ok (r₀, s₀, w₀) =>
        simp only [packPoll, Traced.mk_ok_bind, Traced.pure_def, Traced.prepend_mk,
          List.append_nil, Traced.mk.injEq, Except.ok.injEq, Prod.mk.injEq] at ht
        obtain ⟨rfl, rfl, hp⟩ := ht
        exact ⟨s₀, w₀, .ready, hp.symm⟩
    | @err l e m v =>
      obtain ⟨lt, res⟩ := t
      match res with
      | .error p => cases ht
      | .ok (r₀, s₀, w₀) =>
        simp only [packPoll, Traced.mk_ok_bind, Traced.pure_def, Traced.prepend_mk,
          List.append_nil, Traced.mk.injEq, Except.ok.injEq, Prod.mk.injEq] at ht
        obtain ⟨rfl, rfl, hp⟩ := ht
        exact ⟨s₀, w₀, .err, hp.symm⟩
    | @notReady l l' r m m' v v' _ ih =>
      obtain ⟨lt, res⟩ := t
      match res with
      | .error p => cases ht
      | .ok (r₀, s₀, w₀) =>
        simp only [packPoll, Traced.mk_ok_bind, Traced.pure_def, Traced.prepend_mk,
          List.append_nil, Traced.mk.injEq, Except.ok.injEq, Prod.mk.injEq] at ht
        obtain ⟨rfl, rfl, hp⟩ := ht
        have hnext := hM s₀ w₀
        rw [hp] at hnext
        obtain ⟨s, w, h, hsw⟩ := ih hnext.symm
        exact ⟨s, w, .notReady h, hsw⟩
  · obtain ⟨s, w, h, hsw⟩ := h
    induction h with
    | ready =>
      unfold packPoll
      simp only [Traced.mk_ok_bind, Traced.pure_def, Traced.prepend_mk, List.append_nil]
      rw [← hsw]
      exact .ready
    | err =>
      unfold packPoll
      simp only [Traced.mk_ok_bind, Traced.pure_def, Traced.prepend_mk, List.append_nil]
      rw [← hsw]
      exact .err
    | @notReady l l' r s₀ s w₀ w _ ih =>
      have hnext := ih hsw
      rw [← hM] at hnext
      unfold packPoll
      simp only [Traced.mk_ok_bind, Traced.pure_def, Traced.prepend_mk, List.append_nil]
      exact .notReady hnext

/-! ## Passing every poll on -/

/-- The outcome of a poll of a machine, seen from one that passes every poll on to it: its events,
its result and its state under another name. -/
def liftPoll (g : Ev → Ev') (f : T → U) (i : σ → μ) (t : Traced P Ev (Poll E T × σ × W)) :
    Traced P Ev' (Poll E U × μ × W) :=
  (do
    let (r, s, w) ← t
    return (r.map f, i s, w)).mapLog g

theorem liftPoll_mk_ok (g : Ev → Ev') (f : T → U) (i : σ → μ) (l : List Ev) (r : Poll E T) (s : σ)
    (w : W) : liftPoll (P := P) g f i ⟨l, .ok (r, s, w)⟩ = ⟨l.map g, .ok (r.map f, i s, w)⟩ := by
  simp [liftPoll]

theorem liftPoll_mk_error (g : Ev → Ev') (f : T → U) (i : σ → μ) (l : List Ev) (p : P) :
    liftPoll (E := E) (W := W) g f i ⟨l, .error p⟩ = ⟨l.map g, .error p⟩ := rfl

theorem Poll.map_id (r : Poll E T) : r.map id = r := by
  match r with
  | .ok (.ready x) => rfl
  | .ok .notReady => rfl
  | .error e => rfl

/-- The result is passed on as it is. -/
theorem liftPoll_id (g : Ev → Ev') (i : σ → μ) (t : Traced P Ev (Poll E T × σ × W)) :
    (do
      let (r, s, w) ← t.mapLog g
      return (r, i s, w)) = liftPoll g id i t := by
  rcases t.eq_ok_or_error with ⟨l, ⟨r, s, w⟩, rfl⟩ | ⟨l, p, rfl⟩
  · rw [liftPoll_mk_ok, Traced.mapLog_mk, Traced.mk_ok_bind, Poll.map_id]
    simp
  · rw [liftPoll_mk_error, Traced.mapLog_mk, Traced.mk_error_bind]

theorem Poll.map_map {X Y : Type} (f : T → X) (g : X → Y) (r : Poll E T) :
    (r.map f).map g = r.map (g ∘ f) := by
  match r with
  | .ok (.ready x) => rfl
  | .ok .notReady => rfl
  | .error e => rfl

/-- Passing on what has been passed on. -/
theorem liftPoll_liftPoll {Ev'' X ν : Type} (g : Ev → Ev') (g' : Ev' → Ev'') (f : T → U) (f' : U → X)
    (i : σ → μ) (i' : μ → ν) (t : Traced P Ev (Poll E T × σ × W)) :
    liftPoll g' f' i' (liftPoll g f i t) = liftPoll (g' ∘ g) (f' ∘ f) (i' ∘ i) t := by
  rcases t.eq_ok_or_error with ⟨l, ⟨r, s, w⟩, rfl⟩ | ⟨l, p, rfl⟩
  · rw [liftPoll_mk_ok, liftPoll_mk_ok, liftPoll_mk_ok, Poll.map_map, List.map_map]
    rfl
  · rw [liftPoll_mk_error, liftPoll_mk_error, liftPoll_mk_error, List.map_map]

end Resumable
