import Finchers.Lib.Machine

/-!
# Computations in direct style

A computation `Comp W L E T` says which results it may have in a world `W`, which world it then
leaves, and what is observed of it on the way.  `Comp.run` is the meaning of a machine: it is polled
until it has its result, and of the events recorded on the way those are observed that `obs` keeps.
How often the machine was polled is no part of its meaning.

* `Comp.done_bind` — a computation that is done is followed by its continuation;
* `Comp.bind_assoc`, `Comp.relabel_bind` — continuations one after the other, and observed under
  another name;
* `Comp.Functional.done`, `Comp.run_functional` — a machine has at most one result in each world;
* `Comp.run_seqPoll` — **a machine that polls another one to its result and then goes on means the
  computation of the one followed by that of the other.**
-/

set_option autoImplicit false

namespace Resumable

/-- From a world to what is observed, a result and a world. -/
def Comp (W L E T : Type) : Type := W → List L → Except E T → W → Prop

namespace Comp

variable {P Ev Ev' W L L' E F T U σ μ : Type}

/-- The computation that does nothing and has the result `r`. -/
def done (r : Except E T) : Comp W L E T := fun w ls r' w' => ls = [] ∧ r' = r ∧ w' = w

/-- The computation without a result. -/
def stuck : Comp W L E T := fun _ _ _ _ => False

/-- Run `c` to its result, then `k`. -/
def bind (c : Comp W L E T) (k : Except E T → Comp W L F U) : Comp W L F U := fun w ls r w' =>
  ∃ ls₁ x w₁ ls₂, c w ls₁ x w₁ ∧ k x w₁ ls₂ r w' ∧ ls = ls₁ ++ ls₂

/-- Rewrite the result. -/
def mapResult (f : Except E T → Except F U) (c : Comp W L E T) : Comp W L F U :=
  c.bind fun x => done (f x)

/-- Rename what is observed. -/
def relabel (f : L → L') (c : Comp W L E T) : Comp W L' E T := fun w ls r w' =>
  ∃ ls₀, c w ls₀ r w' ∧ ls = ls₀.map f

/-- In each world the computation has at most one result, and is observed in at most one way. -/
def Functional (c : Comp W L E T) : Prop :=
  ∀ {w ls₁ r₁ w₁ ls₂ r₂ w₂}, c w ls₁ r₁ w₁ → c w ls₂ r₂ w₂ → ls₁ = ls₂ ∧ r₁ = r₂ ∧ w₁ = w₂

@[ext] theorem ext {c d : Comp W L E T} (h : ∀ w ls r w', c w ls r w' ↔ d w ls r w') : c = d := by
  funext w ls r w'
  exact propext (h w ls r w')

@[simp] theorem done_bind (x : Except E T) (k : Except E T → Comp W L F U) :
    (done x).bind k = k x := by
  ext w ls r w'
  refine ⟨fun h => ?_, fun h => ?_⟩
  · obtain ⟨_, _, _, ls₂, ⟨rfl, rfl, rfl⟩, hk, rfl⟩ := h
    exact hk
  · exact ⟨[], x, w, ls, ⟨rfl, rfl, rfl⟩, h, rfl⟩

theorem mapResult_id (c : Comp W L E T) : c.mapResult id = c := by
  ext w ls r w'
  refine ⟨fun h => ?_, fun h => ?_⟩
  · obtain ⟨ls₁, _, _, _, hc, ⟨rfl, rfl, rfl⟩, rfl⟩ := h
    rw [List.append_nil]
    exact hc
  · exact ⟨ls, r, w', [], h, ⟨rfl, rfl, rfl⟩, (List.append_nil ls).symm⟩

@[simp] theorem relabel_done (f : L → L') (x : Except E T) :
    relabel f (done x : Comp W L E T) = done x := by
  ext w ls r w'
  refine ⟨fun h => ?_, fun h => ?_⟩
  · obtain ⟨_, ⟨rfl, rfl, rfl⟩, rfl⟩ := h
    exact ⟨rfl, rfl, rfl⟩
  · obtain ⟨rfl, rfl, rfl⟩ := h
    exact ⟨[], ⟨rfl, rfl, rfl⟩, rfl⟩

theorem bind_assoc {G V : Type} (c : Comp W L E T) (k : Except E T → Comp W L F U)
    (h : Except F U → Comp W L G V) : (c.bind k).bind h = c.bind fun x => (k x).bind h := by
  ext w ls r w'
  refine ⟨fun hc => ?_, fun hc => ?_⟩
  · obtain ⟨_, y, w₂, ls₃, ⟨ls₁, x, w₁, ls₂, hx, hy, rfl⟩, hr, rfl⟩ := hc
    exact ⟨ls₁, x, w₁, ls₂ ++ ls₃, hx, ⟨ls₂, y, w₂, ls₃, hy, hr, rfl⟩, List.append_assoc _ _ _⟩
  · obtain ⟨ls₁, x, w₁, _, hx, ⟨ls₂, y, w₂, ls₃, hy, hr, rfl⟩, rfl⟩ := hc
    exact ⟨ls₁ ++ ls₂, y, w₂, ls₃, ⟨ls₁, x, w₁, ls₂, hx, hy, rfl⟩, hr,
      (List.append_assoc _ _ _).symm⟩

theorem mapResult_bind {G V : Type} (c : Comp W L E T) (f : Except E T → Except F U)
    (k : Except F U → Comp W L G V) : (c.mapResult f).bind k = c.bind fun x => k (f x) := by
  rw [mapResult, bind_assoc]
  exact congrArg c.bind (funext fun x => done_bind (f x) k)

theorem relabel_bind (f : L → L') (c : Comp W L E T) (k : Except E T → Comp W L F U) :
    (c.bind k).relabel f = (c.relabel f).bind fun x => (k x).relabel f := by
  ext w ls r w'
  refine ⟨fun h => ?_, fun h => ?_⟩
  · obtain ⟨_, ⟨ls₁, x, w₁, ls₂, hc, hk, rfl⟩, rfl⟩ := h
    exact ⟨_, x, w₁, _, ⟨ls₁, hc, rfl⟩, ⟨ls₂, hk, rfl⟩, List.map_append⟩
  · obtain ⟨_, x, w₁, _, ⟨ls₁, hc, rfl⟩, ⟨ls₂, hk, rfl⟩, rfl⟩ := h
    exact ⟨ls₁ ++ ls₂, ⟨ls₁, x, w₁, ls₂, hc, hk, rfl⟩, List.map_append.symm⟩

theorem relabel_relabel {L'' : Type} (f : L → L') (g : L' → L'') (c : Comp W L E T) :
    (c.relabel f).relabel g = c.relabel (g ∘ f) := by
  ext w ls r w'
  refine ⟨fun h => ?_, fun h => ?_⟩
  · obtain ⟨_, ⟨ls₀, hc, rfl⟩, rfl⟩ := h
    exact ⟨ls₀, hc, List.map_map⟩
  · obtain ⟨ls₀, hc, rfl⟩ := h
    exact ⟨_, ⟨ls₀, hc, rfl⟩, List.map_map.symm⟩

theorem relabel_mapResult (f : L → L') (c : Comp W L E T) (h : Except E T → Except F U) :
    (c.mapResult h).relabel f = (c.relabel f).mapResult h := by
  rw [mapResult, relabel_bind]
  exact congrArg _ (funext fun x => relabel_done f (h x))

theorem Functional.done (x : Except E T) : (done x : Comp W L E T).Functional := by
  intro _ _ _ _ _ _ _ h₁ h₂
  obtain ⟨rfl, rfl, rfl⟩ := h₁
  obtain ⟨rfl, rfl, rfl⟩ := h₂
  exact ⟨rfl, rfl, rfl⟩

/-! ## The meaning of a machine -/

/-- What may become of the outcome of a poll. -/
def after (tick : W → W) (obs : Ev → Option L) (poll : PollFn P Ev E σ W T)
    (t : Traced P Ev (Poll E T × σ × W)) (ls : List L) (r : Except E T) (w : W) : Prop :=
  ∃ l s, Finishes tick poll t l r s w ∧ ls = l.filterMap obs

/-- The meaning of a machine in state `s`. -/
def run (tick : W → W) (obs : Ev → Option L) (poll : PollFn P Ev E σ W T) (s : σ) :
    Comp W L E T := fun w => after tick obs poll (poll s w)

variable {tick : W → W} {obs : Ev → Option L} {obs' : Ev' → Option L'}

theorem run_functional (poll : PollFn P Ev E σ W T) (s : σ) :
    (run tick obs poll s).Functional := by
  intro _ _ _ _ _ _ _ h₁ h₂
  obtain ⟨l₁, s₁, h₁, rfl⟩ := h₁
  obtain ⟨l₂, s₂, h₂, rfl⟩ := h₂
  obtain ⟨rfl, rfl, rfl, rfl⟩ := h₁.det h₂
  exact ⟨rfl, rfl, rfl⟩

theorem after_ofResult {poll : PollFn P Ev E σ W T} (x : Except E T) (s : σ) (w : W) :
    after tick obs poll ⟨[], .ok (.ofResult x, s, w)⟩ = done x w := by
  funext ls r w'
  refine propext ⟨fun h => ?_, fun h => ?_⟩
  · obtain ⟨l, s', h, rfl⟩ := h
    cases x with
    | ok x =>
      obtain ⟨rfl, rfl, rfl, rfl⟩ := finishes_ready_iff.mp h
      exact ⟨rfl, rfl, rfl⟩
    | error e =>
      obtain ⟨rfl, rfl, rfl, rfl⟩ := finishes_err_iff.mp h
      exact ⟨rfl, rfl, rfl⟩
  · obtain ⟨rfl, rfl, rfl⟩ := h
    cases r with
    | ok x => exact ⟨[], s, .ready, rfl⟩
    | error e => exact ⟨[], s, .err, rfl⟩

/-- A poll that was not ready and recorded nothing observed is followed by a run. -/
theorem after_notReady {poll : PollFn P Ev E σ W T} {l₀ : List Ev} (hl : l₀.filterMap obs = [])
    (s : σ) (w : W) :
    after tick obs poll ⟨l₀, .ok (.ok .notReady, s, w)⟩ = run tick obs poll s (tick w) := by
  funext ls r w'
  refine propext ⟨fun h => ?_, fun h => ?_⟩
  · obtain ⟨l, s', h, rfl⟩ := h
    obtain ⟨l₁, h₁, rfl⟩ := finishes_notReady_iff.mp h
    exact ⟨l₁, s', h₁, by rw [List.filterMap_append, hl, List.nil_append]⟩
  · obtain ⟨l, s', h, rfl⟩ := h
    exact ⟨l₀ ++ l, s', .notReady h, by rw [List.filterMap_append, hl, List.nil_append]⟩

/-- Events that are not observed make no difference. -/
theorem after_prepend {poll : PollFn P Ev E σ W T} {l₀ : List Ev} (hl : l₀.filterMap obs = [])
    (t : Traced P Ev (Poll E T × σ × W)) :
    after tick obs poll (t.prepend l₀) = after tick obs poll t := by
  funext ls r w'
  refine propext ⟨fun h => ?_, fun h => ?_⟩
  · obtain ⟨l, s, h, rfl⟩ := h
    obtain ⟨l', h', rfl⟩ := finishes_prepend.mp h
    exact ⟨l', s, h', by rw [List.filterMap_append, hl, List.nil_append]⟩
  · obtain ⟨l, s, h, rfl⟩ := h
    exact ⟨l₀ ++ l, s, finishes_prepend.mpr ⟨l, h, rfl⟩,
      by rw [List.filterMap_append, hl, List.nil_append]⟩

/-- A run does not tell machines apart that answer alike and are observed alike. -/
theorem after_congr {A M : PollFn P Ev E σ W T} (hres : ∀ s w, (A s w).res = (M s w).res)
    (hlog : ∀ s w, (A s w).log.filterMap obs = (M s w).log.filterMap obs)
    {t t' : Traced P Ev (Poll E T × σ × W)} (ht : t.res = t'.res)
    (hl : t.log.filterMap obs = t'.log.filterMap obs) {ls : List L} {r : Except E T} {w : W}
    (h : after tick obs A t ls r w) : after tick obs M t' ls r w := by
  obtain ⟨l, s, h, rfl⟩ := h
  induction h generalizing t' with
  | @ready l x s w =>
    obtain ⟨l', res'⟩ := t'
    cases ht
    exact ⟨l', s, .ready, hl⟩
  | @err l e s w =>
    obtain ⟨l', res'⟩ := t'
    cases ht
    exact ⟨l', s, .err, hl⟩
  | @notReady l l₁ r s s' w w' _ ih =>
    obtain ⟨l', res'⟩ := t'
    cases ht
    obtain ⟨l₂, s₂, h₂, hl₂⟩ := ih (hres s (tick w)) (hlog s (tick w))
    have hl : l.filterMap obs = l'.filterMap obs := hl
    exact ⟨l' ++ l₂, s₂, .notReady h₂, by
      rw [List.filterMap_append, List.filterMap_append, hl, hl₂]⟩

theorem run_congr {A M : PollFn P Ev E σ W T} (hres : ∀ s w, (A s w).res = (M s w).res)
    (hlog : ∀ s w, (A s w).log.filterMap obs = (M s w).log.filterMap obs) (s : σ) :
    run tick obs A s = run tick obs M s := by
  ext w ls r w'
  constructor
  · exact after_congr hres hlog (hres s w) (hlog s w)
  · exact after_congr (fun s w => (hres s w).symm) (fun s w => (hlog s w).symm) (hres s w).symm
      (hlog s w).symm

/-- Renaming the events of a machine renames what is observed of it. -/
theorem run_mapLog {g : Ev → Ev'} {f : L → L'} (hobs : ∀ e, obs' (g e) = (obs e).map f)
    (poll : PollFn P Ev E σ W T) (s : σ) :
    run tick obs' (fun s w => (poll s w).mapLog g) s = (run tick obs poll s).relabel f := by
  have hmap : ∀ l : List Ev, (l.map g).filterMap obs' = (l.filterMap obs).map f := by
    intro l
    rw [List.filterMap_map, List.map_filterMap]
    exact List.filterMap_congr fun e _ => hobs e
  ext w ls r w'
  refine ⟨fun h => ?_, fun h => ?_⟩
  · obtain ⟨l', s', h, rfl⟩ := h
    obtain ⟨l, hl, rfl⟩ := completes_mapLog.mp h
    exact ⟨_, ⟨l, s', hl, rfl⟩, hmap l⟩
  · obtain ⟨_, ⟨l, s', h, rfl⟩, rfl⟩ := h
    exact ⟨l.map g, s', completes_mapLog.mpr ⟨l, h, rfl⟩, (hmap l).symm⟩

/-- **A machine that polls another one to its result and then goes on.** -/
theorem run_seqPoll {A : PollFn P Ev E σ W T} {M : PollFn P Ev F μ W U} (i : σ → μ)
    (k : Except E T → σ → W → Traced P Ev (Poll F U × μ × W))
    (hM : ∀ s w, M (i s) w = seqPoll i k (A s w)) {c : Except E T → Comp W L F U}
    (hk : ∀ x s w, after tick obs M (k x s w) = c x w) (s : σ) :
    run tick obs M (i s) = (run tick obs A s).bind c := by
  ext w ls r w'
  refine ⟨fun h => ?_, fun h => ?_⟩
  · obtain ⟨l, m, h, rfl⟩ := h
    obtain ⟨l₁, x, s₁, w₁, l₂, h₁, h₂, rfl⟩ := (completes_seqPoll hM).mp h
    have hc : c x w₁ (l₂.filterMap obs) r w' := by
      rw [← hk x s₁ w₁]
      exact ⟨l₂, m, h₂, rfl⟩
    exact ⟨_, x, w₁, _, ⟨l₁, s₁, h₁, rfl⟩, hc, List.filterMap_append⟩
  · obtain ⟨_, x, w₁, ls₂, ⟨l₁, s₁, h₁, rfl⟩, hc, rfl⟩ := h
    rw [← hk x s₁ w₁] at hc
    obtain ⟨l₂, m, h₂, rfl⟩ := hc
    exact ⟨l₁ ++ l₂, m, (completes_seqPoll hM).mpr ⟨l₁, x, s₁, w₁, l₂, h₁, h₂, rfl⟩,
      List.filterMap_append.symm⟩

/-- A machine that passes every poll on and rewrites the answers. -/
theorem run_mapPoll {A : PollFn P Ev E σ W T} {M : PollFn P Ev F μ W U} (i : σ → μ)
    (φ : Poll E T → Poll F U) {f : Except E T → Except F U}
    (hn : φ (.ok .notReady) = .ok .notReady) (hf : ∀ x, φ (.ofResult x) = .ofResult (f x))
    (hM : ∀ s w, M (i s) w = do
      let (r, s, w) ← A s w
      return (φ r, i s, w)) (s : σ) :
    run tick obs M (i s) = (run tick obs A s).mapResult f := by
  refine run_seqPoll i (fun x s w => ⟨[], .ok (.ofResult (f x), i s, w)⟩) ?_
    (fun x s w => after_ofResult (f x) (i s) w) s
  intro s w
  rw [hM]
  unfold seqPoll
  rcases (A s w).eq_ok_or_error with ⟨l, ⟨r, s', w'⟩, h⟩ | ⟨l, p, h⟩
  · rw [h, Traced.mk_ok_bind, Traced.mk_ok_bind]
    match r with
    | .ok .notReady => simp only [hn]
    | .ok (.ready x) =>
      have hx := hf (.ok x)
      rw [Poll.ofResult] at hx
      simp only [hx, Traced.pure_def]
    | .error e =>
      have hx := hf (.error e)
      rw [Poll.ofResult] at hx
      simp only [hx, Traced.pure_def]
  · rw [h, Traced.mk_error_bind, Traced.mk_error_bind]

/-! ## Stuttering -/

/-- A machine that goes on as `A` does, from states that mean what those of `A` mean. -/
theorem after_mapState {A : PollFn P Ev E σ W T} {M : PollFn P Ev E μ W T} (i : σ → μ)
    (h : ∀ s, run tick obs M (i s) = run tick obs A s) (t : Traced P Ev (Poll E T × σ × W)) :
    after tick obs M (do
      let (r, s, w) ← t
      return (r, i s, w)) = after tick obs A t := by
  rcases t.eq_ok_or_error with ⟨l, ⟨a, s, w⟩, rfl⟩ | ⟨l, p, rfl⟩
  · simp only [Traced.mk_ok_bind, Traced.pure_def, Traced.prepend_mk, List.append_nil]
    funext ls r w'
    refine propext ⟨fun hM => ?_, fun hA => ?_⟩
    · obtain ⟨l', m, hM, rfl⟩ := hM
      match a with
      | .ok (.ready x) =>
        obtain ⟨rfl, rfl, rfl, rfl⟩ := finishes_ready_iff.mp hM
        exact ⟨l', s, .ready, rfl⟩
      | .error e =>
        obtain ⟨rfl, rfl, rfl, rfl⟩ := finishes_err_iff.mp hM
        exact ⟨l', s, .err, rfl⟩
      | .ok .notReady =>
        obtain ⟨l₁, hrest, rfl⟩ := finishes_notReady_iff.mp hM
        have hrun : run tick obs M (i s) (tick w) (l₁.filterMap obs) r w' := ⟨l₁, m, hrest, rfl⟩
        rw [h] at hrun
        obtain ⟨l₂, s₂, hA, hl⟩ := hrun
        exact ⟨l ++ l₂, s₂, .notReady hA, by rw [List.filterMap_append, List.filterMap_append, hl]⟩
    · obtain ⟨l', s', hA, rfl⟩ := hA
      match a with
      | .ok (.ready x) =>
        obtain ⟨rfl, rfl, rfl, rfl⟩ := finishes_ready_iff.mp hA
        exact ⟨l', i s', .ready, rfl⟩
      | .error e =>
        obtain ⟨rfl, rfl, rfl, rfl⟩ := finishes_err_iff.mp hA
        exact ⟨l', i s', .err, rfl⟩
      | .ok .notReady =>
        obtain ⟨l₁, hrest, rfl⟩ := finishes_notReady_iff.mp hA
        have hrun : run tick obs A s (tick w) (l₁.filterMap obs) r w' := ⟨l₁, s', hrest, rfl⟩
        rw [← h] at hrun
        obtain ⟨l₂, m, hM, hl⟩ := hrun
        exact ⟨l ++ l₂, m, .notReady hM, by rw [List.filterMap_append, List.filterMap_append, hl]⟩
  · funext ls r w'
    refine propext ⟨fun hM => ?_, fun hA => ?_⟩
    · obtain ⟨l', m, hM, rfl⟩ := hM
      exact (not_finishes_panic hM).elim
    · obtain ⟨l', s', hA, rfl⟩ := hA
      exact (not_finishes_panic hA).elim

/-- **Answers `notReady` that leave the world as it is make no difference.**  `D` is `A` with such
answers put in: the second part of its state says, for each poll to come, whether it stalls. -/
theorem run_delayed {A : PollFn P Ev E σ W T} {D : PollFn P Ev E (σ × List Bool) W T}
    (hstall : ∀ s stalls w, ∃ l, l.filterMap obs = [] ∧
      D (s, true :: stalls) w = ⟨l, .ok (.ok .notReady, (s, stalls), w)⟩)
    (hstep : ∀ s stalls w, D (s, false :: stalls) w = do
      let (r, s, w) ← A s w
      return (r, (s, stalls), w))
    (hend : ∀ s w, D (s, []) w = do
      let (r, s, w) ← A s w
      return (r, (s, []), w)) (s : σ) (stalls : List Bool) :
    run id obs D (s, stalls) = run id obs A s := by
  induction stalls generalizing s with
  | nil =>
    have hmap : run id obs D (s, []) = (run id obs A s).mapResult id :=
      run_mapPoll (fun s => (s, [])) id rfl (fun _ => rfl) hend s
    rw [hmap]
    exact mapResult_id _
  | cons stall stalls ih =>
    funext w
    show after id obs D (D (s, stall :: stalls) w) = after id obs A (A s w)
    cases stall with
    | true =>
      obtain ⟨l, hl, hD⟩ := hstall s stalls w
      rw [hD, after_notReady hl, ih]
      rfl
    | false =>
      rw [hstep]
      exact after_mapState (fun s => (s, stalls)) ih (A s w)

end Comp

end Resumable
