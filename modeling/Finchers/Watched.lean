import Finchers.Selected

/-!
# What a poll of an endpoint does, read by a monitor

A monitor reads the events of a poll.  If it accepts what a leaf and a future do, then it accepts what
any tree of combinators does; one induction on the tree serves every monitor.

* `Watch` — a monitor, with the conditions on single events;
* `Watch.After`, `Watch.Watches` — where it is after a poll; it accepts every poll of an action;
* `watches_and` … — one lemma for each combinator;
* `Endpoint.watched` — **it accepts every poll of every endpoint**;
* `AppFuture.sees_pollApply` — and every poll of the handling of a request.
-/

set_option autoImplicit false

namespace Finchers

open Resumable Transition

variable {ε Bd Env σ τ M : Type} {ts us : List Type}

/-! ## Monitors of polls -/

/-- Whether the request body has not been taken yet. -/
def World.hasBody (w : World Bd Env) : Bool := w.cx.body.isSome

/-- A monitor of polls.  `Idle` and `Blocked` say where it is before a poll and after one, by whether
the body is there. -/
structure Watch (M : Type) where
  step : M → Event → Option M
  /-- The monitor of a component, seen from its combinator. -/
  lift : Dir → M → M
  Idle : M → Bool → Prop
  Blocked : M → Bool → Prop
  step_under : ∀ {d m ev m'}, step m ev = some m' → step (lift d m) (ev.under d) = some (lift d m')
  idle_under : ∀ {m b} (d : Dir), Idle m b → ∃ n, m = lift d n ∧ Idle n b
  lift_idle : ∀ {n b} (d : Dir), Idle n b → Idle (lift d n) b
  lift_blocked : ∀ {n b} (d : Dir), Blocked n b → Blocked (lift d n) b
  early : ∀ {m b ev}, Idle m b → ev.Early → step m ev = some m
  leaf : ∀ {m b b'} (out : PollOut), Idle m b → (b' = true → b = true) →
    ∃ m', step m ⟨[], .poll out (b && !b')⟩ = some m' ∧
      (if out = .notReady then Blocked m' b' else Idle m' b')
  panicked : ∀ {m b}, Idle m b → ∃ m', step m ⟨[], .poll .panicked false⟩ = some m'
  inFlight : ∀ {m b} (slot : Option Nat) (out : PollOut), Idle m b →
    ∃ m', step m ⟨[], .pollFuture slot out⟩ = some m' ∧
      (if out = .notReady then Blocked m' b else Idle m' b)
  future : ∀ {m b} (slot : Option Nat) (out : PollOut), Idle m b →
    ∃ m', run step m [⟨[], .pollFuture slot out⟩, ⟨[], .poll out false⟩] = some m' ∧
      (if out = .notReady then Blocked m' b else Idle m' b)

namespace Watch

variable (k : Watch M)

/-- Where the monitor is after a poll. -/
def After {T : Type} (r : Poll (Error ε) T) (m : M) (w : World Bd Env) : Prop :=
  if PollOut.of r = .notReady then k.Blocked m w.hasBody else k.Idle m w.hasBody

theorem after_notReady {T : Type} {m : M} {w : World Bd Env} :
    k.After (.ok .notReady : Poll (Error ε) T) m w ↔ k.Blocked m w.hasBody := Iff.rfl

theorem after_ready {T : Type} {x : T} {m : M} {w : World Bd Env} :
    k.After (.ok (.ready x) : Poll (Error ε) T) m w ↔ k.Idle m w.hasBody := Iff.rfl

theorem after_err {T : Type} {err : Error ε} {m : M} {w : World Bd Env} :
    k.After (.error err : Poll (Error ε) T) m w ↔ k.Idle m w.hasBody := Iff.rfl

/-- The monitor accepts the events of `t`, and `Q` holds of the result and of the monitor then. -/
abbrev Sees {α : Type} (m : M) (t : Traced Panic Event α) (Q : α → M → Prop) : Prop :=
  Resumable.Accepts k.step (fun _ => True) m t Q

/-- The monitor accepts every poll. -/
def Watches (f : EndpointAction ε Bd Env σ ts) : Prop :=
  ∀ s w m, k.Idle m w.hasBody → k.Sees m (f.pollAction s w) fun a m' => k.After a.1 m' a.2.2

variable {k}

theorem sees_panic {α : Type} {m : M} {p : Panic} {Q : α → M → Prop} :
    k.Sees m (Traced.panic p : Traced Panic Event α) Q :=
  ⟨⟨m, rfl, by rintro _ ⟨⟩⟩, fun _ _ => trivial⟩

/-- A component, polled by its combinator. -/
theorem sees_under {α : Type} {m : M} {b : Bool} (d : Dir) {t : Traced Panic Event α}
    {Q : α → M → Prop} (hm : k.Idle m b) (h : ∀ n, k.Idle n b → k.Sees n t Q) :
    k.Sees m (under d t) fun a m' => ∃ n, m' = k.lift d n ∧ Q a n := by
  obtain ⟨n, rfl, hn⟩ := k.idle_under d hm
  exact accepts_mapLog k.step_under (h n hn)

/-- The events of `preflight` and the calls of closures leave the monitor where it is. -/
theorem sees_early {α : Type} {m : M} {b : Bool} {t : Traced Panic Event α} (hm : k.Idle m b)
    (h : EarlyOnly t) : k.Sees m t fun _ m' => m' = m := by
  have hrun : ∀ l : List Event, (∀ ev ∈ l, ev.Early) → run k.step m l = some m := by
    intro l hl
    induction l with
    | nil => rfl
    | cons ev l ih =>
      have hev := k.early hm (hl ev List.mem_cons_self)
      exact run_cons.mpr ⟨m, hev, ih fun ev' hev' => hl ev' (List.mem_cons_of_mem ev hev')⟩
  exact ⟨⟨m, hrun t.log h.log, fun _ _ => rfl⟩, fun _ _ => trivial⟩

/-- What a combinator makes of the answer of a component does not change whether it is ready. -/
theorem After.congr {T U : Type} {r : Poll (Error ε) T} {r' : Poll (Error ε) U} {m : M}
    {w : World Bd Env} (hr : PollOut.of r' = .notReady ↔ PollOut.of r = .notReady)
    (h : k.After r m w) : k.After r' m w := by
  unfold After at *
  by_cases hn : PollOut.of r = .notReady
  · rw [if_pos hn] at h
    rw [if_pos (hr.mpr hn)]
    exact h
  · rw [if_neg hn] at h
    rw [if_neg (fun hn' => hn (hr.mp hn'))]
    exact h

theorem After.lift {T : Type} {r : Poll (Error ε) T} {n : M} {w : World Bd Env} (d : Dir)
    (h : k.After r n w) : k.After r (k.lift d n) w := by
  unfold After at *
  by_cases hn : PollOut.of r = .notReady
  · rw [if_pos hn] at h ⊢
    exact k.lift_blocked d h
  · rw [if_neg hn] at h ⊢
    exact k.lift_idle d h

end Watch

open Watch

section

variable {k : Watch M}

/-! ## Leaves -/

theorem watches_leaf (a : LeafAction ε Bd Env σ ts) : k.Watches a.action := by
  intro s w m hm
  unfold LeafAction.action
  simp only
  split
  · rename_i r s' w' hpoll
    have hback : w'.hasBody = true → w.hasBody = true := a.notPutBack hpoll
    obtain ⟨m', hstep, hafter⟩ := k.leaf (.of r) hm hback
    have htook : w.took w' = (w.hasBody && !w'.hasBody) := by
      simp [World.took, World.hasBody]
    rw [← htook] at hstep
    exact accepts_mk_ok hstep hafter
  · obtain ⟨m', hstep⟩ := k.panicked hm
    exact accepts_mk_error hstep trivial

theorem watches_oneshot (a : OneshotAction ε σ ts) :
    k.Watches (a.action : EndpointAction ε Bd Env (Option σ) ts) := by
  intro s w m hm
  obtain ⟨m', hstep⟩ := k.panicked hm
  exact accepts_mk_error hstep trivial

theorem watches_future {Fut : Type} (f : FutureAction ε Env Fut (HList ts)) :
    k.Watches (f.action : EndpointAction ε Bd Env Fut ts) := by
  intro s w m hm
  unfold FutureAction.action
  simp only
  obtain ⟨m', hrun, hafter⟩ := k.future (some w.cx.context.addr)
    (.of (w.cx.context.set w.thread (fun th => (((f.poll s th).1, (f.poll s th).2.1),
      (f.poll s th).2.2))).1.1) hm
  exact ⟨⟨m', hrun, fun a ha => by cases ha; exact hafter⟩, fun p hp => by cases hp⟩

/-! ## Combinators -/

theorem watches_maybeDone {f : EndpointAction ε Bd Env σ ts} (hf : k.Watches f) :
    k.Watches (MaybeDone.action f) := by
  intro s w m hm
  match s with
  | .init _ => exact sees_panic
  | .gone => exact sees_panic
  | .ready x => exact accepts_pure hm
  | .inFlight t =>
    refine accepts_bind ((hf t w m hm).mono ?_)
    rintro ⟨r, t', w'⟩ m' ha
    match r with
    | .ok .notReady => exact accepts_pure ha
    | .error e => exact accepts_pure ha
    | .ok (.ready x) => exact accepts_pure ha

theorem watches_and {e1 : EndpointAction ε Bd Env σ ts} {e2 : EndpointAction ε Bd Env τ us}
    (h1 : k.Watches e1) (h2 : k.Watches e2) : k.Watches (AndAction.action e1 e2) := by
  intro s w m hm
  refine accepts_bind ((sees_under .left hm (watches_maybeDone h1 s.f1 w)).mono ?_)
  rintro ⟨r1, f1, w1⟩ m' ⟨n, rfl, ha⟩
  have ha := ha.lift .left
  match r1 with
  | .ok .notReady => exact accepts_pure ha
  | .error e => exact accepts_pure ha
  | .ok (.ready u) =>
    refine accepts_bind ((sees_under .right ha (watches_maybeDone h2 s.f2 w1)).mono ?_)
    rintro ⟨r2, f2, w2⟩ m' ⟨n, rfl, ha⟩
    have ha := ha.lift .right
    match r2 with
    | .ok .notReady => exact accepts_pure ha
    | .error e => exact accepts_pure ha
    | .ok (.ready u) =>
      dsimp only
      split
      · exact accepts_pure ha
      · exact sees_panic

/-- A poll that is passed on to a component. -/
theorem sees_passed {S : Type} {e : EndpointAction ε Bd Env σ ts} (h : k.Watches e) (d : Dir)
    {out : Poll (Error ε) (HList ts) → Poll (Error ε) (HList us)}
    (hout : ∀ r, PollOut.of (out r) = .notReady ↔ PollOut.of r = .notReady) (state : σ → S) (s : σ)
    (w : World Bd Env) {m : M} (hm : k.Idle m w.hasBody) :
    k.Sees m (do
      let (r, s, w) ← under d (e.pollAction s w)
      return (out r, state s, w)) fun a m' => k.After a.1 m' a.2.2 := by
  refine accepts_bind ((sees_under d hm (h s w)).mono ?_)
  rintro ⟨r, s', w'⟩ m' ⟨n, rfl, ha⟩
  exact accepts_pure ((ha.lift d).congr (hout r))

theorem PollOut.of_map {T U : Type} (f : T → U) (r : Poll (Error ε) T) :
    PollOut.of (r.map f) = PollOut.of r := by
  rcases r with err | (x | -) <;> rfl

theorem PollOut.of_mapErr {T : Type} (f : Error ε → Error ε) (r : Poll (Error ε) T) :
    PollOut.of (r.mapErr f) = PollOut.of r := by
  rcases r with err | (x | -) <;> rfl

theorem watches_or {T1 T2 : Type} {e1 : EndpointAction ε Bd Env σ [T1]}
    {e2 : EndpointAction ε Bd Env τ [T2]} (h1 : k.Watches e1) (h2 : k.Watches e2) :
    k.Watches (OrAction.action e1 e2) := by
  intro s w m hm
  match s with
  | .init _ _ => exact sees_panic
  | .done => exact sees_panic
  | .left t => exact sees_passed h1 .left (fun r => by rw [PollOut.of_map]) OrState.left t w hm
  | .right t => exact sees_passed h2 .right (fun r => by rw [PollOut.of_map]) OrState.right t w hm

theorem watches_orStrict {e1 : EndpointAction ε Bd Env σ ts} {e2 : EndpointAction ε Bd Env τ ts}
    (h1 : k.Watches e1) (h2 : k.Watches e2) : k.Watches (OrStrictAction.action e1 e2) := by
  intro s w m hm
  match s with
  | .init _ _ => exact sees_panic
  | .done => exact sees_panic
  | .left t => exact sees_passed h1 .left (fun _ => Iff.rfl) OrState.left t w hm
  | .right t => exact sees_passed h2 .right (fun _ => Iff.rfl) OrState.right t w hm

theorem watches_map {U : Type} {e : EndpointAction ε Bd Env σ ts} (h : k.Watches e)
    (f : HList ts → U) : k.Watches (MapAction.action e f) := fun s w _ hm =>
  sees_passed h .inner (fun r => by rw [PollOut.of_map]) id s w hm

theorem watches_mapErr {e : EndpointAction ε Bd Env σ ts} (h : k.Watches e)
    (f : Error ε → Error ε) : k.Watches (MapErrAction.action e f) := fun s w _ hm =>
  sees_passed h .inner (fun r => by rw [PollOut.of_mapErr]) id s w hm

/-- The future of a closure works on the thread only. -/
theorem sees_pollInFlight {Fut T : Type} (fut : FutureAction ε Env Fut T) (action : σ)
    (inFlight : Fut) (w : World Bd Env) {m : M} (hm : k.Idle m w.hasBody) :
    k.Sees m (pollInFlight fut action inFlight w) fun a m' => k.After a.1 m' a.2.2 := by
  unfold pollInFlight FutureAction.pollInFlight
  obtain ⟨r, fl, th⟩ := fut.poll inFlight w.thread
  obtain ⟨m', hstep, hafter⟩ := k.inFlight w.thread.slot (.of r) hm
  refine accepts_bind (accepts_mk_ok hstep (accepts_pure ?_))
  have hafter : k.After r m' { w with thread := th } := hafter
  exact hafter.congr (by rw [PollOut.of_map])

/-- The closure is called, and the future it returns is polled at once. -/
theorem sees_callClosure {α Fut T : Type} (fut : FutureAction ε Env Fut T) (f : α → Fut) (x : α)
    (action : σ) (w : World Bd Env) {m : M} (hm : k.Idle m w.hasBody) :
    k.Sees m (do
      let inFlight ← callClosure f x
      pollInFlight fut action inFlight w) fun a m' => k.After a.1 m' a.2.2 := by
  refine accepts_bind ((sees_early hm (earlyOnly_callClosure f x)).mono ?_)
  rintro inFlight m' rfl
  exact sees_pollInFlight fut action inFlight w hm

theorem watches_andThen {Fut T : Type} {e : EndpointAction ε Bd Env σ ts} (h : k.Watches e)
    (fut : FutureAction ε Env Fut T) (f : HList ts → Fut) :
    k.Watches (AndThenAction.action e fut f) := by
  rintro ⟨action, _ | inFlight⟩ w m hm
  · refine accepts_bind ((sees_under .inner hm (h action w)).mono ?_)
    rintro ⟨r, s', w'⟩ m' ⟨n, rfl, ha⟩
    have ha := ha.lift .inner
    match r with
    | .ok .notReady => exact accepts_pure ha
    | .error err => exact accepts_pure ha
    | .ok (.ready args) => exact sees_callClosure fut f args s' w' ha
  · exact sees_pollInFlight fut action inFlight w hm

theorem watches_recover {Fut T : Type} {e : EndpointAction ε Bd Env σ [T]} (h : k.Watches e)
    (fut : FutureAction ε Env Fut T) (f : Error ε → Fut) :
    k.Watches (RecoverAction.action e fut f) := by
  rintro ⟨action, _ | inFlight⟩ w m hm
  · refine accepts_bind ((sees_under .inner hm (h action w)).mono ?_)
    rintro ⟨r, s', w'⟩ m' ⟨n, rfl, ha⟩
    have ha := ha.lift .inner
    match r with
    | .ok .notReady => exact accepts_pure ha
    | .ok (.ready x) => exact accepts_pure ha
    | .error err => exact sees_callClosure fut f err s' w' ha
  · exact sees_pollInFlight fut action inFlight w hm

end

/-! ## Endpoints -/

/-- **A monitor that accepts leaves and futures accepts every poll of every endpoint.** -/
theorem Endpoint.watched (k : Watch M) (e : Endpoint ε Bd Env ts) : k.Watches e.impl := by
  induction e with
  | leaf σ a init => exact watches_leaf a
  | oneshot σ a init => exact watches_oneshot a
  | future Fut f init => exact watches_future f
  | and e1 e2 ih1 ih2 => exact watches_and ih1 ih2
  | or e1 e2 ih1 ih2 => exact watches_or ih1 ih2
  | orStrict e1 e2 ih1 ih2 => exact watches_orStrict ih1 ih2
  | map e f ih => exact watches_map ih f
  | mapErr e f ih => exact watches_mapErr ih f
  | andThen Fut e fut f ih => exact watches_andThen ih fut f
  | recover Fut e fut f ih => exact watches_recover ih fut f
  | boxed e ih => exact ih

namespace AppFuture

variable {k : Watch M}

theorem sees_inFlight {f : EndpointAction ε Bd Env σ ts} (h : k.Watches f) (fut : AppFuture σ Bd)
    (action : σ) (th : Thread Env) {m : M} (hm : k.Idle m (fut.world th).hasBody) :
    k.Sees m (pollInFlight f fut action th) fun a m' => k.After a.1 m' (a.2.1.world a.2.2) := by
  refine accepts_bind ((h action (fut.world th) m hm).mono ?_)
  rintro ⟨r, s', w'⟩ m' ha
  exact accepts_pure ha

/-- Every poll of the handling of a request is accepted. -/
theorem sees_pollApply {e : Endpoint ε Bd Env ts} (h : k.Watches e.impl)
    (fut : AppFuture e.Action Bd) (th : Thread Env) {m : M}
    (hm : k.Idle m (fut.world th).hasBody) :
    k.Sees m (pollApply e.impl fut th) fun a m' => k.After a.1 m' (a.2.1.world a.2.2) := by
  obtain ⟨state, context, body⟩ := fut
  match state with
  | .start none => exact sees_panic
  | .inFlight action => exact sees_inFlight h _ action th hm
  | .start (some action) =>
    refine accepts_bind ((sees_early hm (e.preflight_early (.new context) action)).mono ?_)
    rintro ⟨r, s', c⟩ m' rfl
    rcases r with err | (x | -)
    · exact accepts_pure hm
    · exact accepts_pure hm
    · exact sees_inFlight h _ s' th hm

end AppFuture

end Finchers
