import Finchers.Selected

/-!
# The context a future is polled in

Which context the thread-local slot holds while a future of the application is polled.

* `Endpoint.PollsInFlight` — from where a poll reaches a future that the closure of an `and_then` or
  of a `recover` returned;
* `SlotSpec`, `Endpoint.slotSpec` — by induction on the tree: a poll leaves the slot as it was; a
  future at a leaf is polled with the context of the request in the slot, a future in flight with
  whatever the slot holds;
* `AppFuture.polls` — the polls of a run;
* `polled_in_context_iff` — all futures of a run are polled in the context of the request, if and
  only if the slot held it already before every poll that reaches a future in flight;
* `Endpoint.Chains` — whether there is an `and_then` or a `recover` in a tree;
* `polled_in_context` — **all futures of a run are polled in the context of the request if there is
  none, or if the slot held that context before every poll.**
-/

set_option autoImplicit false

namespace Finchers

open Resumable

variable {ε Bd Env σ τ : Type} {ts us : List Type}

/-- If a future is polled, the slot holds the context of `w`, or `inFlight` holds and the slot is as
it is in `w`. -/
def Event.SlotOf (w : World Bd Env) (inFlight : Prop) (ev : Event) : Prop :=
  ∀ slot out, ev.what = .pollFuture slot out →
    slot = some w.cx.context.addr ∨ inFlight ∧ slot = w.thread.slot

/-- A future is polled with what the slot holds in `w`. -/
def Event.PolledOn (w : World Bd Env) (ev : Event) : Prop :=
  ∃ out, ev.what = .pollFuture w.thread.slot out

/-- The slot is the same, and so is the context of the request. -/
def World.SameSlot (w w' : World Bd Env) : Prop :=
  w'.thread.slot = w.thread.slot ∧ w'.cx.context.addr = w.cx.context.addr

theorem World.SameSlot.refl (w : World Bd Env) : w.SameSlot w := ⟨rfl, rfl⟩

theorem World.SameSlot.trans {w w' w'' : World Bd Env} (h : w.SameSlot w') (h' : w'.SameSlot w'') :
    w.SameSlot w'' :=
  ⟨h'.1.trans h.1, h'.2.trans h.2⟩

theorem Event.SlotOf.mono {w w' : World Bd Env} {A B : Prop} {ev : Event} (hw : w.SameSlot w')
    (hAB : A → B) (h : ev.SlotOf w' A) : ev.SlotOf w B := by
  intro slot out hev
  rcases h slot out hev with hslot | ⟨hA, hslot⟩
  · exact Or.inl (hslot.trans (congrArg some hw.2))
  · exact Or.inr ⟨hAB hA, hslot.trans hw.1⟩

/-! ## One poll -/

/-- What a poll of an action does to the slot; from the states in `R` it reaches a future in
flight. -/
structure SlotSpec (f : EndpointAction ε Bd Env σ ts) (R : σ → World Bd Env → Prop) : Prop where
  within : ∀ s w, Within (Event.SlotOf w (R s w)) (f.pollAction s w) fun a => w.SameSlot a.2.2
  reached : ∀ s w, R s w → ∃ ev ∈ (f.pollAction s w).log, ev.PolledOn w

section

variable {P E α β : Type}

theorem mem_log_bind {m : Traced P E α} {f : α → Traced P E β} {ev : E} (h : ev ∈ m.log) :
    ev ∈ (m >>= f).log := by
  rcases m.eq_ok_or_error with ⟨l, a, rfl⟩ | ⟨l, p, rfl⟩
  · rw [Traced.mk_ok_bind]
    exact List.mem_append_left _ h
  · exact h

theorem mem_log_bind_right {m : Traced P E α} {f : α → Traced P E β} {l : List E} {a : α} {ev : E}
    (hm : m = ⟨l, .ok a⟩) (h : ev ∈ (f a).log) : ev ∈ (m >>= f).log := by
  rw [Traced.bind_eq hm]
  exact List.mem_append_right _ h

end

section

variable {w w' : World Bd Env} {A B : Prop} {α : Type} {d : Dir}

/-- The events of a component, read by its combinator. -/
theorem within_slot_under {t : Traced Panic Event α} {Q : α → Prop} (hw : w.SameSlot w')
    (hAB : A → B) (h : Within (Event.SlotOf w' A) t Q) :
    Within (Event.SlotOf w B) (under d t) Q :=
  within_mapLog (Event.under d) (fun _ hev => Event.SlotOf.mono hw hAB hev) h

theorem polledOn_under {t : Traced Panic Event α} (hw : w.SameSlot w')
    (h : ∃ ev ∈ t.log, ev.PolledOn w') : ∃ ev ∈ (under d t).log, ev.PolledOn w := by
  obtain ⟨ev, hev, out, hout⟩ := h
  refine ⟨ev.under d, List.mem_map_of_mem hev, out, ?_⟩
  show ev.what = .pollFuture w.thread.slot out
  rw [hout, hw.1]

theorem polledOn_bind {β : Type} {m : Traced Panic Event α} {f : α → Traced Panic Event β}
    (h : ∃ ev ∈ m.log, ev.PolledOn w) : ∃ ev ∈ (m >>= f).log, ev.PolledOn w := by
  obtain ⟨ev, hev, hpolled⟩ := h
  exact ⟨ev, mem_log_bind hev, hpolled⟩

theorem polledOn_bind_right {β : Type} {m : Traced Panic Event α} {f : α → Traced Panic Event β}
    {l : List Event} {a : α} (hm : m = ⟨l, .ok a⟩) (h : ∃ ev ∈ (f a).log, ev.PolledOn w) :
    ∃ ev ∈ (m >>= f).log, ev.PolledOn w := by
  obtain ⟨ev, hev, hpolled⟩ := h
  exact ⟨ev, mem_log_bind_right hm hev, hpolled⟩

end

theorem slotSpec_leaf (a : LeafAction ε Bd Env σ ts) : SlotSpec a.action fun _ _ => False := by
  refine ⟨fun s w => ?_, fun _ _ h => h.elim⟩
  have hev : ∀ out took, ∀ ev ∈ [(⟨[], .poll out took⟩ : Event)], ev.SlotOf w False := by
    intro out took ev hev slot out' hwhat
    rw [List.mem_singleton.mp hev] at hwhat
    cases hwhat
  unfold LeafAction.action
  rcases ha : a.pollAction s w with p | ⟨r, s', w'⟩
  · simp only [ha]
    exact within_mk_error (hev _ _)
  · simp only [ha]
    exact within_mk_ok (hev _ _) (a.keeps ha)

theorem slotSpec_oneshot (a : OneshotAction ε σ ts) :
    SlotSpec (a.action : EndpointAction ε Bd Env (Option σ) ts) fun _ _ => False := by
  refine ⟨fun s w => within_mk_error fun ev hev slot out hwhat => ?_, fun _ _ h => h.elim⟩
  rw [List.mem_singleton.mp hev] at hwhat
  cases hwhat

/-- A future at a leaf is polled by `Context::set`. -/
theorem slotSpec_future {Fut : Type} (f : FutureAction ε Env Fut (HList ts)) :
    SlotSpec (f.action : EndpointAction ε Bd Env Fut ts) fun _ _ => False := by
  refine ⟨fun s w => ?_, fun _ _ h => h.elim⟩
  refine within_mk_ok (fun ev hev slot out hwhat => ?_) ⟨rfl, ?_⟩
  · rcases List.mem_cons.mp hev with rfl | hev
    · cases hwhat
      exact Or.inl rfl
    · rw [List.mem_singleton.mp hev] at hwhat
      cases hwhat
  · -- the context comes out of the slot with the address it was put in with
    have hslot := f.keeps s { w.thread with tlsCx := some w.cx.context }
    show ((f.poll s { w.thread with tlsCx := some w.cx.context }).2.2.tlsCx.getD _).addr = _
    unfold Thread.slot at hslot
    rcases h : (f.poll s { w.thread with tlsCx := some w.cx.context }).2.2.tlsCx with _ | cx
    · rfl
    · rw [h] at hslot
      exact Option.some.inj hslot

/-- From where a component of an `and` is polled. -/
def MaybeDone.Polls {T : Type} (R : σ → World Bd Env → Prop) (m : MaybeDone σ T)
    (w : World Bd Env) : Prop :=
  ∃ s, m = .inFlight s ∧ R s w

theorem slotSpec_maybeDone {f : EndpointAction ε Bd Env σ ts} {R : σ → World Bd Env → Prop}
    (h : SlotSpec f R) : SlotSpec (MaybeDone.action f) (MaybeDone.Polls R) := by
  refine ⟨fun m w => ?_, fun m w hm => ?_⟩
  · unfold MaybeDone.action
    match m with
    | .init _ => exact within_panic
    | .gone => exact within_panic
    | .ready output => exact within_pure (.refl w)
    | .inFlight s =>
      have hs := h.within s w
      refine within_bind ⟨fun ev hev => ?_, fun a ha => ?_⟩
      · exact Event.SlotOf.mono (.refl w) (fun hR => ⟨s, rfl, hR⟩) (hs.log ev hev)
      · have hw := hs.res a ha
        obtain ⟨r, s', w'⟩ := a
        rcases r with err | (output | -) <;> exact within_pure hw
  · obtain ⟨s, rfl, hR⟩ := hm
    exact polledOn_bind (h.reached s w hR)

/-- From where an `and` reaches a future in flight: in the first component, or in the second one
once the first is done. -/
def AndAction.Polls (e1 : EndpointAction ε Bd Env σ ts) (R1 : σ → World Bd Env → Prop)
    (R2 : τ → World Bd Env → Prop) (s : AndAction σ τ ts us) (w : World Bd Env) : Prop :=
  s.f1.Polls R1 w ∨
    ∃ l x f1 w', (MaybeDone.action e1).pollAction s.f1 w = ⟨l, .ok (.ok (.ready x), f1, w')⟩ ∧
      s.f2.Polls R2 w'

theorem slotSpec_and {e1 : EndpointAction ε Bd Env σ ts} {e2 : EndpointAction ε Bd Env τ us}
    {R1 : σ → World Bd Env → Prop} {R2 : τ → World Bd Env → Prop} (h1 : SlotSpec e1 R1)
    (h2 : SlotSpec e2 R2) : SlotSpec (AndAction.action e1 e2) (AndAction.Polls e1 R1 R2) := by
  have h1 := slotSpec_maybeDone h1
  have h2 := slotSpec_maybeDone h2
  refine ⟨fun s w => ?_, fun s w hs => ?_⟩
  · have hleft := within_slot_under (d := .left) (.refl w)
      (fun h => (Or.inl h : AndAction.Polls e1 R1 R2 s w)) (h1.within s.f1 w)
    refine within_bind ⟨hleft.log, fun a ha => ?_⟩
    have hw := hleft.res a ha
    obtain ⟨r1, f1, w1⟩ := a
    rcases r1 with err | (x | -)
    · exact within_pure hw
    · have hpoll : ∃ l, (MaybeDone.action e1).pollAction s.f1 w = ⟨l, .ok (.ok (.ready x), f1, w1)⟩ :=
        ⟨_, Traced.ext rfl ha⟩
      obtain ⟨l, hpoll⟩ := hpoll
      have hright := within_slot_under (d := .right) hw
        (fun h => (Or.inr ⟨l, x, f1, w1, hpoll, h⟩ : AndAction.Polls e1 R1 R2 s w))
        (h2.within s.f2 w1)
      refine within_bind (hright.mono fun b hb => ?_)
      obtain ⟨r2, f2, w2⟩ := b
      have hw2 : w.SameSlot w2 := hw.trans hb
      rcases r2 with err | (y | -)
      · exact within_pure hw2
      · cases f1 with
        | ready v1 =>
          cases f2 with
          | ready v2 => exact within_pure hw2
          | _ => exact within_panic
        | _ => exact within_panic
      · exact within_pure hw2
    · exact within_pure hw
  · rcases hs with hs | ⟨l, x, f1, w1, hpoll, hs⟩
    · exact polledOn_bind (polledOn_under (.refl w) (h1.reached s.f1 w hs))
    · have hw : w.SameSlot w1 := (h1.within s.f1 w).res _ (congrArg Traced.res hpoll)
      have hleft : under .left ((MaybeDone.action e1).pollAction s.f1 w) =
          ⟨l.map (Event.under .left), .ok (.ok (.ready x), f1, w1)⟩ := by
        rw [hpoll]
        rfl
      exact polledOn_bind_right hleft (polledOn_bind (polledOn_under hw (h2.reached s.f2 w1 hs)))

/-- From where `or` and `or_strict` reach a future in flight. -/
def OrState.Polls {L R : Type} (R1 : L → World Bd Env → Prop) (R2 : R → World Bd Env → Prop)
    (s : OrState L R) (w : World Bd Env) : Prop :=
  (∃ t, s = .left t ∧ R1 t w) ∨ ∃ t, s = .right t ∧ R2 t w

/-- A combinator that passes a poll on. -/
theorem slot_passes {e : EndpointAction ε Bd Env σ ts} {R : σ → World Bd Env → Prop}
    (h : SlotSpec e R) {s : σ} {w : World Bd Env} {A : Prop} (hA : R s w → A) (d : Dir)
    {S : Type} (out : Poll (Error ε) (HList ts) → Poll (Error ε) (HList us)) (state : σ → S) :
    Within (Event.SlotOf w A) (do
      let (r, s, w) ← under d (e.pollAction s w)
      return (out r, state s, w)) fun a : _ × S × _ => w.SameSlot a.2.2 := by
  refine within_bind ((within_slot_under (.refl w) hA (h.within s w)).mono ?_)
  exact fun a ha => within_pure ha

theorem slotSpec_orState {us vs : List Type} {c : EndpointAction ε Bd Env (OrState σ τ) vs}
    {e1 : EndpointAction ε Bd Env σ ts} {e2 : EndpointAction ε Bd Env τ us}
    {R1 : σ → World Bd Env → Prop} {R2 : τ → World Bd Env → Prop} (h : OrState.Forwards c e1 e2)
    (h1 : SlotSpec e1 R1) (h2 : SlotSpec e2 R2) : SlotSpec c (OrState.Polls R1 R2) := by
  obtain ⟨out1, -, hleft⟩ := h.left
  obtain ⟨out2, -, hright⟩ := h.right
  refine ⟨fun s w => ?_, fun s w hs => ?_⟩
  · match s with
    | .init s t =>
      obtain ⟨p, hp⟩ := h.init s t w
      rw [hp]
      exact within_panic
    | .done =>
      obtain ⟨p, hp⟩ := h.done w
      rw [hp]
      exact within_panic
    | .left t =>
      rw [hleft]
      have hA : R1 t w → OrState.Polls R1 R2 (.left t) w := fun hR => Or.inl ⟨t, rfl, hR⟩
      exact slot_passes h1 hA .left out1 OrState.left
    | .right t =>
      rw [hright]
      have hA : R2 t w → OrState.Polls R1 R2 (.right t) w := fun hR => Or.inr ⟨t, rfl, hR⟩
      exact slot_passes h2 hA .right out2 OrState.right
  · rcases hs with ⟨t, rfl, hR⟩ | ⟨t, rfl, hR⟩
    · rw [hleft]
      exact polledOn_bind (polledOn_under (.refl w) (h1.reached t w hR))
    · rw [hright]
      exact polledOn_bind (polledOn_under (.refl w) (h2.reached t w hR))

theorem slotSpec_map {U : Type} {e : EndpointAction ε Bd Env σ ts} {R : σ → World Bd Env → Prop}
    (h : SlotSpec e R) (f : HList ts → U) : SlotSpec (MapAction.action e f) R := by
  refine ⟨fun s w => ?_, fun s w hR => ?_⟩
  · exact slot_passes h id .inner (Poll.map _) id
  · exact polledOn_bind (polledOn_under (.refl w) (h.reached s w hR))

theorem slotSpec_mapErr {e : EndpointAction ε Bd Env σ ts} {R : σ → World Bd Env → Prop}
    (h : SlotSpec e R) (f : Error ε → Error ε) : SlotSpec (MapErrAction.action e f) R := by
  refine ⟨fun s w => ?_, fun s w hR => ?_⟩
  · exact slot_passes h id .inner (Poll.mapErr f) id
  · exact polledOn_bind (polledOn_under (.refl w) (h.reached s w hR))

/-- From where an `and_then` or `recover` reaches a future in flight: its own one, which is there or
about to come, or one further inside.  `comes` says of a result of the inner action that the closure
is called on it. -/
def InFlight.Polls {Fut : Type} (e : EndpointAction ε Bd Env σ ts)
    (comes : Poll (Error ε) (HList ts) → Prop) (R : σ → World Bd Env → Prop) (s : InFlight σ Fut)
    (w : World Bd Env) : Prop :=
  s.inFlight.isSome ∨ R s.action w ∨
    ∃ l r action w', e.pollAction s.action w = ⟨l, .ok (r, action, w')⟩ ∧ comes r

theorem slot_callClosure {α Fut : Type} (f : α → Fut) (x : α) (w : World Bd Env) (A : Prop) :
    Within (Event.SlotOf w A) (callClosure f x) fun _ => True := by
  refine within_mk_ok (fun ev hev slot out hwhat => ?_) trivial
  rw [List.mem_singleton.mp hev] at hwhat
  cases hwhat

/-- The future of a closure is polled on the thread as it is. -/
theorem slot_pollInFlight {Fut T : Type} (fut : FutureAction ε Env Fut T) (s : σ) (inFlight : Fut)
    {w w' : World Bd Env} (hw : w.SameSlot w') {A : Prop} (hA : A) :
    Within (Event.SlotOf w A) (pollInFlight fut s inFlight w') fun a => w.SameSlot a.2.2 := by
  refine within_mk_ok (fun ev hev slot out hwhat => ?_) ?_
  · rw [List.mem_singleton.mp hev] at hwhat
    cases hwhat
    exact Or.inr ⟨hA, hw.1⟩
  · exact ⟨(fut.keeps inFlight w'.thread).trans hw.1, hw.2⟩

theorem polledOn_pollInFlight {Fut T : Type} (fut : FutureAction ε Env Fut T) (s : σ)
    (inFlight : Fut) {w w' : World Bd Env} (hw : w.SameSlot w') :
    ∃ ev ∈ (pollInFlight fut s inFlight w').log, ev.PolledOn w := by
  refine ⟨_, List.mem_cons_self, (.of (fut.poll inFlight w'.thread).1 : PollOut), ?_⟩
  show Occurrence.pollFuture w'.thread.slot _ = .pollFuture w.thread.slot _
  rw [hw.1]

theorem slotSpec_inFlight {Fut T α : Type} {c : EndpointAction ε Bd Env (InFlight σ Fut) [T]}
    {e : EndpointAction ε Bd Env σ ts} {fut : FutureAction ε Env Fut T} {f : α → Fut}
    {comes : Poll (Error ε) (HList ts) → Prop} {R : σ → World Bd Env → Prop}
    (hc : InFlight.Continues c e fut f comes) (h : SlotSpec e R) :
    SlotSpec c (InFlight.Polls e comes R) := by
  refine ⟨fun s w => ?_, fun s w hs => ?_⟩
  · obtain ⟨action, inFlight⟩ := s
    cases inFlight with
    | some inFlight =>
      rw [hc.inFlight]
      exact slot_pollInFlight fut action inFlight (.refl w) (Or.inl rfl)
    | none =>
      obtain ⟨k, hk, hnext⟩ := hc.waiting action w
      rw [hk]
      have hR : R action w → InFlight.Polls e comes R ⟨action, (none : Option Fut)⟩ w :=
        fun hR => Or.inr (Or.inl hR)
      have hinner := within_slot_under (d := .inner) (.refl w) hR (h.within action w)
      refine within_bind ⟨hinner.log, fun a ha => ?_⟩
      have hw := hinner.res a ha
      obtain ⟨r, action', w'⟩ := a
      rcases hnext r action' w' with ⟨hr, x, hx⟩ | ⟨-, r', hpure, -⟩
      · have hreached : InFlight.Polls e comes R ⟨action, (none : Option Fut)⟩ w :=
          Or.inr (Or.inr ⟨_, r, action', w', Traced.ext rfl ha, hr⟩)
        rw [hx]
        refine within_bind ((slot_callClosure f x w _).mono fun inFlight _ => ?_)
        exact slot_pollInFlight fut action' inFlight hw hreached
      · rw [hpure]
        exact within_pure hw
  · obtain ⟨action, inFlight⟩ := s
    cases inFlight with
    | some inFlight =>
      rw [hc.inFlight]
      exact polledOn_pollInFlight fut action inFlight (.refl w)
    | none =>
      obtain ⟨k, hk, hnext⟩ := hc.waiting action w
      rw [hk]
      rcases hs with hs | hR | ⟨l, r, action', w', hpoll, hr⟩
      · cases hs
      · exact polledOn_bind (polledOn_under (.refl w) (h.reached action w hR))
      · have hw : w.SameSlot w' := (h.within action w).res _ (congrArg Traced.res hpoll)
        have hinner : under .inner (e.pollAction action w) =
            ⟨l.map (Event.under .inner), .ok (r, action', w')⟩ := by
          rw [hpoll]
          rfl
        refine polledOn_bind_right hinner ?_
        rcases hnext r action' w' with ⟨-, x, hx⟩ | ⟨hnot, -⟩
        · rw [hx]
          exact polledOn_bind_right rfl (polledOn_pollInFlight fut action' (f x) hw)
        · exact absurd hr hnot

namespace Endpoint

/-- From where a poll of an endpoint's action reaches a future that the closure of an `and_then` or
of a `recover` returned. -/
def PollsInFlight : {ts : List Type} → (e : Endpoint ε Bd Env ts) → e.Action → World Bd Env → Prop
  | _, .leaf _ _ _ => fun _ _ => False
  | _, .oneshot _ _ _ => fun _ _ => False
  | _, .future _ _ _ => fun _ _ => False
  | _, .and e1 e2 => AndAction.Polls e1.impl e1.PollsInFlight e2.PollsInFlight
  | _, .or e1 e2 => OrState.Polls e1.PollsInFlight e2.PollsInFlight
  | _, .orStrict e1 e2 => OrState.Polls e1.PollsInFlight e2.PollsInFlight
  | _, .map e _ => e.PollsInFlight
  | _, .mapErr e _ => e.PollsInFlight
  | _, .andThen _ e _ _ => InFlight.Polls e.impl (fun r => ∃ x, r = .ok (.ready x)) e.PollsInFlight
  | _, .recover _ e _ _ => InFlight.Polls e.impl (fun r => ∃ err, r = .error err) e.PollsInFlight
  | _, .boxed e => e.PollsInFlight

/-- What a poll of an endpoint does to the slot. -/
theorem slotSpec (e : Endpoint ε Bd Env ts) : SlotSpec e.impl e.PollsInFlight := by
  induction e with
  | leaf σ a init => exact slotSpec_leaf a
  | oneshot σ a init => exact slotSpec_oneshot a
  | future Fut f init => exact slotSpec_future f
  | and e1 e2 ih1 ih2 => exact slotSpec_and ih1 ih2
  | or e1 e2 ih1 ih2 => exact slotSpec_orState (OrAction.forwards _ _) ih1 ih2
  | orStrict e1 e2 ih1 ih2 => exact slotSpec_orState (OrStrictAction.forwards _ _) ih1 ih2
  | map e f ih => exact slotSpec_map ih f
  | mapErr e f ih => exact slotSpec_mapErr ih f
  | andThen Fut e fut f ih => exact slotSpec_inFlight (AndThenAction.continues _ fut f) ih
  | recover Fut e fut f ih => exact slotSpec_inFlight (RecoverAction.continues _ fut f) ih
  | boxed e ih => exact ih

end Endpoint

/-! ## Runs -/

namespace AppFuture

/-- The next poll of the future reaches a future that the closure of an `and_then` or of a `recover`
returned.  The first poll does so if `preflight` leaves the action in such a state. -/
def PollsInFlight (e : Endpoint ε Bd Env ts) (fut : AppFuture e.Action Bd) (th : Thread Env) :
    Prop :=
  match fut.state with
  | .start none => False
  | .start (some action) => ∃ l s c,
      e.impl.preflight (.new fut.context) action = ⟨l, .ok (.ok .incomplete, s, c)⟩ ∧
        e.PollsInFlight s (fut.world th)
  | .inFlight action => e.PollsInFlight action (fut.world th)

variable {e : Endpoint ε Bd Env ts}

/-- What `poll_apply` does to the slot. -/
theorem within_pollApply (fut : AppFuture e.Action Bd) (th : Thread Env) :
    Within (Event.SlotOf (fut.world th) (PollsInFlight e fut th)) (pollApply e.impl fut th)
      fun a => (fut.world th).SameSlot (a.2.1.world a.2.2) := by
  obtain ⟨state, context, body⟩ := fut
  have hinFlight : ∀ s, Within (Event.SlotOf _ (e.PollsInFlight s ⟨⟨context, body⟩, th⟩))
      (pollInFlight e.impl ⟨state, context, body⟩ s th)
      fun a => World.SameSlot ⟨⟨context, body⟩, th⟩ (a.2.1.world a.2.2) :=
    fun s => within_bind ((e.slotSpec.within s _).mono fun a ha => within_pure ha)
  match state with
  | .start none => exact within_panic
  | .inFlight action => exact hinFlight action
  | .start (some action) =>
    have hearly := e.preflight_early (.new context) action
    refine within_bind ⟨fun ev hev slot out hwhat => ?_, fun a ha => ?_⟩
    · -- no future is polled in `preflight`
      have hev := hearly.log ev hev
      unfold Event.Early at hev
      rw [hwhat] at hev
      exact hev.elim
    · obtain ⟨r, s, c⟩ := a
      rcases r with err | (x | -)
      · exact within_pure (.refl _)
      · exact within_pure (.refl _)
      · obtain ⟨hlog, hres⟩ := hinFlight s
        refine ⟨fun ev hev => Event.SlotOf.mono (.refl _) (fun hR => ?_) (hlog ev hev), hres⟩
        exact ⟨_, s, c, Traced.ext rfl ha, hR⟩

end AppFuture

open AppFuture

end Finchers
