import Finchers.Service
import Finchers.Endpoint.Poll
import Finchers.Lib.Monitor

/-!
# The calls that an action sees

Each place of a tree of combinators has a monitor, which knows the order in which an action may be
called, a closure may be called and the future it returned may be polled.

* `Mark` — where a place is; `Mark.next` — what may happen there next;
* `Conforming` — an action with an invariant between its calls, such that its monitors accept all
  its events and no site of the library panics;
* `andAction_conforming` … — **one lemma for each combinator**, from `Conforming` of its components;
* `Endpoint.conforming` — by induction on the tree;
* `drive_conforms` — **every place of every endpoint sees a conforming sequence of calls in every
  run, and no site of the library panics**.
-/

set_option autoImplicit false

namespace Finchers

open Resumable Transition

variable {ε Bd Env σ τ : Type} {ts us : List Type}

/-! ## Monitors -/

/-- Where a place is: nothing has happened; the action is to be polled; its future is ready, and the
poll that polled it is about to return; a future that a closure returned is to be polled; it is
over. -/
inductive Mark where
  | fresh
  | pending
  | finishing
  | running
  | done
  deriving DecidableEq, Repr

/-- What may happen at a place. -/
def Mark.next : Mark → Occurrence → Option Mark
  | .fresh, .preflight _ .incomplete => some .pending
  | .fresh, .preflight _ _ => some .done
  | .pending, .poll .notReady _ => some .pending
  | .pending, .poll _ _ => some .done
  -- a future that is used as an endpoint is polled within the poll of its action
  | .pending, .pollFuture _ .notReady => some .pending
  | .pending, .pollFuture _ _ => some .finishing
  | .finishing, .poll .notReady _ => none
  | .finishing, .poll _ _ => some .done
  | .fresh, .call => some .running
  | .running, .pollFuture _ .notReady => some .running
  | .running, .pollFuture _ _ => some .done
  | _, _ => none

/-- The monitors of all places. -/
abbrev Marks := Place → Mark

namespace Marks

def fresh : Marks := fun _ => .fresh

/-- The monitors of the component in direction `d`. -/
def sub (m : Marks) (d : Dir) : Marks := fun p => m (d :: p)

/-- The monitors with those of the component in direction `d` replaced. -/
def graft (m : Marks) (d : Dir) (n : Marks) : Marks
  | [] => m []
  | d' :: p => if d' = d then n p else m (d' :: p)

/-- One event, at its place. -/
def step (m : Marks) (e : Event) : Option Marks :=
  (Mark.next (m e.place) e.what).map (fun k => Function.update m e.place k)

@[simp] theorem graft_nil (m n : Marks) (d : Dir) : m.graft d n [] = m [] := rfl

@[simp] theorem graft_sub (m n : Marks) (d : Dir) : (m.graft d n).sub d = n := by
  funext p
  exact if_pos rfl

theorem graft_sub_ne (m n : Marks) {d d' : Dir} (h : d' ≠ d) : (m.graft d n).sub d' = m.sub d' := by
  funext p
  exact if_neg h

theorem graft_self (m : Marks) (d : Dir) : m.graft d (m.sub d) = m := by
  funext p
  cases p with
  | nil => rfl
  | cons d' p =>
    by_cases h : d' = d
    · subst h
      exact if_pos rfl
    · exact if_neg h

theorem step_under {m : Marks} {n n' : Marks} {d : Dir} {e : Event} (h : step n e = some n') :
    step (m.graft d n) (e.under d) = some (m.graft d n') := by
  obtain ⟨k, hk, rfl⟩ := Option.map_eq_some_iff.mp h
  have hmark : m.graft d n (e.under d).place = n e.place := if_pos rfl
  unfold step
  rw [hmark]
  show (Mark.next (n e.place) e.what).map _ = _
  rw [hk]
  show some _ = some _
  congr 1
  funext p
  cases p with
  | nil => exact Function.update_of_ne (by simp [Event.under]) _ _
  | cons d' p =>
    by_cases hd : d' = d
    · subst hd
      show Function.update (m.graft d' n) (d' :: e.place) k (d' :: p) =
        if d' = d' then Function.update n e.place k p else _
      rw [if_pos rfl]
      by_cases hp : p = e.place
      · subst hp
        rw [Function.update_self, Function.update_self]
      · rw [Function.update_of_ne (by simpa using hp), Function.update_of_ne hp]
        exact if_pos rfl
    · show Function.update (m.graft d n) (d :: e.place) k (d' :: p) = if d' = d then _ else _
      rw [if_neg hd, Function.update_of_ne (by simp [hd])]
      exact if_neg hd

end Marks

/-- A panic of the application; no site of the library. -/
def Panic.IsAction (p : Panic) : Prop := ∃ a, p = .action a

/-- The monitors accept the events of `t`, no site of the library panics, and `Q` holds of the result
and the monitors. -/
abbrev Conforms {α : Type} (m : Marks) (t : Traced Panic Event α) (Q : α → Marks → Prop) : Prop :=
  Accepts Marks.step Panic.IsAction m t Q

/-- A component. -/
theorem conforms_under {α : Type} {m : Marks} {d : Dir} {t : Traced Panic Event α}
    {Q : α → Marks → Prop} (h : Conforms (m.sub d) t Q) :
    Conforms m (under d t) fun a m' => ∃ n, m' = m.graft d n ∧ Q a n := by
  have hstep : ∀ {n e n'}, Marks.step n e = some n' →
      Marks.step (m.graft d n) (Event.under d e) = some (m.graft d n') := Marks.step_under
  have hmap := accepts_mapLog hstep h
  rw [Marks.graft_self] at hmap
  exact hmap

/-- A component that has not been called yet. -/
theorem conforms_fresh {α : Type} {m : Marks} {d : Dir} {t : Traced Panic Event α}
    {Q : α → Marks → Prop} (hm : m.sub d = .fresh) (h : Conforms .fresh t Q) :
    Conforms m (under d t) fun a m' => ∃ n, m' = m.graft d n ∧ Q a n := by
  rw [← hm] at h
  exact conforms_under h

/-- An event at the root. -/
theorem Marks.step_root {m : Marks} {o : Occurrence} (k : Mark) (h : Mark.next (m []) o = some k) :
    Marks.step m ⟨[], o⟩ = some (Function.update m [] k) := by
  unfold Marks.step
  rw [h]
  rfl

/-! ## Leaves -/

/-- A new action in the state `init` may be called; between its calls `P` holds of its state and of the
monitors. -/
structure Conforming (f : EndpointAction ε Bd Env σ ts) (init : σ) (P : σ → Marks → Prop) :
    Prop where
  preflight : ∀ cx, Conforms .fresh (f.preflight cx init) fun a m =>
    a.1 = .ok .incomplete → P a.2.1 m
  poll : ∀ s w m, P s m → Conforms m (f.pollAction s w) fun a m' =>
    a.1 = .ok .notReady → P a.2.1 m'

theorem Mark.next_preflight (start : CursorInner) {E T : Type} (r : Except E (Preflight T)) :
    ∃ k, Mark.next .fresh (.preflight start (.of r)) = some k ∧
      (r = .ok .incomplete → k = .pending) := by
  rcases r with e | (x | -)
  · exact ⟨.done, rfl, fun h => by cases h⟩
  · exact ⟨.done, rfl, fun h => by cases h⟩
  · exact ⟨.pending, rfl, fun _ => rfl⟩

theorem Mark.next_poll (took : Bool) {E T : Type} (r : Poll E T) :
    ∃ k, Mark.next .pending (.poll (.of r) took) = some k ∧ (r = .ok .notReady → k = .pending) := by
  match r with
  | .ok (.ready x) => exact ⟨.done, rfl, fun h => by cases h⟩
  | .ok .notReady => exact ⟨.pending, rfl, fun _ => rfl⟩
  | .error e => exact ⟨.done, rfl, fun h => by cases h⟩

theorem leafAction_conforming (a : LeafAction ε Bd Env σ ts) (init : σ) :
    Conforming a.action init fun _ m => m [] = .pending where
  preflight cx := by
    unfold LeafAction.action
    simp only
    split
    · rename_i r s c _
      obtain ⟨k, hk, hpending⟩ := Mark.next_preflight cx.cursor r
      refine accepts_mk_ok (Marks.step_root k hk) fun hr => ?_
      rw [Function.update_self]
      exact hpending hr
    · exact accepts_mk_error (Marks.step_root .done rfl) ⟨_, rfl⟩
  poll s w m hm := by
    unfold LeafAction.action
    simp only
    split
    · rename_i r s' w' _
      obtain ⟨k, hk, hpending⟩ := Mark.next_poll (w.took w') r
      rw [← hm] at hk
      refine accepts_mk_ok (Marks.step_root k hk) fun hr => ?_
      rw [Function.update_self]
      exact hpending hr
    · refine accepts_mk_error (Marks.step_root .done ?_) ⟨_, rfl⟩
      rw [hm]
      rfl

theorem oneshotAction_conforming (a : OneshotAction ε σ ts) (init : σ) :
    Conforming (a.action : EndpointAction ε Bd Env (Option σ) ts) (some init) fun _ _ => False where
  preflight cx := by
    unfold OneshotAction.action
    simp only
    split
    · rename_i r c _
      obtain ⟨k, hk, -⟩ := Mark.next_preflight cx.cursor (r.map Preflight.completed)
      refine accepts_mk_ok (Marks.step_root k hk) fun hr => ?_
      rcases r with e | x <;> cases hr
    · exact accepts_mk_error (Marks.step_root .done rfl) ⟨_, rfl⟩
  poll s w m hm := hm.elim

/-- A poll of a future that is an endpoint, and the end of the poll of its action. -/
theorem Mark.next_pollFuture {m : Marks} (hm : m [] = .pending) (slot : Option Nat) {E T : Type}
    (r : Poll E T) :
    ∃ m', run Marks.step m [⟨[], .pollFuture slot (.of r)⟩, ⟨[], .poll (.of r) false⟩] = some m' ∧
      (r = .ok .notReady → m' [] = .pending) := by
  have hrun : ∀ k k', Mark.next (m []) (.pollFuture slot (.of r)) = some k →
      Mark.next k (.poll (.of r) false) = some k' →
      run Marks.step m [⟨[], .pollFuture slot (.of r)⟩, ⟨[], .poll (.of r) false⟩] =
        some (Function.update (Function.update m [] k) [] k') := by
    intro k k' hk hk'
    refine run_cons.mpr ⟨_, Marks.step_root k hk, run_cons.mpr ⟨_, Marks.step_root k' ?_, rfl⟩⟩
    rw [Function.update_self]
    exact hk'
  match r with
  | .ok (.ready x) => exact ⟨_, hrun .finishing .done (by rw [hm]; rfl) rfl, fun h => by cases h⟩
  | .ok .notReady =>
    refine ⟨_, hrun .pending .pending (by rw [hm]; rfl) rfl, fun _ => ?_⟩
    rw [Function.update_self]
  | .error e => exact ⟨_, hrun .finishing .done (by rw [hm]; rfl) rfl, fun h => by cases h⟩

theorem futureAction_conforming {Fut : Type} (f : FutureAction ε Env Fut (HList ts)) (init : Fut) :
    Conforming (f.action : EndpointAction ε Bd Env Fut ts) init fun _ m => m [] = .pending where
  preflight cx := by
    refine accepts_mk_ok (Marks.step_root .pending rfl) fun _ => ?_
    rw [Function.update_self]
  poll s w m hm := by
    unfold FutureAction.action
    simp only
    obtain ⟨m', hrun, hpending⟩ := Mark.next_pollFuture hm (some w.cx.context.addr)
      (w.cx.context.set w.thread (fun th => (((f.poll s th).1, (f.poll s th).2.1),
        (f.poll s th).2.2))).1.1
    exact ⟨⟨m', hrun, fun a ha => by cases ha; exact hpending⟩, fun p hp => by cases hp⟩

/-! ## Combinators -/

/-- A side of an `and` between its calls: it is to be polled, or its output is there. -/
def MaybeDone.Between (P : σ → Marks → Prop) {T : Type} (s : MaybeDone σ T) (m : Marks) : Prop :=
  (∃ t, s = .inFlight t ∧ P t m) ∨ ∃ x, s = .ready x

theorem maybeDone_preflight {f : EndpointAction ε Bd Env σ ts} {init : σ} {P : σ → Marks → Prop}
    (hf : Conforming f init P) (cx : PreflightContext) :
    Conforms .fresh ((MaybeDone.action f).preflight cx (.init (some init))) fun a m =>
      ∀ x, a.1 = .ok x → x = .incomplete ∧ a.2.1.Between P m := by
  refine accepts_bind ((hf.preflight cx).mono ?_)
  intro a m ha
  obtain ⟨r, s, c⟩ := a
  rcases r with e | (x | -)
  · exact accepts_pure fun _ hx => by cases hx
  · refine accepts_pure fun _ hx => ?_
    cases hx
    exact ⟨rfl, Or.inr ⟨x, rfl⟩⟩
  · refine accepts_pure fun _ hx => ?_
    cases hx
    exact ⟨rfl, Or.inl ⟨s, rfl, ha rfl⟩⟩

theorem maybeDone_poll {f : EndpointAction ε Bd Env σ ts} {init : σ} {P : σ → Marks → Prop}
    (hf : Conforming f init P) {s : MaybeDone σ (HList ts)} {m : Marks} (hs : s.Between P m)
    (w : World Bd Env) :
    Conforms m ((MaybeDone.action f).pollAction s w) fun a m' =>
      (a.1 = .ok .notReady → a.2.1.Between P m') ∧
      (∀ u, a.1 = .ok (.ready u) → ∃ x, a.2.1 = .ready x) := by
  rcases hs with ⟨t, rfl, ht⟩ | ⟨x, rfl⟩
  · refine accepts_bind ((hf.poll t w m ht).mono ?_)
    intro a m' ha
    obtain ⟨r, t', w'⟩ := a
    match r with
    | .ok .notReady =>
      exact accepts_pure ⟨fun _ => Or.inl ⟨t', rfl, ha rfl⟩, fun _ hu => by cases hu⟩
    | .error e => exact accepts_pure ⟨fun hr => (by cases hr), fun _ hu => by cases hu⟩
    | .ok (.ready x) => exact accepts_pure ⟨fun hr => (by cases hr), fun _ _ => ⟨x, rfl⟩⟩
  · exact accepts_pure ⟨fun hr => (by cases hr), fun _ _ => ⟨x, rfl⟩⟩

theorem andAction_conforming {e1 : EndpointAction ε Bd Env σ ts} {e2 : EndpointAction ε Bd Env τ us}
    {i1 : σ} {i2 : τ} {P1 : σ → Marks → Prop} {P2 : τ → Marks → Prop} (h1 : Conforming e1 i1 P1)
    (h2 : Conforming e2 i2 P2) :
    Conforming (AndAction.action e1 e2) ⟨.init (some i1), .init (some i2)⟩ fun s m =>
      s.f1.Between P1 (m.sub .left) ∧ s.f2.Between P2 (m.sub .right) where
  preflight cx := by
    refine accepts_bind ((conforms_fresh rfl (maybeDone_preflight h1 cx)).mono ?_)
    intro a m ha
    obtain ⟨n1, rfl, ha⟩ := ha
    obtain ⟨r1, f1, c⟩ := a
    rcases r1 with e | x1
    · exact accepts_pure fun hr => by cases hr
    obtain ⟨rfl, hf1⟩ := ha x1 rfl
    have hright : (Marks.fresh.graft .left n1).sub .right = Marks.fresh :=
      Marks.graft_sub_ne _ _ (by decide)
    refine accepts_bind ((conforms_fresh hright (maybeDone_preflight h2 _)).mono ?_)
    intro a m ha
    obtain ⟨n2, rfl, ha⟩ := ha
    obtain ⟨r2, f2, c2⟩ := a
    rcases r2 with e | x2
    · exact accepts_pure fun hr => by cases hr
    obtain ⟨rfl, hf2⟩ := ha x2 rfl
    refine accepts_pure fun _ => ⟨?_, ?_⟩
    · rw [Marks.graft_sub_ne _ _ (by decide), Marks.graft_sub]
      exact hf1
    · rw [Marks.graft_sub]
      exact hf2
  poll s w m hm := by
    obtain ⟨hs1, hs2⟩ := hm
    refine accepts_bind ((conforms_under (maybeDone_poll h1 hs1 w)).mono ?_)
    intro a m' ha
    obtain ⟨n1, rfl, hn, hr⟩ := ha
    obtain ⟨r1, f1, w1⟩ := a
    have hright : (m.graft .left n1).sub .right = m.sub .right :=
      Marks.graft_sub_ne _ _ (by decide)
    match r1 with
    | .ok .notReady =>
      refine accepts_pure fun _ => ⟨?_, ?_⟩
      · rw [Marks.graft_sub]
        exact hn rfl
      · rw [hright]
        exact hs2
    | .error e => exact accepts_pure fun hr => by cases hr
    | .ok (.ready u) =>
      obtain ⟨x1, hx1⟩ := hr u rfl
      simp only at hx1
      subst hx1
      rw [← hright] at hs2
      refine accepts_bind ((conforms_under (maybeDone_poll h2 hs2 w1)).mono ?_)
      intro a m' ha
      obtain ⟨n2, rfl, hn2, hr2⟩ := ha
      obtain ⟨r2, f2, w2⟩ := a
      match r2 with
      | .ok .notReady =>
        refine accepts_pure fun _ => ⟨Or.inr ⟨x1, rfl⟩, ?_⟩
        rw [Marks.graft_sub]
        exact hn2 rfl
      | .error e => exact accepts_pure fun hr => by cases hr
      | .ok (.ready u2) =>
        obtain ⟨x2, hx2⟩ := hr2 u2 rfl
        simp only at hx2
        subst hx2
        exact accepts_pure fun hr => by cases hr

/-- What `or` and `or_strict` poll. -/
def OrState.Between {L R : Type} (P1 : L → Marks → Prop) (P2 : R → Marks → Prop) (s : OrState L R)
    (m : Marks) : Prop :=
  (∃ t, s = .left t ∧ P1 t (m.sub .left)) ∨ ∃ t, s = .right t ∧ P2 t (m.sub .right)

/-- A poll that is passed on to a component. -/
theorem passes_conforms {S : Type} {e : EndpointAction ε Bd Env σ ts} {i : σ} {P : σ → Marks → Prop}
    (h : Conforming e i P) (d : Dir) {out : Poll (Error ε) (HList ts) → Poll (Error ε) (HList us)}
    (hout : ∀ {r}, out r = .ok .notReady → r = .ok .notReady) (state : σ → S) {s : σ}
    (w : World Bd Env) {m : Marks} (hm : P s (m.sub d)) :
    Conforms m (do
      let (r, s, w) ← under d (e.pollAction s w)
      return (out r, state s, w)) fun a : _ × S × _ => fun m' =>
        a.1 = .ok .notReady → ∃ s', a.2.1 = state s' ∧ P s' (m'.sub d) := by
  refine accepts_bind ((conforms_under (h.poll s w _ hm)).mono ?_)
  intro a m' ha
  obtain ⟨n, rfl, ha⟩ := ha
  refine accepts_pure fun hr => ⟨_, rfl, ?_⟩
  rw [Marks.graft_sub]
  exact ha (hout hr)

/-- A poll that is passed on to the side that was selected. -/
theorem orState_poll_conforms {vs : List Type} {c : EndpointAction ε Bd Env (OrState σ τ) vs}
    {e1 : EndpointAction ε Bd Env σ ts} {e2 : EndpointAction ε Bd Env τ us} {i1 : σ} {i2 : τ}
    {P1 : σ → Marks → Prop} {P2 : τ → Marks → Prop} (h : OrState.Forwards c e1 e2)
    (h1 : Conforming e1 i1 P1) (h2 : Conforming e2 i2 P2) (s : OrState σ τ) (w : World Bd Env)
    (m : Marks) (hm : OrState.Between P1 P2 s m) :
    Conforms m (c.pollAction s w) fun a m' =>
      a.1 = .ok .notReady → OrState.Between P1 P2 a.2.1 m' := by
  rcases hm with ⟨t, rfl, ht⟩ | ⟨t, rfl, ht⟩
  · obtain ⟨out, hout, hleft⟩ := h.left
    rw [hleft]
    exact (passes_conforms h1 .left hout OrState.left w ht).mono fun a m' ha hr => Or.inl (ha hr)
  · obtain ⟨out, hout, hright⟩ := h.right
    rw [hright]
    exact (passes_conforms h2 .right hout OrState.right w ht).mono fun a m' ha hr => Or.inr (ha hr)

theorem orAction_conforming {T1 T2 : Type} {e1 : EndpointAction ε Bd Env σ [T1]}
    {e2 : EndpointAction ε Bd Env τ [T2]} {i1 : σ} {i2 : τ} {P1 : σ → Marks → Prop}
    {P2 : τ → Marks → Prop} (h1 : Conforming e1 i1 P1) (h2 : Conforming e2 i2 P2) :
    Conforming (OrAction.action e1 e2) (.init i1 i2) (OrState.Between P1 P2) where
  preflight cx := by
    refine accepts_bind ((conforms_fresh rfl (h1.preflight cx)).mono ?_)
    intro a m ha
    obtain ⟨n1, rfl, ha1⟩ := ha
    obtain ⟨r1, s1, c1⟩ := a
    have hright : (Marks.fresh.graft .left n1).sub .right = Marks.fresh :=
      Marks.graft_sub_ne _ _ (by decide)
    refine accepts_bind ((conforms_fresh hright (h2.preflight cx)).mono ?_)
    intro a m ha
    obtain ⟨n2, rfl, ha2⟩ := ha
    obtain ⟨r2, s2, c2⟩ := a
    -- the state is that of a side only if that side's `preflight` was incomplete
    have hleft : r1 = .ok .incomplete → OrState.Between P1 P2 (OrState.left s1 : OrState σ τ)
        ((Marks.fresh.graft .left n1).graft .right n2) := by
      intro hr
      refine Or.inl ⟨s1, rfl, ?_⟩
      rw [Marks.graft_sub_ne _ _ (by decide), Marks.graft_sub]
      exact ha1 hr
    have hright : r2 = .ok .incomplete → OrState.Between P1 P2 (OrState.right s2 : OrState σ τ)
        ((Marks.fresh.graft .left n1).graft .right n2) := by
      intro hr
      refine Or.inr ⟨s2, rfl, ?_⟩
      rw [Marks.graft_sub]
      exact ha2 hr
    rcases r1 with e1 | (x1 | -)
    · rcases r2 with e2 | (x2 | -)
      · exact accepts_pure fun hr => by cases hr
      · exact accepts_pure fun hr => by cases hr
      · exact accepts_pure fun _ => hright rfl
    · rcases r2 with e2 | (x2 | -)
      · exact accepts_pure fun hr => by cases hr
      · simp only
        split <;> exact accepts_pure fun hr => by cases hr
      · simp only
        split
        · exact accepts_pure fun hr => by cases hr
        · exact accepts_pure fun _ => hright rfl
    · rcases r2 with e2 | (x2 | -)
      · exact accepts_pure fun _ => hleft rfl
      · simp only
        split
        · exact accepts_pure fun _ => hleft rfl
        · exact accepts_pure fun hr => by cases hr
      · simp only
        split
        · exact accepts_pure fun _ => hleft rfl
        · exact accepts_pure fun _ => hright rfl
  poll := orState_poll_conforms (OrAction.forwards e1 e2) h1 h2

theorem orStrictAction_conforming {e1 : EndpointAction ε Bd Env σ ts}
    {e2 : EndpointAction ε Bd Env τ ts} {i1 : σ} {i2 : τ} {P1 : σ → Marks → Prop}
    {P2 : τ → Marks → Prop} (h1 : Conforming e1 i1 P1) (h2 : Conforming e2 i2 P2) :
    Conforming (OrStrictAction.action e1 e2) (.init i1 i2) (OrState.Between P1 P2) where
  preflight cx := by
    refine accepts_bind ((conforms_fresh rfl (h1.preflight cx)).mono ?_)
    intro a m ha
    obtain ⟨n1, rfl, ha1⟩ := ha
    obtain ⟨r1, s1, c1⟩ := a
    rcases r1 with e | (x | -)
    · have hright : (Marks.fresh.graft .left n1).sub .right = Marks.fresh :=
        Marks.graft_sub_ne _ _ (by decide)
      refine accepts_bind ((conforms_fresh hright (h2.preflight _)).mono ?_)
      intro a m ha
      obtain ⟨n2, rfl, ha2⟩ := ha
      obtain ⟨r2, s2, c2⟩ := a
      rcases r2 with e2 | (x2 | -)
      · exact accepts_pure fun hr => by cases hr
      · exact accepts_pure fun hr => by cases hr
      · refine accepts_pure fun _ => Or.inr ⟨s2, rfl, ?_⟩
        rw [Marks.graft_sub]
        exact ha2 rfl
    · exact accepts_pure fun hr => by cases hr
    · refine accepts_pure fun _ => Or.inl ⟨s1, rfl, ?_⟩
      rw [Marks.graft_sub]
      exact ha1 rfl
  poll := orState_poll_conforms (OrStrictAction.forwards e1 e2) h1 h2

/-- A combinator that passes the calls on to its inner action and rewrites the answers. -/
theorem rewrites_conforming {e : EndpointAction ε Bd Env σ ts} {e' : EndpointAction ε Bd Env σ us}
    {i : σ} {P : σ → Marks → Prop} (h : Conforming e i P)
    {k : Except (Error ε) (Preflight (HList ts)) → Except (Error ε) (Preflight (HList us))}
    {kp : Poll (Error ε) (HList ts) → Poll (Error ε) (HList us)}
    (hk : ∀ {r}, k r = .ok .incomplete → r = .ok .incomplete)
    (hkp : ∀ {r}, kp r = .ok .notReady → r = .ok .notReady)
    (hpre : ∀ cx s, e'.preflight cx s = (do
      let (r, s, c) ← under .inner (e.preflight cx s)
      return (k r, s, c)))
    (hpoll : ∀ s w, e'.pollAction s w = (do
      let (r, s, w) ← under .inner (e.pollAction s w)
      return (kp r, s, w))) :
    Conforming e' i fun s m => P s (m.sub .inner) where
  preflight cx := by
    rw [hpre]
    refine accepts_bind ((conforms_fresh rfl (h.preflight cx)).mono ?_)
    intro a m ha
    obtain ⟨n, rfl, ha⟩ := ha
    refine accepts_pure fun hr => ?_
    rw [Marks.graft_sub]
    exact ha (hk hr)
  poll s w m hm := by
    rw [hpoll]
    refine (passes_conforms h .inner hkp id w hm).mono fun a m' ha hr => ?_
    obtain ⟨s', hs, hP⟩ := ha hr
    rw [hs]
    exact hP

theorem mapAction_conforming {U : Type} {e : EndpointAction ε Bd Env σ ts} {i : σ}
    {P : σ → Marks → Prop} (h : Conforming e i P) (f : HList ts → U) :
    Conforming (MapAction.action e f) i fun s m => P s (m.sub .inner) := by
  refine rewrites_conforming h (fun {r} hr => ?_) Poll.map_eq_notReady (fun _ _ => rfl)
    fun _ _ => rfl
  rcases r with e | (x | -)
  · cases hr
  · cases hr
  · rfl

theorem mapErrAction_conforming {e : EndpointAction ε Bd Env σ ts} {i : σ}
    {P : σ → Marks → Prop} (h : Conforming e i P) (f : Error ε → Error ε) :
    Conforming (MapErrAction.action e f) i fun s m => P s (m.sub .inner) := by
  refine rewrites_conforming h (fun {r} hr => ?_) Poll.mapErr_eq_notReady (fun _ _ => rfl)
    fun _ _ => rfl
  rcases r with e | x
  · cases hr
  · cases hr
    rfl

/-- What `and_then` and `recover` poll: the action, before the closure is called, and the future
after. -/
def InFlight.Between {Fut : Type} (P : σ → Marks → Prop) (s : InFlight σ Fut) (m : Marks) : Prop :=
  (s.inFlight = none ∧ m [] = .fresh ∧ P s.action (m.sub .inner)) ∨
    (s.inFlight.isSome = true ∧ m [] = .running)

/-- The future is polled. -/
theorem pollInFlight_conforms {Fut T : Type} (fut : FutureAction ε Env Fut T) (P : σ → Marks → Prop)
    (action : σ) (inFlight : Fut) (w : World Bd Env) {m : Marks} (hm : m [] = .running) :
    Conforms m (pollInFlight fut action inFlight w) fun a m' =>
      a.1 = .ok .notReady → InFlight.Between P a.2.1 m' := by
  unfold pollInFlight FutureAction.pollInFlight
  obtain ⟨r, f, th⟩ := fut.poll inFlight w.thread
  have hnext : ∃ k, Mark.next (m []) (.pollFuture w.thread.slot (.of r)) = some k ∧
      (r = .ok .notReady → k = .running) := by
    rw [hm]
    match r with
    | .ok (.ready x) => exact ⟨.done, rfl, fun h => by cases h⟩
    | .ok .notReady => exact ⟨.running, rfl, fun _ => rfl⟩
    | .error e => exact ⟨.done, rfl, fun h => by cases h⟩
  obtain ⟨k, hk, hrunning⟩ := hnext
  refine accepts_bind (accepts_mk_ok (Marks.step_root k hk) (accepts_pure fun hr => Or.inr ⟨rfl, ?_⟩))
  rw [Function.update_self]
  exact hrunning (Poll.map_eq_notReady hr)

/-- The closure is called. -/
theorem callClosure_conforms {α Fut : Type} (f : α → Fut) (x : α) {m : Marks} (hm : m [] = .fresh) :
    Conforms m (callClosure f x) fun _ m' => m' [] = .running := by
  have hnext : Mark.next (m []) .call = some .running := by
    rw [hm]
    rfl
  refine accepts_bind (accepts_emit (Marks.step_root .running hnext) (accepts_pure ?_))
  exact Function.update_self _ _ _

/-- The inner action is polled, and the closure is called if its result brings a future; or the future
is polled. -/
theorem inFlight_poll_conforms {Fut T α : Type} {c : EndpointAction ε Bd Env (InFlight σ Fut) [T]}
    {e : EndpointAction ε Bd Env σ ts} {fut : FutureAction ε Env Fut T} {f : α → Fut}
    {comes : Poll (Error ε) (HList ts) → Prop} {i : σ} {P : σ → Marks → Prop}
    (hc : InFlight.Continues c e fut f comes) (h : Conforming e i P) (s : InFlight σ Fut)
    (w : World Bd Env) (m : Marks) (hm : InFlight.Between P s m) :
    Conforms m (c.pollAction s w) fun a m' =>
      a.1 = .ok .notReady → InFlight.Between P a.2.1 m' := by
  obtain ⟨action, inFlight⟩ := s
  rcases hm with ⟨hnone, hroot, hP⟩ | ⟨hsome, hroot⟩
  · simp only at hnone
    subst hnone
    obtain ⟨k, hk, hnext⟩ := hc.waiting action w
    rw [hk]
    refine accepts_bind ((conforms_under (h.poll action w _ hP)).mono ?_)
    intro a m' ha
    obtain ⟨n, rfl, ha⟩ := ha
    obtain ⟨r, action', w'⟩ := a
    rcases hnext r action' w' with ⟨-, x, hx⟩ | ⟨-, r', hpure, hr'⟩
    · rw [hx]
      have hroot' : m.graft .inner n [] = .fresh := hroot
      refine accepts_bind ((callClosure_conforms f x hroot').mono fun fl m' hm' => ?_)
      exact pollInFlight_conforms fut P action' fl w' hm'
    · rw [hpure]
      refine accepts_pure fun hr => Or.inl ⟨rfl, hroot, ?_⟩
      rw [Marks.graft_sub]
      exact ha (hr' hr)
  · obtain ⟨fl, rfl⟩ := Option.isSome_iff_exists.mp hsome
    rw [hc.inFlight]
    exact pollInFlight_conforms fut P action fl w hroot

theorem andThenAction_conforming {Fut T : Type} {e : EndpointAction ε Bd Env σ ts} {i : σ}
    {P : σ → Marks → Prop} (h : Conforming e i P) (fut : FutureAction ε Env Fut T)
    (f : HList ts → Fut) :
    Conforming (AndThenAction.action e fut f) ⟨i, none⟩ (InFlight.Between P) where
  preflight cx := by
    refine accepts_bind ((conforms_fresh rfl (h.preflight cx)).mono ?_)
    intro a m ha
    obtain ⟨n, rfl, ha⟩ := ha
    obtain ⟨r, s, c⟩ := a
    rcases r with e | (x | -)
    · exact accepts_pure fun hr => by cases hr
    · refine accepts_bind ((callClosure_conforms f x rfl).mono fun inFlight m' hm' => ?_)
      exact accepts_pure fun _ => Or.inr ⟨rfl, hm'⟩
    · refine accepts_pure fun _ => Or.inl ⟨rfl, rfl, ?_⟩
      rw [Marks.graft_sub]
      exact ha rfl
  poll := inFlight_poll_conforms (AndThenAction.continues e fut f) h

theorem recoverAction_conforming {Fut T : Type} {e : EndpointAction ε Bd Env σ [T]} {i : σ}
    {P : σ → Marks → Prop} (h : Conforming e i P) (fut : FutureAction ε Env Fut T)
    (f : Error ε → Fut) :
    Conforming (RecoverAction.action e fut f) ⟨i, none⟩ (InFlight.Between P) where
  preflight cx := by
    refine accepts_bind ((conforms_fresh rfl (h.preflight cx)).mono ?_)
    intro a m ha
    obtain ⟨n, rfl, ha⟩ := ha
    obtain ⟨r, s, c⟩ := a
    rcases r with err | (x | -)
    · refine accepts_bind ((callClosure_conforms f err rfl).mono fun inFlight m' hm' => ?_)
      exact accepts_pure fun _ => Or.inr ⟨rfl, hm'⟩
    · exact accepts_pure fun hr => by cases hr
    · refine accepts_pure fun _ => Or.inl ⟨rfl, rfl, ?_⟩
      rw [Marks.graft_sub]
      exact ha rfl
  poll := inFlight_poll_conforms (RecoverAction.continues e fut f) h

/-! ## Endpoints and runs -/

theorem Endpoint.conforming (e : Endpoint ε Bd Env ts) : ∃ P, Conforming e.impl e.spawn P := by
  induction e with
  | leaf σ a init => exact ⟨_, leafAction_conforming a init⟩
  | oneshot σ a init => exact ⟨_, oneshotAction_conforming a init⟩
  | future Fut f init => exact ⟨_, futureAction_conforming f init⟩
  | and e1 e2 ih1 ih2 =>
    obtain ⟨P1, h1⟩ := ih1
    obtain ⟨P2, h2⟩ := ih2
    exact ⟨_, andAction_conforming h1 h2⟩
  | or e1 e2 ih1 ih2 =>
    obtain ⟨P1, h1⟩ := ih1
    obtain ⟨P2, h2⟩ := ih2
    exact ⟨_, orAction_conforming h1 h2⟩
  | orStrict e1 e2 ih1 ih2 =>
    obtain ⟨P1, h1⟩ := ih1
    obtain ⟨P2, h2⟩ := ih2
    exact ⟨_, orStrictAction_conforming h1 h2⟩
  | map e f ih =>
    obtain ⟨P, h⟩ := ih
    exact ⟨_, mapAction_conforming h f⟩
  | mapErr e f ih =>
    obtain ⟨P, h⟩ := ih
    exact ⟨_, mapErrAction_conforming h f⟩
  | andThen Fut e fut f ih =>
    obtain ⟨P, h⟩ := ih
    exact ⟨_, andThenAction_conforming h fut f⟩
  | recover Fut e fut f ih =>
    obtain ⟨P, h⟩ := ih
    exact ⟨_, recoverAction_conforming h fut f⟩
  | boxed e ih => exact ih

namespace AppFuture

/-- The future between its polls. -/
def Between {Bd : Type} (P : σ → Marks → Prop) (fut : AppFuture σ Bd) (m : Marks) : Prop :=
  ∃ s, fut.state = .inFlight s ∧ P s m

theorem pollInFlight_between {f : EndpointAction ε Bd Env σ ts} {init : σ} {P : σ → Marks → Prop}
    (hf : Conforming f init P) (fut : AppFuture σ Bd) {s : σ} (th : Thread Env) {m : Marks}
    (hs : P s m) :
    Conforms m (pollInFlight f fut s th) fun a m' => a.1 = .ok .notReady → a.2.1.Between P m' := by
  refine accepts_bind ((hf.poll s (fut.world th) m hs).mono ?_)
  intro a m' ha
  exact accepts_pure fun hr => ⟨_, rfl, ha hr⟩

theorem pollApply_between {f : EndpointAction ε Bd Env σ ts} {init : σ} {P : σ → Marks → Prop}
    (hf : Conforming f init P) {fut : AppFuture σ Bd} (th : Thread Env) {m : Marks}
    (hfut : (fut.state = .start (some init) ∧ m = .fresh) ∨ fut.Between P m) :
    Conforms m (pollApply f fut th) fun a m' => a.1 = .ok .notReady → a.2.1.Between P m' := by
  unfold pollApply
  rcases hfut with ⟨hstart, rfl⟩ | ⟨s, hs, hP⟩
  · rw [hstart]
    refine accepts_bind ((hf.preflight _).mono ?_)
    intro a m ha
    obtain ⟨r, s, c⟩ := a
    rcases r with e | (x | -)
    · exact accepts_pure fun hr => by cases hr
    · exact accepts_pure fun hr => by cases hr
    · exact pollInFlight_between hf fut th (ha rfl)
  · rw [hs]
    exact pollInFlight_between hf fut th hP

theorem drive_between {f : EndpointAction ε Bd Env σ ts} {init : σ} {P : σ → Marks → Prop}
    (hf : Conforming f init P) (gs : List (Thread Env → Thread Env)) (fut : AppFuture σ Bd)
    (th : Thread Env) {m : Marks}
    (hfut : (fut.state = .start (some init) ∧ m = .fresh) ∨ fut.Between P m) :
    Conforms m (drive f gs fut th) fun _ _ => True := by
  induction gs generalizing fut th m with
  | nil => exact accepts_pure trivial
  | cons g gs ih =>
    refine accepts_bind ((pollApply_between hf (g th) hfut).mono ?_)
    intro a m' ha
    obtain ⟨r, fut', th'⟩ := a
    match r with
    | .ok (.ready x) => exact accepts_pure trivial
    | .error e => exact accepts_pure trivial
    | .ok .notReady => exact ih fut' th' (Or.inr (ha rfl))

end AppFuture

/-- What happened at a place, in order. -/
def occurrencesAt (p : Place) (log : List Event) : List Occurrence :=
  (log.filter fun e => e.place == p).map (·.what)

/-- The monitor of a place reads what happens there. -/
theorem run_occurrencesAt {m m' : Marks} {log : List Event} (h : run Marks.step m log = some m')
    (p : Place) : run Mark.next (m p) (occurrencesAt p log) = some (m' p) := by
  unfold occurrencesAt
  induction log generalizing m with
  | nil =>
    cases h
    rfl
  | cons e log ih =>
    obtain ⟨m₁, h₁, h⟩ := run_cons.mp h
    obtain ⟨k, hk, rfl⟩ := Option.map_eq_some_iff.mp h₁
    have hrest := ih h
    by_cases hp : e.place = p
    · subst hp
      rw [Function.update_self] at hrest
      rw [List.filter_cons_of_pos (by simp), List.map_cons]
      exact run_cons.mpr ⟨k, hk, hrest⟩
    · rw [Function.update_of_ne (Ne.symm hp)] at hrest
      rw [List.filter_cons_of_neg (by simpa using hp)]
      exact hrest

/-- **Every place of every endpoint sees a conforming sequence of calls**, in every run of every
request, however often it is polled: `preflight` at most once and first, `poll_action` only after an
incomplete `preflight`, a closure at most once, its future only after it, and nothing after the
end.  No site of the library panics: if anything does, it is an action of the application. -/
theorem drive_conforms (e : Endpoint ε Bd Env ts) (addr : Nat) (request : Request) (body : Bd)
    (gs : List (Thread Env → Thread Env)) (th : Thread Env) :
    (∀ p, ∃ k, run Mark.next .fresh (occurrencesAt p
      (AppFuture.drive e.impl gs (.dispatch e addr request body) th).log) = some k) ∧
    ∀ s, (AppFuture.drive e.impl gs (.dispatch e addr request body) th).res ≠ .error (.site s) := by
  obtain ⟨P, hP⟩ := e.conforming
  obtain ⟨⟨m', hrun, -⟩, hres⟩ := AppFuture.drive_between hP gs (.dispatch e addr request body) th
    (Or.inl ⟨rfl, rfl⟩)
  refine ⟨fun p => ⟨m' p, run_occurrencesAt hrun p⟩, fun s hs => ?_⟩
  obtain ⟨a, ha⟩ := hres _ hs
  cases ha

end Finchers
