import Finchers.Direct
import Finchers.Endpoint.Preflight

/-!
# The state machines against the direct style

* `*.run_*` — for each combinator, the meaning of its state machine in a state of the second phase;
* `Follows`, `Endpoint.follows` — by induction on the endpoint: `preflight` of a new action
  agrees with `direct`, and a state it leaves incomplete means the computation left to do;
* `Endpoint.evaluate_functional` — the direct style has at most one result;
* `Endpoint.yields_iff` — **a run of an endpoint yields what its direct style evaluates to.**
-/

set_option autoImplicit false

namespace Finchers

open Resumable

variable {ε Bd Env σ τ T U : Type} {ts us : List Type} {g : Thread Env → Thread Env}

/-! ## What is observed of an event -/

@[simp] theorem Event.takes_under (d : Dir) (e : Event) :
    (e.under d).takes = e.takes.map (d :: ·) := by
  obtain ⟨p, what⟩ := e
  match what with
  | .poll _ true => rfl
  | .poll _ false => rfl
  | .preflight _ _ => rfl
  | .call => rfl
  | .pollFuture _ _ => rfl

/-- No event of the log took the body. -/
def Quiet (l : List Event) : Prop := l.filterMap Event.takes = []

theorem Quiet.under {l : List Event} (h : Quiet l) (d : Dir) : Quiet (l.map (Event.under d)) := by
  unfold Quiet at *
  have hd : l.filterMap (Event.takes ∘ Event.under d) = (l.filterMap Event.takes).map (d :: ·) := by
    rw [List.map_filterMap]
    exact List.filterMap_congr fun e _ => e.takes_under d
  rw [List.filterMap_map, hd, h, List.map_nil]

theorem Quiet.append {l l' : List Event} (h : Quiet l) (h' : Quiet l') : Quiet (l ++ l') := by
  unfold Quiet at *
  rw [List.filterMap_append, h, h', List.append_nil]

theorem quiet_preflight (p : Place) (start : CursorInner) (out : PreflightOut) :
    Quiet [⟨p, .preflight start out⟩] := rfl

theorem quiet_call (p : Place) : Quiet [⟨p, .call⟩] := rfl

/-- The meaning of a component, its events seen from its combinator. -/
theorem Eval.ofPoll_under (d : Dir) (poll : PollFn Panic Event (Error ε) σ (World Bd Env) T)
    (s : σ) : ofPoll g (fun s w => Finchers.under d (poll s w)) s = (ofPoll g poll s).placed d :=
  Comp.run_mapLog (Event.takes_under d) poll s

/-! ## Combinators that pass every poll on -/

/-- A combinator that passes every poll on and rewrites the output. -/
theorem Eval.ofPoll_map {A : PollFn Panic Event (Error ε) σ (World Bd Env) T}
    {M : PollFn Panic Event (Error ε) τ (World Bd Env) U} (i : σ → τ) {d : Dir} {f : T → U}
    (hM : ∀ s w, M (i s) w = do
      let (r, s, w) ← under d (A s w)
      return (r.map f, i s, w)) (s : σ) :
    ofPoll g M (i s) = ((ofPoll g A s).placed d).mapResult (Except.map f) := by
  rw [← ofPoll_under]
  exact Comp.run_mapPoll i _ rfl (Poll.map_ofResult f) hM s

theorem MapAction.ofPoll_eq (e : EndpointAction ε Bd Env σ ts) (f : HList ts → U) (s : σ) :
    Eval.ofPoll g (MapAction.action e f).pollAction s =
      ((Eval.ofPoll g e.pollAction s).placed .inner).mapResult
        (Except.map fun x => .single (f x)) :=
  Eval.ofPoll_map id (fun _ _ => rfl) s

theorem MapErrAction.ofPoll_eq (e : EndpointAction ε Bd Env σ ts) (f : Error ε → Error ε) (s : σ) :
    Eval.ofPoll g (MapErrAction.action e f).pollAction s =
      ((Eval.ofPoll g e.pollAction s).placed .inner).mapResult (Except.mapError f) := by
  rw [← Eval.ofPoll_under]
  exact Comp.run_mapPoll id _ rfl (Poll.mapErr_ofResult f) (fun _ _ => rfl) s

theorem OrAction.ofPoll_left {T1 T2 : Type} (e1 : EndpointAction ε Bd Env σ [T1])
    (e2 : EndpointAction ε Bd Env τ [T2]) (s : σ) :
    Eval.ofPoll g (OrAction.action e1 e2).pollAction (.left s) =
      ((Eval.ofPoll g e1.pollAction s).placed .left).mapResult
        (Except.map fun x => .single (.inl x.head)) :=
  Eval.ofPoll_map OrState.left (fun _ _ => rfl) s

theorem OrAction.ofPoll_right {T1 T2 : Type} (e1 : EndpointAction ε Bd Env σ [T1])
    (e2 : EndpointAction ε Bd Env τ [T2]) (s : τ) :
    Eval.ofPoll g (OrAction.action e1 e2).pollAction (.right s) =
      ((Eval.ofPoll g e2.pollAction s).placed .right).mapResult
        (Except.map fun x => .single (.inr x.head)) :=
  Eval.ofPoll_map OrState.right (fun _ _ => rfl) s

theorem OrStrictAction.ofPoll_left (e1 : EndpointAction ε Bd Env σ ts)
    (e2 : EndpointAction ε Bd Env τ ts) (s : σ) :
    Eval.ofPoll g (OrStrictAction.action e1 e2).pollAction (.left s) =
      ((Eval.ofPoll g e1.pollAction s).placed .left).mapResult (Except.map id) := by
  refine Eval.ofPoll_map OrState.left (fun _ _ => ?_) s
  simp only [Poll.map_id]
  rfl

theorem OrStrictAction.ofPoll_right (e1 : EndpointAction ε Bd Env σ ts)
    (e2 : EndpointAction ε Bd Env τ ts) (s : τ) :
    Eval.ofPoll g (OrStrictAction.action e1 e2).pollAction (.right s) =
      ((Eval.ofPoll g e2.pollAction s).placed .right).mapResult (Except.map id) := by
  refine Eval.ofPoll_map OrState.right (fun _ _ => ?_) s
  simp only [Poll.map_id]
  rfl

/-! ## `and_then` and `recover` -/

section

variable {Fut : Type}

/-- Once the closure has been called, its future is polled on its own. -/
theorem AndThenAction.ofPoll_inFlight (g : Thread Env → Thread Env)
    (e : EndpointAction ε Bd Env σ ts)
    (fut : FutureAction ε Env Fut T) (f : HList ts → Fut) (s : σ) (inFlight : Fut) :
    Eval.ofPoll g (AndThenAction.action e fut f).pollAction ⟨s, some inFlight⟩ =
      .ofFuture g fut inFlight :=
  Comp.run_mapPoll (fun fut => InFlight.mk s (some fut)) _ rfl (Poll.map_ofResult _)
    (fun _ _ => rfl) inFlight

theorem RecoverAction.ofPoll_inFlight (g : Thread Env → Thread Env)
    (e : EndpointAction ε Bd Env σ [T])
    (fut : FutureAction ε Env Fut T) (f : Error ε → Fut) (s : σ) (inFlight : Fut) :
    Eval.ofPoll g (RecoverAction.action e fut f).pollAction ⟨s, some inFlight⟩ =
      .ofFuture g fut inFlight :=
  Comp.run_mapPoll (fun fut => InFlight.mk s (some fut)) _ rfl (Poll.map_ofResult _)
    (fun _ _ => rfl) inFlight

/-- What `poll_action` does once the inner action has its result. -/
def AndThenAction.resume (fut : FutureAction ε Env Fut T) (f : HList ts → Fut)
    (r : Except (Error ε) (HList ts)) (s : σ) (w : World Bd Env) :
    Traced Panic Event (Poll (Error ε) (HList [T]) × InFlight σ Fut × World Bd Env) :=
  match r with
  | .ok args => do
    let inFlight ← callClosure f args
    pollInFlight fut s inFlight w
  | .error err => return (.error err, ⟨s, none⟩, w)

theorem AndThenAction.ofPoll_eq (e : EndpointAction ε Bd Env σ ts)
    (fut : FutureAction ε Env Fut T) (f : HList ts → Fut) (s : σ) :
    Eval.ofPoll g (AndThenAction.action e fut f).pollAction ⟨s, none⟩ =
      ((Eval.ofPoll g e.pollAction s).placed .inner).andThen
        fun x => .ofFuture g fut (f x) := by
  rw [← Eval.ofPoll_under]
  refine Comp.run_seqPoll (fun s => InFlight.mk s none) (resume fut f) ?_ ?_ s
  · intro s w
    rcases (e.pollAction s w).eq_ok_or_error with ⟨l, ⟨r, s', w'⟩, h⟩ | ⟨l, p, h⟩
    · rcases r with err | x | _
      · simp [action, under, seqPoll, resume, h]
      · simp [action, under, seqPoll, resume, h]
      · simp [action, under, seqPoll, h]
    · simp [action, under, seqPoll, h]
  · intro r s w
    cases r with
    | error err => exact Comp.after_ofResult (.error err) (InFlight.mk s none) w
    | ok args =>
      have hfut := congrFun (ofPoll_inFlight g e fut f s (f args)) w
      refine Eq.trans ?_ hfut
      exact Comp.after_prepend (quiet_call []) (pollInFlight fut s (f args) w)

/-- What `poll_action` does once the inner action has its result. -/
def RecoverAction.resume (fut : FutureAction ε Env Fut T) (f : Error ε → Fut)
    (r : Except (Error ε) (HList [T])) (s : σ) (w : World Bd Env) :
    Traced Panic Event (Poll (Error ε) (HList [T]) × InFlight σ Fut × World Bd Env) :=
  match r with
  | .ok x => return (.ok (.ready x), ⟨s, none⟩, w)
  | .error err => do
    let inFlight ← callClosure f err
    pollInFlight fut s inFlight w

theorem RecoverAction.ofPoll_eq (e : EndpointAction ε Bd Env σ [T])
    (fut : FutureAction ε Env Fut T) (f : Error ε → Fut) (s : σ) :
    Eval.ofPoll g (RecoverAction.action e fut f).pollAction ⟨s, none⟩ =
      ((Eval.ofPoll g e.pollAction s).placed .inner).recover
        fun err => .ofFuture g fut (f err) := by
  rw [← Eval.ofPoll_under]
  refine Comp.run_seqPoll (fun s => InFlight.mk s none) (resume fut f) ?_ ?_ s
  · intro s w
    rcases (e.pollAction s w).eq_ok_or_error with ⟨l, ⟨r, s', w'⟩, h⟩ | ⟨l, p, h⟩
    · rcases r with err | x | _
      · simp [action, under, seqPoll, resume, h]
      · simp [action, under, seqPoll, resume, h]
      · simp [action, under, seqPoll, h]
    · simp [action, under, seqPoll, h]
  · intro r s w
    cases r with
    | ok x => exact Comp.after_ofResult (.ok x) (InFlight.mk s none) w
    | error err =>
      have hfut := congrFun (ofPoll_inFlight g e fut f s (f err)) w
      refine Eq.trans ?_ hfut
      exact Comp.after_prepend (quiet_call []) (pollInFlight fut s (f err) w)

end

/-! ## `and` -/

namespace MaybeDone

/-- What is left to do of a component of an `and`. -/
def eval (g : Thread Env → Thread Env) (e : EndpointAction ε Bd Env σ ts) :
    MaybeDone σ (HList ts) → Eval ε Bd Env (HList ts)
  | .inFlight s => .ofPoll g e.pollAction s
  | .ready x => .done (.ok x)
  | _ => .stuck

/-- A component after a successful `preflight` and before its output is taken. -/
def Alive {X : Type} : MaybeDone σ X → Prop
  | .inFlight _ => True
  | .ready _ => True
  | _ => False

end MaybeDone

namespace AndAction

variable {e1 : EndpointAction ε Bd Env σ ts} {e2 : EndpointAction ε Bd Env τ us}

theorem ofPoll_ready (v1 : HList ts) (v2 : HList us) :
    Eval.ofPoll g (action e1 e2).pollAction ⟨.ready v1, .ready v2⟩ =
      .done (.ok (v1.combine v2)) := by
  funext w
  exact Comp.after_ofResult (.ok (v1.combine v2)) _ w

/-- What `poll_action` does once the right side, the last one, has its result. -/
def resumeRight (v1 : HList ts) (r : Except (Error ε) (HList us)) (s : τ) (w : World Bd Env) :
    Traced Panic Event (Poll (Error ε) (HList (ts ++ us)) ×
      AndAction σ τ ts us × World Bd Env) :=
  match r with
  | .ok v2 => return (.ok (.ready (v1.combine v2)), ⟨.gone, .gone⟩, w)
  | .error err => return (.error err, ⟨.ready v1, .inFlight s⟩, w)

/-- What `poll_action` does once the left side has its result. -/
def resumeLeft (e1 : EndpointAction ε Bd Env σ ts) (e2 : EndpointAction ε Bd Env τ us)
    (f2 : MaybeDone τ (HList us)) (r : Except (Error ε) (HList ts)) (s : σ) (w : World Bd Env) :
    Traced Panic Event (Poll (Error ε) (HList (ts ++ us)) ×
      AndAction σ τ ts us × World Bd Env) :=
  match r with
  | .ok v1 => (action e1 e2).pollAction ⟨.ready v1, f2⟩ w
  | .error err => return (.error err, ⟨.inFlight s, f2⟩, w)

/-- The right side runs once the left one is ready. -/
theorem ofPoll_right (v1 : HList ts) {f2 : MaybeDone τ (HList us)} (h2 : f2.Alive) :
    Eval.ofPoll g (action e1 e2).pollAction ⟨.ready v1, f2⟩ =
      ((f2.eval g e2).placed .right).bind fun
        | .error e => .done (.error e)
        | .ok v2 => .done (.ok (v1.combine v2)) := by
  match f2, h2 with
  | .ready v2, _ =>
    unfold MaybeDone.eval Eval.placed
    rw [Comp.relabel_done, Comp.done_bind]
    exact ofPoll_ready v1 v2
  | .inFlight s, _ =>
    unfold MaybeDone.eval
    rw [← Eval.ofPoll_under]
    refine Comp.run_seqPoll (fun s => AndAction.mk (.ready v1) (.inFlight s)) (resumeRight v1)
      ?_ ?_ s
    · intro s w
      rcases (e2.pollAction s w).eq_ok_or_error with ⟨l, ⟨r, s', w'⟩, h⟩ | ⟨l, p, h⟩
      · rcases r with err | x | _
        · simp [action, MaybeDone.action, under, seqPoll, resumeRight, h]
        · simp [action, MaybeDone.action, under, seqPoll, resumeRight, takeItem,
            MaybeDone.takeItem, h]
        · simp [action, MaybeDone.action, under, seqPoll, h]
      · simp [action, MaybeDone.action, under, seqPoll, h]
    · intro r s w
      cases r with
      | ok v2 => exact Comp.after_ofResult (.ok (v1.combine v2)) _ w
      | error err => exact Comp.after_ofResult (.error err) _ w

/-- **The left side of an `and` runs to its result before the right side starts.** -/
theorem ofPoll_eq (g : Thread Env → Thread Env) (e1 : EndpointAction ε Bd Env σ ts)
    (e2 : EndpointAction ε Bd Env τ us) {f1 : MaybeDone σ (HList ts)} {f2 : MaybeDone τ (HList us)}
    (h1 : f1.Alive) (h2 : f2.Alive) :
    Eval.ofPoll g (action e1 e2).pollAction ⟨f1, f2⟩ =
      .both ((f1.eval g e1).placed .left) ((f2.eval g e2).placed .right) := by
  match f1, h1 with
  | .ready v1, _ =>
    unfold MaybeDone.eval Eval.placed Eval.both
    rw [Comp.relabel_done, Comp.done_bind]
    exact ofPoll_right v1 h2
  | .inFlight s, _ =>
    have heval : (MaybeDone.inFlight s : MaybeDone σ (HList ts)).eval g e1 =
        Eval.ofPoll g e1.pollAction s := rfl
    rw [heval, ← Eval.ofPoll_under]
    refine Comp.run_seqPoll (fun s => AndAction.mk (.inFlight s) f2) (resumeLeft e1 e2 f2)
      ?_ ?_ s
    · intro s w
      rcases (e1.pollAction s w).eq_ok_or_error with ⟨l, ⟨r, s', w'⟩, h⟩ | ⟨l, p, h⟩
      · rcases r with err | x | _
        · simp [action, MaybeDone.action, under, seqPoll, resumeLeft, h]
        · simp [action, MaybeDone.action, under, seqPoll, resumeLeft, Traced.prepend_nil, h]
        · simp [action, MaybeDone.action, under, seqPoll, h]
      · simp [action, MaybeDone.action, under, seqPoll, h]
    · intro r s w
      cases r with
      | ok v1 => exact congrFun (ofPoll_right v1 h2) w
      | error err => exact Comp.after_ofResult (.error err) _ w

end AndAction

/-! ## The first phase -/

/-- `preflight` of a new action of `e` agrees with the direct style: a state that is left incomplete
means the computation left to do, and the body was not touched. -/
inductive Follows (g : Thread Env → Thread Env) (e : Endpoint ε Bd Env ts)
    (cx : PreflightContext) : Prop where
  | panic {l : List Event} {p : ActionPanic}
      (hp : e.impl.preflight cx e.spawn = ⟨l, .error (.action p)⟩)
      (hd : e.direct g cx = .error p) (hl : Quiet l)
  | failed {l : List Event} {err : Error ε} {s : e.Action} {c : CursorInner}
      (hp : e.impl.preflight cx e.spawn = ⟨l, .ok (.error err, s, c)⟩)
      (hd : e.direct g cx = .ok (.error err, c)) (hl : Quiet l)
  | matched {l : List Event} {x : Preflight (HList ts)} {s : e.Action} {c : CursorInner}
      (hp : e.impl.preflight cx e.spawn = ⟨l, .ok (.ok x, s, c)⟩)
      (hd : e.direct g cx = .ok (.ok (.of g e.impl.pollAction x s), c)) (hl : Quiet l)

namespace Follows

theorem leaf (σ : Type) (a : LeafAction ε Bd Env σ ts) (init : σ) (cx : PreflightContext) :
    Follows g (.leaf σ a init) cx := by
  rcases h : a.preflight cx init with p | ⟨err | x, s, c⟩
  · have hp : a.action.preflight cx init =
        ⟨[⟨[], .preflight cx.cursor .panicked⟩], .error (.action p)⟩ := by
      simp [LeafAction.action, h]
    have hd : a.direct g init cx = .error p := by
      simp only [LeafAction.direct, h]
      rfl
    exact .panic hp hd (quiet_preflight _ _ _)
  · have hp : a.action.preflight cx init =
        ⟨[⟨[], .preflight cx.cursor .err⟩], .ok (.error err, s, c)⟩ := by
      simp [LeafAction.action, h, PreflightOut.of]
    have hd : a.direct g init cx = .ok (.error err, c) := by
      simp only [LeafAction.direct, h]
      rfl
    exact .failed hp hd (quiet_preflight _ _ _)
  · have hp : a.action.preflight cx init =
        ⟨[⟨[], .preflight cx.cursor (.of (.ok x : Except (Error ε) _))⟩], .ok (.ok x, s, c)⟩ := by
      simp [LeafAction.action, h]
    have hd : a.direct g init cx = .ok (.ok (.of g a.action.pollAction x s), c) := by
      simp only [LeafAction.direct, h]
      rfl
    exact .matched hp hd (quiet_preflight _ _ _)

theorem oneshot (σ : Type) (a : OneshotAction ε σ ts) (init : σ) (cx : PreflightContext) :
    Follows g (.oneshot σ a init : Endpoint ε Bd Env ts) cx := by
  rcases h : a.preflight init cx with p | ⟨err | x, c⟩
  · have hp : (a.action : EndpointAction ε Bd Env _ _).preflight cx (some init) =
        ⟨[⟨[], .preflight cx.cursor .panicked⟩], .error (.action p)⟩ := by
      simp [OneshotAction.action, h]
    have hd : (Endpoint.oneshot σ a init : Endpoint ε Bd Env ts).direct g cx = .error p := by
      simp only [Endpoint.direct, h]
      rfl
    exact .panic hp hd (quiet_preflight _ _ _)
  · have hp : (a.action : EndpointAction ε Bd Env _ _).preflight cx (some init) =
        ⟨[⟨[], .preflight cx.cursor .err⟩], .ok (.error err, none, c)⟩ := by
      simp [OneshotAction.action, h, PreflightOut.of, Except.map]
    have hd : (Endpoint.oneshot σ a init : Endpoint ε Bd Env ts).direct g cx =
        .ok (.error err, c) := by
      simp only [Endpoint.direct, h]
      rfl
    exact .failed hp hd (quiet_preflight _ _ _)
  · have hp : (a.action : EndpointAction ε Bd Env _ _).preflight cx (some init) =
        ⟨[⟨[], .preflight cx.cursor .completed⟩], .ok (.ok (.completed x), none, c)⟩ := by
      simp [OneshotAction.action, h, PreflightOut.of, Except.map]
    have hd : (Endpoint.oneshot σ a init : Endpoint ε Bd Env ts).direct g cx =
        .ok (.ok (.value x), c) := by
      simp only [Endpoint.direct, h]
      rfl
    exact .matched hp hd (quiet_preflight _ _ _)

theorem future (Fut : Type) (f : FutureAction ε Env Fut (HList ts)) (init : Fut)
    (cx : PreflightContext) : Follows g (.future Fut f init : Endpoint ε Bd Env ts) cx := by
  have hp : (f.action : EndpointAction ε Bd Env _ _).preflight cx init =
    ⟨[⟨[], .preflight cx.cursor .incomplete⟩], .ok (.ok .incomplete, init, cx.cursor)⟩ := rfl
  exact .matched hp rfl (quiet_preflight _ _ _)

/-- What is left to do of a component of an `and`. -/
theorem eval_next (e : EndpointAction ε Bd Env σ ts) (x : Preflight (HList ts)) (s : σ) :
    (MaybeDone.next x s).eval g e = (Plan.of g e.pollAction x s).eval := by
  cases x <;> rfl

theorem alive_next {X : Type} (x : Preflight X) (s : σ) : (MaybeDone.next x s).Alive := by
  cases x <;> trivial

theorem and {e1 : Endpoint ε Bd Env ts} {e2 : Endpoint ε Bd Env us}
    (h1 : ∀ cx, Follows g e1 cx) (h2 : ∀ cx, Follows g e2 cx) (cx : PreflightContext) :
    Follows g (e1.and e2) cx := by
  cases h1 cx with
  | panic hp hd hl =>
    refine .panic (AndAction.preflight_panic_left hp) ?_ (hl.under .left)
    simp only [Endpoint.direct, hd]
    rfl
  | failed hp hd hl =>
    refine .failed (AndAction.preflight_failed_left hp) ?_ (hl.under .left)
    simp only [Endpoint.direct, hd]
    rfl
  | @matched l x s c hp hd hl =>
    cases h2 { cx with cursor := c } with
    | panic hp2 hd2 hl2 =>
      refine .panic (AndAction.preflight_panic_right hp hp2) ?_
        ((hl.under .left).append (hl2.under .right))
      simp only [Endpoint.direct, hd]
      show (e2.direct g { cx with cursor := c } >>= _) = _
      rw [hd2]
      rfl
    | failed hp2 hd2 hl2 =>
      refine .failed (AndAction.preflight_failed_right hp hp2) ?_
        ((hl.under .left).append (hl2.under .right))
      simp only [Endpoint.direct, hd]
      show (e2.direct g { cx with cursor := c } >>= _) = _
      rw [hd2]
      rfl
    | @matched l2 y s2 c2 hp2 hd2 hl2 =>
      have heval := AndAction.ofPoll_eq g e1.impl e2.impl
        (alive_next x s) (alive_next y s2)
      rw [eval_next, eval_next] at heval
      refine .matched (AndAction.preflight_ok hp hp2) ?_
        ((hl.under .left).append (hl2.under .right))
      simp only [Endpoint.direct, hd]
      show (e2.direct g { cx with cursor := c } >>= _) = _
      rw [hd2]
      exact congrArg (fun comp => Except.ok (Except.ok (Plan.later comp), c2)) heval.symm

/-- The plan of the selected side, as one of the whole. -/
theorem lift_next {poll : PollFn Panic Event (Error ε) σ (World Bd Env) T}
    {M : PollFn Panic Event (Error ε) τ (World Bd Env) U} {d : Dir} {f : T → U}
    {x : Preflight T} {s : σ} {t : τ}
    (h : x = .incomplete →
      Eval.ofPoll g M t = ((Eval.ofPoll g poll s).placed d).mapResult (Except.map f)) :
    Plan.of g M (x.map f) t = (Plan.of g poll x s).lift d f := by
  cases x with
  | completed x => rfl
  | incomplete => exact congrArg Plan.later (h rfl)

theorem or {T1 T2 : Type} {e1 : Endpoint ε Bd Env [T1]} {e2 : Endpoint ε Bd Env [T2]}
    (h1 : ∀ cx, Follows g e1 cx) (h2 : ∀ cx, Follows g e2 cx) (cx : PreflightContext) :
    Follows g (e1.or e2) cx := by
  have left : ∀ (x : Preflight (HList [T1])) s,
      Plan.of g (OrAction.action e1.impl e2.impl).pollAction
          (x.map fun out => (.single (.inl out.head) : HList [T1 ⊕ T2])) (.next x (.left s)) =
        (Plan.of g e1.impl.pollAction x s).lift .left fun out => .single (.inl out.head) := by
    intro x s
    refine lift_next fun hx => ?_
    subst hx
    exact OrAction.ofPoll_left e1.impl e2.impl s
  have right : ∀ (y : Preflight (HList [T2])) s,
      Plan.of g (OrAction.action e1.impl e2.impl).pollAction
          (y.map fun out => (.single (.inr out.head) : HList [T1 ⊕ T2])) (.next y (.right s)) =
        (Plan.of g e2.impl.pollAction y s).lift .right fun out => .single (.inr out.head) := by
    intro y s
    refine lift_next fun hy => ?_
    subst hy
    exact OrAction.ofPoll_right e1.impl e2.impl s
  cases h1 cx with
  | panic hp hd hl =>
    refine .panic (OrAction.preflight_panic_left hp) ?_ (hl.under .left)
    simp only [Endpoint.direct, hd]
    rfl
  | failed hp hd hl =>
    cases h2 cx with
    | panic hp2 hd2 hl2 =>
      refine .panic (OrAction.preflight_panic_right hp hp2) ?_
        ((hl.under .left).append (hl2.under .right))
      simp only [Endpoint.direct, hd, hd2]
      rfl
    | failed hp2 hd2 hl2 =>
      refine .failed (OrAction.preflight_neither hp hp2) ?_
        ((hl.under .left).append (hl2.under .right))
      simp only [Endpoint.direct, hd, hd2]
      rfl
    | @matched l2 y s2 c2 hp2 hd2 hl2 =>
      refine .matched (OrAction.preflight_right hp hp2 fun _ h => nomatch h) ?_
        ((hl.under .left).append (hl2.under .right))
      simp only [Endpoint.direct, hd, hd2]
      exact congrArg (fun plan => Except.ok (Except.ok plan, c2)) (right y s2).symm
  | @matched l1 x s1 c1 hp hd hl =>
    cases h2 cx with
    | panic hp2 hd2 hl2 =>
      refine .panic (OrAction.preflight_panic_right hp hp2) ?_
        ((hl.under .left).append (hl2.under .right))
      simp only [Endpoint.direct, hd, hd2]
      rfl
    | failed hp2 hd2 hl2 =>
      refine .matched (OrAction.preflight_left hp hp2 fun _ h => nomatch h) ?_
        ((hl.under .left).append (hl2.under .right))
      simp only [Endpoint.direct, hd, hd2]
      exact congrArg (fun plan => Except.ok (Except.ok plan, c1)) (left x s1).symm
    | @matched l2 y s2 c2 hp2 hd2 hl2 =>
      have hquiet := (hl.under .left).append (hl2.under .right)
      rcases Nat.lt_or_ge c1.popped c2.popped with hlt | hge
      · refine .matched (OrAction.preflight_right hp hp2 fun _ _ => hlt) ?_ hquiet
        have hnot : ¬ c2.popped ≤ c1.popped := by omega
        simp only [Endpoint.direct, hd, hd2]
        show (if c2.popped ≤ c1.popped then _ else _) = _
        rw [if_neg hnot]
        exact congrArg (fun plan => Except.ok (Except.ok plan, c2)) (right y s2).symm
      · refine .matched (OrAction.preflight_left hp hp2 fun _ _ => hge) ?_ hquiet
        simp only [Endpoint.direct, hd, hd2]
        show (if c2.popped ≤ c1.popped then _ else _) = _
        rw [if_pos hge]
        exact congrArg (fun plan => Except.ok (Except.ok plan, c1)) (left x s1).symm

theorem orStrict {e1 e2 : Endpoint ε Bd Env ts} (h1 : ∀ cx, Follows g e1 cx)
    (h2 : ∀ cx, Follows g e2 cx) (cx : PreflightContext) : Follows g (e1.orStrict e2) cx := by
  have left : ∀ x s, Plan.of g (OrStrictAction.action e1.impl e2.impl).pollAction x
      (.next x (.left s)) = (Plan.of g e1.impl.pollAction x s).lift .left id := by
    intro x s
    cases x with
    | completed x => rfl
    | incomplete => exact congrArg Plan.later (OrStrictAction.ofPoll_left e1.impl e2.impl s)
  have right : ∀ x s, Plan.of g (OrStrictAction.action e1.impl e2.impl).pollAction x
      (.next x (.right s)) = (Plan.of g e2.impl.pollAction x s).lift .right id := by
    intro x s
    cases x with
    | completed x => rfl
    | incomplete => exact congrArg Plan.later (OrStrictAction.ofPoll_right e1.impl e2.impl s)
  cases h1 cx with
  | panic hp hd hl =>
    refine .panic (OrStrictAction.preflight_panic_left hp) ?_ (hl.under .left)
    simp only [Endpoint.direct, hd]
    rfl
  | @matched l1 x s1 c1 hp hd hl =>
    refine .matched (OrStrictAction.preflight_left hp) ?_ (hl.under .left)
    simp only [Endpoint.direct, hd]
    exact congrArg (fun plan => Except.ok (Except.ok plan, c1)) (left x s1).symm
  | failed hp hd hl =>
    cases h2 cx with
    | panic hp2 hd2 hl2 =>
      refine .panic (OrStrictAction.preflight_panic_right hp hp2) ?_
        ((hl.under .left).append (hl2.under .right))
      simp only [Endpoint.direct, hd, hd2]
      rfl
    | failed hp2 hd2 hl2 =>
      refine .failed (OrStrictAction.preflight_neither hp hp2) ?_
        ((hl.under .left).append (hl2.under .right))
      simp only [Endpoint.direct, hd, hd2]
      rfl
    | @matched l2 y s2 c2 hp2 hd2 hl2 =>
      refine .matched (OrStrictAction.preflight_right hp hp2) ?_
        ((hl.under .left).append (hl2.under .right))
      simp only [Endpoint.direct, hd, hd2]
      exact congrArg (fun plan => Except.ok (Except.ok plan, c2)) (right y s2).symm

theorem map {e : Endpoint ε Bd Env ts} (h : ∀ cx, Follows g e cx) (f : HList ts → U)
    (cx : PreflightContext) : Follows g (e.map f) cx := by
  cases h cx with
  | panic hp hd hl =>
    refine .panic (MapAction.preflight_panic hp) ?_ (hl.under .inner)
    simp only [Endpoint.direct, hd]
    rfl
  | failed hp hd hl =>
    refine .failed (MapAction.preflight_eq hp) ?_ (hl.under .inner)
    simp only [Endpoint.direct, hd]
    rfl
  | @matched l x s c hp hd hl =>
    have hplan : Plan.of g (MapAction.action e.impl f).pollAction
          (x.map fun args => (.single (f args) : HList [U])) s =
        (Plan.of g e.impl.pollAction x s).lift .inner fun args => .single (f args) :=
      lift_next fun _ => MapAction.ofPoll_eq e.impl f s
    refine .matched (MapAction.preflight_eq hp) ?_ (hl.under .inner)
    simp only [Endpoint.direct, hd]
    exact congrArg (fun plan => Except.ok (Except.ok plan, c)) hplan.symm

theorem mapErr {e : Endpoint ε Bd Env ts} (h : ∀ cx, Follows g e cx) (f : Error ε → Error ε)
    (cx : PreflightContext) : Follows g (e.mapErr f) cx := by
  cases h cx with
  | panic hp hd hl =>
    refine .panic (MapErrAction.preflight_panic hp) ?_ (hl.under .inner)
    simp only [Endpoint.direct, hd]
    rfl
  | failed hp hd hl =>
    refine .failed (MapErrAction.preflight_eq hp) ?_ (hl.under .inner)
    simp only [Endpoint.direct, hd]
    rfl
  | @matched l x s c hp hd hl =>
    refine .matched (MapErrAction.preflight_eq hp) ?_ (hl.under .inner)
    simp only [Endpoint.direct, hd]
    cases x with
    | completed x => rfl
    | incomplete =>
      exact congrArg (fun comp => Except.ok (Except.ok (Plan.later comp), c))
        (MapErrAction.ofPoll_eq e.impl f s).symm

/-- A closure that is called in `preflight` is fed the output as it would be later. -/
theorem andThen {Fut : Type} {e : Endpoint ε Bd Env ts} (h : ∀ cx, Follows g e cx)
    (fut : FutureAction ε Env Fut T) (f : HList ts → Fut) (cx : PreflightContext) :
    Follows g (e.andThen Fut fut f) cx := by
  cases h cx with
  | panic hp hd hl =>
    refine .panic (AndThenAction.preflight_panic hp) ?_ (hl.under .inner)
    simp only [Endpoint.direct, hd]
    rfl
  | failed hp hd hl =>
    refine .failed (AndThenAction.preflight_failed hp) ?_ (hl.under .inner)
    simp only [Endpoint.direct, hd]
    rfl
  | @matched l x s c hp hd hl =>
    cases x with
    | completed x =>
      refine .matched (AndThenAction.preflight_completed hp) ?_
        ((hl.under .inner).append (quiet_call []))
      have hfut : (Plan.eval (.value x) : Eval ε Bd Env (HList ts)).placed .inner = .done (.ok x) :=
        Comp.relabel_done _ _
      have hplan := AndThenAction.ofPoll_inFlight g e.impl fut f s (f x)
      simp only [Endpoint.direct, hd]
      show Except.ok (Except.ok (Plan.later
        (((Plan.eval (.value x) : Eval ε Bd Env (HList ts)).placed .inner).andThen fun x =>
          .ofFuture g fut (f x))), c) = _
      rw [hfut, Eval.andThen, Comp.done_bind]
      exact congrArg (fun comp => Except.ok (Except.ok (Plan.later comp), c)) hplan.symm
    | incomplete =>
      refine .matched (AndThenAction.preflight_incomplete hp) ?_ (hl.under .inner)
      simp only [Endpoint.direct, hd]
      exact congrArg (fun comp => Except.ok (Except.ok (Plan.later comp), c))
        (AndThenAction.ofPoll_eq e.impl fut f s).symm

theorem recover {Fut : Type} {e : Endpoint ε Bd Env [T]} (h : ∀ cx, Follows g e cx)
    (fut : FutureAction ε Env Fut T) (f : Error ε → Fut) (cx : PreflightContext) :
    Follows g (e.recover Fut fut f) cx := by
  cases h cx with
  | panic hp hd hl =>
    refine .panic (RecoverAction.preflight_panic hp) ?_ (hl.under .inner)
    simp only [Endpoint.direct, hd]
    rfl
  | @failed l err s c hp hd hl =>
    refine .matched (RecoverAction.preflight_failed hp) ?_
      ((hl.under .inner).append (quiet_call []))
    simp only [Endpoint.direct, hd]
    exact congrArg (fun comp => Except.ok (Except.ok (Plan.later comp), c))
      (RecoverAction.ofPoll_inFlight g e.impl fut f s (f err)).symm
  | @matched l x s c hp hd hl =>
    refine .matched (RecoverAction.preflight_ok hp) ?_ (hl.under .inner)
    simp only [Endpoint.direct, hd]
    cases x with
    | completed x => rfl
    | incomplete =>
      exact congrArg (fun comp => Except.ok (Except.ok (Plan.later comp), c))
        (RecoverAction.ofPoll_eq e.impl fut f s).symm

theorem boxed {e : Endpoint ε Bd Env ts} (h : ∀ cx, Follows g e cx) (cx : PreflightContext) :
    Follows g e.boxed cx := by
  cases h cx with
  | panic hp hd hl => exact .panic hp hd hl
  | failed hp hd hl => exact .failed hp hd hl
  | matched hp hd hl => exact .matched hp hd hl

end Follows

/-- `preflight` of every endpoint agrees with the direct style. -/
theorem Endpoint.follows (g : Thread Env → Thread Env) (e : Endpoint ε Bd Env ts)
    (cx : PreflightContext) : Follows g e cx := by
  induction e generalizing cx with
  | leaf σ a init => exact .leaf σ a init cx
  | oneshot σ a init => exact .oneshot σ a init cx
  | future Fut f init => exact .future Fut f init cx
  | and e1 e2 ih1 ih2 => exact .and ih1 ih2 cx
  | or e1 e2 ih1 ih2 => exact .or ih1 ih2 cx
  | orStrict e1 e2 ih1 ih2 => exact .orStrict ih1 ih2 cx
  | map e f ih => exact .map ih f cx
  | mapErr e f ih => exact .mapErr ih f cx
  | andThen Fut e fut f ih => exact .andThen ih fut f cx
  | recover Fut e fut f ih => exact .recover ih fut f cx
  | boxed e ih => exact .boxed ih cx

/-- Handling a request has at most one result. -/
theorem Endpoint.evaluate_functional (e : Endpoint ε Bd Env ts) (context : Context) :
    (e.evaluate g context : Eval ε Bd Env (HList ts)).Functional := by
  unfold Endpoint.evaluate
  cases e.follows g (.new context) with
  | panic hp hd hl =>
    rw [hd]
    exact fun h => h.elim
  | failed hp hd hl =>
    rw [hd]
    exact Comp.Functional.done _
  | @matched l x s c hp hd hl =>
    rw [hd]
    cases x with
    | completed x => exact Comp.Functional.done _
    | incomplete => exact Comp.run_functional _ s

/-! ## Runs -/

namespace AppFuture

variable {l : List Event} {r : Except (Error ε) (HList ts)}

/-- A run with enough polls is `pollApply` polled to its result. -/
theorem exists_drive_iff {f : EndpointAction ε Bd Env σ ts} {fut fut' : AppFuture σ Bd}
    {th th' : Thread Env} :
    (∃ n, drive f (List.replicate n g) fut th = ⟨l, .ok (some r, fut', th')⟩) ↔
      Completes g (pollApply f) fut (g th) l r fut' th' := by
  refine ⟨fun h => ?_, fun h => ?_⟩
  · obtain ⟨n, h⟩ := h
    induction n generalizing fut th l with
    | zero => cases h
    | succ n ih =>
      rw [List.replicate_succ, drive] at h
      obtain ⟨l₁, ⟨a, fut₁, th₁⟩, l₂, hpoll, hrest, rfl⟩ := Traced.bind_eq_ok_iff.mp h
      unfold Completes
      rw [hpoll]
      rcases a with e | x | _
      · cases hrest
        rw [List.append_nil]
        exact .err
      · cases hrest
        rw [List.append_nil]
        exact .ready
      · exact .notReady (ih hrest)
  · unfold Completes at h
    generalize hpoll : pollApply f fut (g th) = t at h
    induction h generalizing fut th with
    | ready => exact ⟨1, by simp [drive, hpoll]⟩
    | err => exact ⟨1, by simp [drive, hpoll]⟩
    | @notReady l l' r fut₁ fut' th₁ th' _ ih =>
      obtain ⟨n, hn⟩ := ih rfl
      exact ⟨n + 1, by simp [List.replicate_succ, drive, hpoll, hn]⟩

/-- The context and the body are kept beside the state of the action. -/
def keep (s : σ) (w : World Bd Env) : AppFuture σ Bd × Thread Env :=
  (⟨.inFlight s, w.cx.context, w.cx.body⟩, w.thread)

/-- Once in flight, `AppFuture` runs as the action. -/
theorem completes_inFlight_iff {f : EndpointAction ε Bd Env σ ts} {s : σ} (w : World Bd Env)
    {fut' : AppFuture σ Bd} {th' : Thread Env} :
    Completes g (pollApply f) ⟨.inFlight s, w.cx.context, w.cx.body⟩ w.thread l r fut' th' ↔
      ∃ s' w', Completes (World.tick g) f.pollAction s w l r s' w' ∧ (fut', th') = keep s' w' :=
  finishes_pack keep (fun _ _ => rfl)

/-- What a run of `AppFuture` yields: its result, the world after it, and where the body was
taken. -/
def Yields (g : Thread Env → Thread Env) (f : EndpointAction ε Bd Env σ ts)
    (fut : AppFuture σ Bd) (th : Thread Env) (places : List Place)
    (r : Except (Error ε) (HList ts)) (w : World Bd Env) : Prop :=
  ∃ n l fut' th', drive f (List.replicate n g) fut th = ⟨l, .ok (some r, fut', th')⟩ ∧
    places = l.filterMap Event.takes ∧ w = fut'.world th'

variable {f : EndpointAction ε Bd Env σ ts} {s s' : σ} {context : Context} {body : Option Bd}
  {c : CursorInner} {th : Thread Env} {places : List Place} {w : World Bd Env}

theorem yields_panic {p : Panic} (h : f.preflight (.new context) s = ⟨l, .error p⟩) :
    ¬ Yields g f ⟨.start (some s), context, body⟩ th places r w := by
  intro hy
  obtain ⟨n, l', fut', th', hd, -, -⟩ := hy
  cases n with
  | zero => cases hd
  | succ n =>
    rw [List.replicate_succ, drive_panics h] at hd
    cases hd

/-- A run whose first poll has the result, before anything took the body. -/
theorem yields_at_once {fut fut' : AppFuture σ Bd} {th' : Thread Env}
    {r' : Except (Error ε) (HList ts)}
    (hd : ∀ gs, drive f (g :: gs) fut th = ⟨l, .ok (some r', fut', th')⟩) (hl : Quiet l) :
    Yields g f fut th places r w ↔ places = [] ∧ r = r' ∧ w = fut'.world th' := by
  refine ⟨fun hy => ?_, fun hr => ?_⟩
  · obtain ⟨n, l', fut'', th'', h, rfl, rfl⟩ := hy
    cases n with
    | zero => cases h
    | succ n =>
      rw [List.replicate_succ, hd] at h
      cases h
      exact ⟨hl, rfl, rfl⟩
  · obtain ⟨rfl, rfl, rfl⟩ := hr
    exact ⟨1, l, fut', th', hd [], hl.symm, rfl⟩

theorem yields_failed {err : Error ε}
    (h : f.preflight (.new context) s = ⟨l, .ok (.error err, s', c)⟩) (hl : Quiet l) :
    Yields g f ⟨.start (some s), context, body⟩ th places r w ↔
      places = [] ∧ r = .error err ∧ w = ⟨⟨context, body⟩, g th⟩ :=
  yields_at_once (fun gs => drive_failed h body g gs th) hl

theorem yields_completed {x : HList ts}
    (h : f.preflight (.new context) s = ⟨l, .ok (.ok (.completed x), s', c)⟩) (hl : Quiet l) :
    Yields g f ⟨.start (some s), context, body⟩ th places r w ↔
      places = [] ∧ r = .ok x ∧ w = ⟨⟨context, body⟩, g th⟩ :=
  yields_at_once (fun gs => drive_completed h body g gs th) hl

theorem yields_incomplete (h : f.preflight (.new context) s = ⟨l, .ok (.ok .incomplete, s', c)⟩)
    (hl : Quiet l) :
    Yields g f ⟨.start (some s), context, body⟩ th places r w ↔
      Eval.ofPoll g f.pollAction s' ⟨⟨context, body⟩, g th⟩ places r w := by
  have hrun := drive_incomplete h body g
  refine ⟨fun hy => ?_, fun he => ?_⟩
  · obtain ⟨n, l', fut', th', hd, rfl, rfl⟩ := hy
    cases n with
    | zero => cases hd
    | succ n =>
      rw [List.replicate_succ, hrun] at hd
      obtain ⟨l₁, hflight, rfl⟩ := Traced.prepend_eq_mk_iff.mp hd
      have hpoll := exists_drive_iff.mp ⟨n + 1, hflight⟩
      obtain ⟨s₁, w₁, hact, hkeep⟩ :=
        (completes_inFlight_iff ⟨⟨context, body⟩, g th⟩).mp hpoll
      cases hkeep
      exact ⟨l₁, s₁, hact, by rw [List.filterMap_append, hl, List.nil_append]⟩
  · obtain ⟨l₁, s₁, hact, rfl⟩ := he
    have hpoll := (completes_inFlight_iff ⟨⟨context, body⟩, g th⟩).mpr ⟨s₁, w, hact, rfl⟩
    obtain ⟨n, hflight⟩ := exists_drive_iff.mpr hpoll
    cases n with
    | zero => cases hflight
    | succ n =>
      refine ⟨n + 1, l ++ l₁, (keep s₁ w).1, (keep s₁ w).2, ?_, ?_, rfl⟩
      · rw [List.replicate_succ, hrun, ← List.replicate_succ, hflight, Traced.prepend_mk]
        rfl
      · rw [List.filterMap_append, hl, List.nil_append]

end AppFuture

open AppFuture in
/-- A run of an endpoint yields what its direct style evaluates to. -/
theorem Endpoint.yields_iff (e : Endpoint ε Bd Env ts) (addr : Nat) (request : Request) (body : Bd)
    (th : Thread Env) (places : List Place) (r : Except (Error ε) (HList ts)) (w : World Bd Env) :
    Yields g e.impl (.dispatch e addr request body) th places r w ↔
      e.evaluate g (.new addr request) ⟨⟨.new addr request, some body⟩, g th⟩ places r w := by
  unfold Endpoint.evaluate
  cases e.follows g (.new (.new addr request)) with
  | panic hp hd hl =>
    rw [hd]
    exact ⟨fun h => yields_panic hp h, fun h => h.elim⟩
  | failed hp hd hl =>
    rw [hd]
    exact yields_failed hp hl
  | @matched l x s c hp hd hl =>
    rw [hd]
    cases x with
    | completed x => exact yields_completed hp hl
    | incomplete => exact yields_incomplete hp hl

end Finchers
