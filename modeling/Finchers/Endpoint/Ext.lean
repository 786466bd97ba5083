import Finchers.Action

/-!
# The combinators

The actions of `and`, `or`, `or_strict`, `map`, `map_err`, `and_then` and `recover`, each over
the actions of its components.  Every definition follows the two methods of its source type; an
early return of the source (`?`, `try_ready!`) leaves the state as the source leaves it, in
particular a `MaybeDone::Init(None)` or a `State::Done`.
-/

set_option autoImplicit false

namespace Finchers

open Resumable

variable {ε Bd Env σ τ : Type} {ts us : List Type}

/-- The events of a component, seen from its combinator. -/
def under {α : Type} (d : Dir) (m : Traced Panic Event α) : Traced Panic Event α :=
  m.mapLog (Event.under d)

/-- A panic at a site of the library. -/
def panicAt {α : Type} (s : Site) : Traced Panic Event α := Traced.panic (.site s)

/-! ## `and` -/

inductive MaybeDone (σ T : Type) where
  | init (action : Option σ)
  | inFlight (action : σ)
  | ready (output : T)
  | gone

/-- `MaybeDone::take_item`. -/
def MaybeDone.takeItem {T : Type} : MaybeDone σ T → Option T × MaybeDone σ T
  | .ready output => (some output, .gone)
  | _ => (none, .gone)

/-- `EndpointAction for MaybeDone`: the output stays inside, so `preflight` never reports it. -/
def MaybeDone.action (f : EndpointAction ε Bd Env σ ts) :
    EndpointAction ε Bd Env (MaybeDone σ (HList ts)) [] where
  preflight cx m :=
    match m with
    | .init none => panicAt .maybeDoneStart
    | .init (some action) => do
      let (r, action, c) ← f.preflight cx action
      match r with
      | .error e => return (.error e, .init none, c)
      | .ok (.completed output) => return (.ok .incomplete, .ready output, c)
      | .ok .incomplete => return (.ok .incomplete, .inFlight action, c)
    | _ => panicAt .maybeDonePreflight
  pollAction m w :=
    match m with
    | .init _ => panicAt .maybeDoneInit
    | .ready output => return (.ok (.ready ()), .ready output, w)
    | .inFlight action => do
      let (r, action, w) ← f.pollAction action w
      match r with
      | .ok .notReady => return (.ok .notReady, .inFlight action, w)
      | .error e => return (.error e, .inFlight action, w)
      | .ok (.ready output) => return (.ok (.ready ()), .ready output, w)
    | .gone => panicAt .maybeDoneGone

structure AndAction (σ τ : Type) (ts us : List Type) where
  f1 : MaybeDone σ (HList ts)
  f2 : MaybeDone τ (HList us)

/-- `AndAction::take_item`: the second item is not taken if the first one is missing. -/
def AndAction.takeItem (s : AndAction σ τ ts us) :
    Option (HList (ts ++ us)) × AndAction σ τ ts us :=
  match s.f1.takeItem with
  | (none, f1) => (none, { s with f1 := f1 })
  | (some v1, f1) =>
    match s.f2.takeItem with
    | (none, f2) => (none, ⟨f1, f2⟩)
    | (some v2, f2) => (some (v1.combine v2), ⟨f1, f2⟩)

/-- `EndpointAction for AndAction`. -/
def AndAction.action (e1 : EndpointAction ε Bd Env σ ts) (e2 : EndpointAction ε Bd Env τ us) :
    EndpointAction ε Bd Env (AndAction σ τ ts us) (ts ++ us) where
  preflight cx s := do
    let (x1, f1, c) ← under .left ((MaybeDone.action e1).preflight cx s.f1)
    match x1 with
    | .error e => return (.error e, { s with f1 := f1 }, c)
    | .ok x1 =>
      let (x2, f2, c) ← under .right ((MaybeDone.action e2).preflight { cx with cursor := c } s.f2)
      match x2 with
      | .error e => return (.error e, ⟨f1, f2⟩, c)
      | .ok x2 =>
        if x1.isCompleted && x2.isCompleted then
          match (AndAction.mk f1 f2).takeItem with
          | (some out, s) => return (.ok (.completed out), s, c)
          | (none, _) => panicAt .andTakeItem
        else return (.ok .incomplete, ⟨f1, f2⟩, c)
  pollAction s w := do
    let (r1, f1, w) ← under .left ((MaybeDone.action e1).pollAction s.f1 w)
    match r1 with
    | .ok .notReady => return (.ok .notReady, { s with f1 := f1 }, w)
    | .error e => return (.error e, { s with f1 := f1 }, w)
    | .ok (.ready _) =>
      let (r2, f2, w) ← under .right ((MaybeDone.action e2).pollAction s.f2 w)
      match r2 with
      | .ok .notReady => return (.ok .notReady, ⟨f1, f2⟩, w)
      | .error e => return (.error e, ⟨f1, f2⟩, w)
      | .ok (.ready _) =>
        match (AndAction.mk f1 f2).takeItem with
        | (some out, s) => return (.ok (.ready out), s, w)
        | (none, _) => panicAt .andTakeItem

/-! ## `or` and `or_strict` -/

/-- `State`, of `OrAction` and of `OrStrictAction`. -/
inductive OrState (L R : Type) where
  | init (left : L) (right : R)
  | left (left : L)
  | right (right : R)
  | done

/-- `EndpointAction for OrAction`.  Both sides are tried from the cursor `or` was called with. -/
def OrAction.action {T1 T2 : Type} (e1 : EndpointAction ε Bd Env σ [T1])
    (e2 : EndpointAction ε Bd Env τ [T2]) :
    EndpointAction ε Bd Env (OrState σ τ) [T1 ⊕ T2] where
  preflight cx s :=
    match s with
    | .init left right => do
      let (leftOutput, left, c1) ← under .left (e1.preflight cx left)
      let (rightOutput, right, c) ← under .right (e2.preflight cx right)
      match leftOutput, rightOutput with
      | .ok l, .ok r =>
        if c1.popped ≥ c.popped then
          match l with
          | .completed output => return (.ok (.completed (.single (.inl output.head))), .done, c1)
          | .incomplete => return (.ok .incomplete, .left left, c1)
        else
          match r with
          | .completed output => return (.ok (.completed (.single (.inr output.head))), .done, c)
          | .incomplete => return (.ok .incomplete, .right right, c)
      | .ok l, .error _ =>
        match l with
        | .completed output => return (.ok (.completed (.single (.inl output.head))), .done, c1)
        | .incomplete => return (.ok .incomplete, .left left, c1)
      | .error _, .ok r =>
        match r with
        | .completed output => return (.ok (.completed (.single (.inr output.head))), .done, c)
        | .incomplete => return (.ok .incomplete, .right right, c)
      | .error left, .error right => return (.error (.notMatched left right), .done, c)
    | _ => panicAt .orPreflight
  pollAction s w :=
    match s with
    | .left t => do
      let (r, t, w) ← under .left (e1.pollAction t w)
      return (r.map (fun out => .single (.inl out.head)), .left t, w)
    | .right t => do
      let (r, t, w) ← under .right (e2.pollAction t w)
      return (r.map (fun out => .single (.inr out.head)), .right t, w)
    | _ => panicAt .orPoll

/-- `EndpointAction for OrStrictAction`.  The right side is only tried if the left one fails. -/
def OrStrictAction.action (e1 : EndpointAction ε Bd Env σ ts) (e2 : EndpointAction ε Bd Env τ ts) :
    EndpointAction ε Bd Env (OrState σ τ) ts where
  preflight cx s :=
    match s with
    | .init left right => do
      let (r1, left, c) ← under .left (e1.preflight cx left)
      match r1 with
      | .ok .incomplete => return (.ok .incomplete, .left left, c)
      | .ok (.completed output) => return (.ok (.completed output), .done, c)
      | .error err1 =>
        let (r2, right, c) ← under .right (e2.preflight cx right)
        match r2 with
        | .ok .incomplete => return (.ok .incomplete, .right right, c)
        | .ok (.completed output) => return (.ok (.completed output), .done, c)
        | .error err2 => return (.error (.notMatched err1 err2), .done, c)
    | _ => panicAt .orStrictPreflight
  pollAction s w :=
    match s with
    | .left t => do
      let (r, t, w) ← under .left (e1.pollAction t w)
      return (r, .left t, w)
    | .right t => do
      let (r, t, w) ← under .right (e2.pollAction t w)
      return (r, .right t, w)
    | _ => panicAt .orStrictPoll

/-! ## `map` and `map_err` -/

/-- `EndpointAction for MapAction`. -/
def MapAction.action {U : Type} (e : EndpointAction ε Bd Env σ ts) (f : HList ts → U) :
    EndpointAction ε Bd Env σ [U] where
  preflight cx s := do
    let (r, s, c) ← under .inner (e.preflight cx s)
    return (r.map (fun x => x.map (fun args => .single (f args))), s, c)
  pollAction s w := do
    let (r, s, w) ← under .inner (e.pollAction s w)
    return (r.map (fun args => .single (f args)), s, w)

/-- `EndpointAction for MapErrAction`. -/
def MapErrAction.action (e : EndpointAction ε Bd Env σ ts) (f : Error ε → Error ε) :
    EndpointAction ε Bd Env σ ts where
  preflight cx s := do
    let (r, s, c) ← under .inner (e.preflight cx s)
    return (r.mapError f, s, c)
  pollAction s w := do
    let (r, s, w) ← under .inner (e.pollAction s w)
    return (r.mapErr f, s, w)

/-! ## `and_then` and `recover` -/

/-- The state of `AndThenAction` and of `RecoverAction`. -/
structure InFlight (σ Fut : Type) where
  action : σ
  inFlight : Option Fut

/-- Call the closure of an `and_then` or `recover`. -/
def callClosure {α Fut : Type} (f : α → Fut) (x : α) : Traced Panic Event Fut := do
  Traced.emit ⟨[], .call⟩
  return f x

/-- `in_flight.poll()`, with the output made a tuple. -/
def pollInFlight {Fut T : Type} (fut : FutureAction ε Env Fut T) (action : σ) (inFlight : Fut)
    (w : World Bd Env) :
    Traced Panic Event (Poll (Error ε) (HList [T]) × InFlight σ Fut × World Bd Env) := do
  let (r, inFlight, w) ← fut.pollInFlight inFlight w
  return (r.map HList.single, ⟨action, some inFlight⟩, w)

/-- `EndpointAction for AndThenAction`. -/
def AndThenAction.action {Fut T : Type} (e : EndpointAction ε Bd Env σ ts)
    (fut : FutureAction ε Env Fut T) (f : HList ts → Fut) :
    EndpointAction ε Bd Env (InFlight σ Fut) [T] where
  preflight cx s :=
    if s.inFlight.isSome then panicAt .andThenPreflight
    else do
      let (r, action, c) ← under .inner (e.preflight cx s.action)
      match r with
      | .error err => return (.error err, { s with action := action }, c)
      | .ok (.completed output) =>
        let inFlight ← callClosure f output
        return (.ok .incomplete, ⟨action, some inFlight⟩, c)
      | .ok .incomplete => return (.ok .incomplete, { s with action := action }, c)
  pollAction s w :=
    match s.inFlight with
    | some inFlight => pollInFlight fut s.action inFlight w
    | none => do
      let (r, action, w) ← under .inner (e.pollAction s.action w)
      match r with
      | .ok .notReady => return (.ok .notReady, { s with action := action }, w)
      | .error err => return (.error err, { s with action := action }, w)
      | .ok (.ready args) =>
        let inFlight ← callClosure f args
        pollInFlight fut action inFlight w

/-- `EndpointAction for RecoverAction`. -/
def RecoverAction.action {Fut T : Type} (e : EndpointAction ε Bd Env σ [T])
    (fut : FutureAction ε Env Fut T) (f : Error ε → Fut) :
    EndpointAction ε Bd Env (InFlight σ Fut) [T] where
  preflight cx s :=
    if s.inFlight.isSome then panicAt .recoverPreflight
    else do
      let (r, action, c) ← under .inner (e.preflight cx s.action)
      match r with
      | .ok x => return (.ok x, { s with action := action }, c)
      | .error err =>
        let inFlight ← callClosure f err
        return (.ok .incomplete, ⟨action, some inFlight⟩, c)
  pollAction s w :=
    match s.inFlight with
    | some inFlight => pollInFlight fut s.action inFlight w
    | none => do
      let (r, action, w) ← under .inner (e.pollAction s.action w)
      match r with
      | .ok x => return (.ok x, { s with action := action }, w)
      | .error err =>
        let inFlight ← callClosure f err
        pollInFlight fut action inFlight w

end Finchers
