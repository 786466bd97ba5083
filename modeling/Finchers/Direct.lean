import Finchers.Service
import Finchers.Lib.Comp

/-!
# Endpoints in direct style

What an endpoint means without polls and states: first its `preflight`, then a sequential
computation.  `direct` is read off the combinators' purpose, not off their state machines, and is
compared with them in `Refinement`.

* `Eval` — a computation of the second phase, observed in where the request body is taken;
* `Plan` — what a successful `preflight` leaves to do;
* `direct`, `evaluate` — an endpoint, and the handling of a request by it.

A leaf and a future are run to their result by `Comp.run`.  Whenever they are not ready, `g`
happens to the thread; an environment that does something else each time keeps in `Env` what it
does next.
-/

set_option autoImplicit false

namespace Finchers

open Resumable

variable {ε Bd Env T U : Type} {ts us : List Type}

/-- The place where an event took the request body. -/
def Event.takes (e : Event) : Option Place :=
  match e.what with
  | .poll _ true => some e.place
  | _ => none

/-- What happens between two polls. -/
def World.tick (g : Thread Env → Thread Env) (w : World Bd Env) : World Bd Env :=
  { w with thread := g w.thread }

/-- A computation on the context, the body and the thread. -/
abbrev Eval (ε Bd Env T : Type) : Type := Comp (World Bd Env) Place (Error ε) T

namespace Eval

/-- The computation of a component, seen from its combinator. -/
def placed (d : Dir) (c : Eval ε Bd Env T) : Eval ε Bd Env T := c.relabel (d :: ·)

/-- Run a machine to its result. -/
def ofPoll {σ : Type} (g : Thread Env → Thread Env)
    (poll : PollFn Panic Event (Error ε) σ (World Bd Env) T) (s : σ) : Eval ε Bd Env T :=
  Comp.run (World.tick g) Event.takes poll s

/-- Run the future of a closure. -/
def ofFuture {Fut : Type} (g : Thread Env → Thread Env) (fut : FutureAction ε Env Fut T)
    (s : Fut) : Eval ε Bd Env (HList [T]) :=
  (ofPoll g fut.pollInFlight s).mapResult (Except.map HList.single)

/-- Run `c1` to its result, then `c2`, and combine the outputs; the first error ends it. -/
def both (c1 : Eval ε Bd Env (HList ts)) (c2 : Eval ε Bd Env (HList us)) :
    Eval ε Bd Env (HList (ts ++ us)) :=
  c1.bind fun
    | .error e => .done (.error e)
    | .ok v1 => c2.bind fun
      | .error e => .done (.error e)
      | .ok v2 => .done (.ok (v1.combine v2))

/-- Feed the output to `k`. -/
def andThen (c : Eval ε Bd Env T) (k : T → Eval ε Bd Env U) : Eval ε Bd Env U :=
  c.bind fun
    | .error e => .done (.error e)
    | .ok x => k x

/-- Feed an error to `k`. -/
def recover (c : Eval ε Bd Env T) (k : Error ε → Eval ε Bd Env T) : Eval ε Bd Env T :=
  c.bind fun
    | .error e => k e
    | .ok x => .done (.ok x)

end Eval

/-- What a successful `preflight` leaves to do: nothing, or a computation. -/
inductive Plan (ε Bd Env T : Type) where
  | value (x : T)
  | later (c : Eval ε Bd Env T)

namespace Plan

/-- The plan after `preflight` left a machine in state `s`. -/
def of {σ : Type} (g : Thread Env → Thread Env)
    (poll : PollFn Panic Event (Error ε) σ (World Bd Env) T) (x : Preflight T) (s : σ) :
    Plan ε Bd Env T :=
  match x with
  | .completed x => .value x
  | .incomplete => .later (.ofPoll g poll s)

/-- The rest of the evaluation. -/
def eval : Plan ε Bd Env T → Eval ε Bd Env T
  | .value x => .done (.ok x)
  | .later c => c

/-- The plan of a component as one of its combinator, with the output rewritten. -/
def lift (d : Dir) (f : T → U) : Plan ε Bd Env T → Plan ε Bd Env U
  | .value x => .value (f x)
  | .later c => .later ((c.placed d).mapResult (Except.map f))

end Plan

/-- The outcome of the first phase: an error or a plan, and where the cursor stands. -/
abbrev Routing (ε Bd Env T : Type) : Type := Except (Error ε) (Plan ε Bd Env T) × CursorInner

/-- A leaf in direct style. -/
def LeafAction.direct {σ : Type} (g : Thread Env → Thread Env) (a : LeafAction ε Bd Env σ ts)
    (init : σ) (cx : PreflightContext) : Except ActionPanic (Routing ε Bd Env (HList ts)) := do
  let (r, s, c) ← a.preflight cx init
  return (r.map (fun x => .of g a.action.pollAction x s), c)

namespace Endpoint

/-- An endpoint in direct style. -/
def direct (g : Thread Env → Thread Env) : {ts : List Type} → Endpoint ε Bd Env ts →
    PreflightContext → Except ActionPanic (Routing ε Bd Env (HList ts))
  | _, .leaf _ a init, cx => a.direct g init cx
  | _, .oneshot _ a init, cx => do
    let (r, c) ← a.preflight init cx
    return (r.map Plan.value, c)
  | _, .future _ f init, cx => return (.ok (.later (.ofPoll g f.action.pollAction init)), cx.cursor)
  | _, .and e1 e2, cx => do
    let (r1, c1) ← direct g e1 cx
    match r1 with
    | .error e => return (.error e, c1)
    | .ok p1 =>
      let (r2, c2) ← direct g e2 { cx with cursor := c1 }
      match r2 with
      | .error e => return (.error e, c2)
      | .ok p2 => return (.ok (.later (.both (p1.eval.placed .left) (p2.eval.placed .right))), c2)
  | _, .or e1 e2, cx => do
    let (r1, c1) ← direct g e1 cx
    let (r2, c2) ← direct g e2 cx
    match r1, r2 with
    | .error e, .error e' => return (.error (.notMatched e e'), c2)
    | .ok p, .error _ => return (.ok (p.lift .left fun x => .single (.inl x.head)), c1)
    | .error _, .ok p => return (.ok (p.lift .right fun x => .single (.inr x.head)), c2)
    | .ok p, .ok p' =>
      if c2.popped ≤ c1.popped then return (.ok (p.lift .left fun x => .single (.inl x.head)), c1)
      else return (.ok (p'.lift .right fun x => .single (.inr x.head)), c2)
  | _, .orStrict e1 e2, cx => do
    let (r1, c1) ← direct g e1 cx
    match r1 with
    | .ok p => return (.ok (p.lift .left id), c1)
    | .error e =>
      let (r2, c2) ← direct g e2 cx
      match r2 with
      | .ok p => return (.ok (p.lift .right id), c2)
      | .error e' => return (.error (.notMatched e e'), c2)
  | _, .map e f, cx => do
    let (r, c) ← direct g e cx
    return (r.map (·.lift .inner fun x => .single (f x)), c)
  | _, .mapErr e f, cx => do
    let (r, c) ← direct g e cx
    match r with
    | .error err => return (.error (f err), c)
    | .ok (.value x) => return (.ok (.value x), c)
    | .ok (.later comp) => return (.ok (.later ((comp.placed .inner).mapResult (Except.mapError f))), c)
  | _, .andThen _ e fut f, cx => do
    let (r, c) ← direct g e cx
    match r with
    | .error err => return (.error err, c)
    | .ok p => return (.ok (.later ((p.eval.placed .inner).andThen fun x => .ofFuture g fut (f x))), c)
  | _, .recover _ e fut f, cx => do
    let (r, c) ← direct g e cx
    match r with
    | .error err => return (.ok (.later (.ofFuture g fut (f err))), c)
    | .ok (.value x) => return (.ok (.value x), c)
    | .ok (.later comp) =>
      return (.ok (.later ((comp.placed .inner).recover fun err => .ofFuture g fut (f err))), c)
  | _, .boxed e, cx => direct g e cx

/-- Handle a request in direct style: `preflight`, then the rest unless it failed. -/
def evaluate {ts : List Type} (e : Endpoint ε Bd Env ts) (g : Thread Env → Thread Env)
    (context : Context) : Eval ε Bd Env (HList ts) :=
  match e.direct g (.new context) with
  | .error _ => .stuck
  | .ok (.error err, _) => .done (.error err)
  | .ok (.ok p, _) => p.eval

end Endpoint

end Finchers
