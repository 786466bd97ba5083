import Finchers.Lib.Machine
import Finchers.Common
import Finchers.Context

/-!
# Endpoint actions

The state machine that handles one request: `preflight` decides on routing with read access to
the request and a cursor on its path, `pollAction` does the asynchronous part.  Each call of an
action, of an application's closure and of the future a closure returned is recorded as an
`Event`, at its place in the tree of combinators.

* `Cursor` — the traversal of the path; slicing the path may panic;
* `EndpointAction` — the two operations of an action with states `σ`;
* `LeafAction`, `OneshotAction`, `FutureAction` — what an application supplies: an action of its
  own, an action that always completes in `preflight`, and a future.
-/

set_option autoImplicit false

namespace Finchers

open Resumable

/-! ## Panics -/

/-- A panic inside an action that is not one of the combinators: a slice of the path out of
bounds or off a character boundary, or one of the application's own. -/
inductive ActionPanic where
  | slice
  | user (msg : String)
  deriving DecidableEq, Repr

/-- The `unwrap`, `expect`, `panic!`, `unreachable!` and `debug_assert!` sites of the library, named
by the type and the function they stand in; `MaybeDone::poll_action` has two. -/
inductive Site where
  | appFutureStart
  | oneshotPreflight
  | oneshotPoll
  | maybeDoneStart
  | maybeDonePreflight
  | maybeDoneInit
  | maybeDoneGone
  | andTakeItem
  | orPreflight
  | orPoll
  | orStrictPreflight
  | orStrictPoll
  | andThenPreflight
  | recoverPreflight
  deriving DecidableEq, Repr

inductive Panic where
  | action (p : ActionPanic)
  | site (s : Site)
  deriving DecidableEq, Repr

/-! ## The cursor -/

/-- `CursorInner`: a byte position in the path and the number of segments popped. -/
structure CursorInner where
  pos : Nat
  popped : Nat
  deriving DecidableEq, Repr

namespace Cursor

/-- A slice that panics where it is not defined. -/
def index (s : Option Str) : Except ActionPanic Str :=
  match s with
  | some s => .ok s
  | none => .error .slice

/-- `Cursor::next_segment`. -/
def nextSegment (path : Str) (inner : CursorInner) :
    Except ActionPanic (Option Str × CursorInner) :=
  if inner.pos = Utf8.len path then .ok (none, inner)
  else do
    let rest ← index (Utf8.sliceFrom path inner.pos)
    match Utf8.find '/' rest with
    | some offset =>
      let s ← index (Utf8.slice path inner.pos (inner.pos + offset))
      return (some s, ⟨inner.pos + (offset + 1), inner.popped + 1⟩)
    | none =>
      let s ← index (Utf8.sliceFrom path inner.pos)
      return (some s, ⟨Utf8.len path, inner.popped + 1⟩)

/-- `Cursor::remaining_path`. -/
def remainingPath (path : Str) (inner : CursorInner) : Except ActionPanic Str :=
  index (Utf8.sliceFrom path inner.pos)

end Cursor

/-! ## Contexts -/

/-- `PreflightContext`: the context is shared and read-only here. -/
structure PreflightContext where
  context : Context
  cursor : CursorInner

/-- `PreflightContext::new`. -/
def PreflightContext.new (context : Context) : PreflightContext := ⟨context, ⟨1, 0⟩⟩

/-- The path the cursor traverses. -/
def PreflightContext.path (cx : PreflightContext) : Str := cx.context.request.uri.path

/-- `ActionContext`. -/
structure ActionContext (Bd : Type) where
  context : Context
  body : Option Bd

/-- `ActionContext::take_body`. -/
def ActionContext.takeBody {ε Bd : Type} (cx : ActionContext Bd) :
    Except (Error ε) Bd × ActionContext Bd :=
  match cx.body with
  | some bd => (.ok bd, { cx with body := none })
  | none => (.error (.internalServerError "the request body has already been stolen by someone"), cx)

/-- What a poll works on: the context of the action and the thread. -/
structure World (Bd Env : Type) where
  cx : ActionContext Bd
  thread : Thread Env

/-! ## Events -/

/-- A step from a combinator to one of its components. -/
inductive Dir where
  | left
  | right
  | inner
  deriving DecidableEq, Repr

/-- A place in a tree of combinators, from its root. -/
abbrev Place := List Dir

inductive PreflightOut where
  | completed
  | incomplete
  | err
  | panicked
  deriving DecidableEq, Repr

inductive PollOut where
  | ready
  | notReady
  | err
  | panicked
  deriving DecidableEq, Repr

/-- What happened at a place: `preflight` of an action was called with the cursor at `start`;
its `poll_action` was called, and took the request body or not; the closure of an `and_then` or
`recover` was called; a future was polled with an address in the thread-local slot. -/
inductive Occurrence where
  | preflight (start : CursorInner) (out : PreflightOut)
  | poll (out : PollOut) (took : Bool)
  | call
  | pollFuture (slot : Option Nat) (out : PollOut)
  deriving DecidableEq, Repr

structure Event where
  place : Place
  what : Occurrence
  deriving DecidableEq, Repr

/-- The event, seen from the combinator that has the component in direction `d`. -/
def Event.under (d : Dir) (e : Event) : Event := ⟨d :: e.place, e.what⟩

/-! ## Actions -/

/-- `Preflight`. -/
inductive Preflight (T : Type) where
  | completed (x : T)
  | incomplete
  deriving DecidableEq, Repr

/-- `Preflight::is_completed`. -/
def Preflight.isCompleted {T : Type} : Preflight T → Bool
  | .completed _ => true
  | .incomplete => false

/-- `Preflight::map`. -/
def Preflight.map {T U : Type} (op : T → U) : Preflight T → Preflight U
  | .completed x => .completed (op x)
  | .incomplete => .incomplete

def PreflightOut.of {E T : Type} : Except E (Preflight T) → PreflightOut
  | .ok (.completed _) => .completed
  | .ok .incomplete => .incomplete
  | .error _ => .err

def PollOut.of {E T : Type} : Poll E T → PollOut
  | .ok (.ready _) => .ready
  | .ok .notReady => .notReady
  | .error _ => .err

variable {ε Bd Env : Type}

/-- `EndpointAction` for actions with states `σ` and outputs `HList ts`. -/
structure EndpointAction (ε Bd Env σ : Type) (ts : List Type) where
  preflight : PreflightContext → σ →
    Traced Panic Event (Except (Error ε) (Preflight (HList ts)) × σ × CursorInner)
  pollAction : PollFn Panic Event (Error ε) σ (World Bd Env) (HList ts)

/-- An action of the application.  It reaches the thread-local slot only through `Context`,
so it leaves the address in it as it is, and it cannot move its context; and it reaches the request
body only through `ActionContext::take_body`, so it puts none back. -/
structure LeafAction (ε Bd Env σ : Type) (ts : List Type) where
  preflight : PreflightContext → σ →
    Except ActionPanic (Except (Error ε) (Preflight (HList ts)) × σ × CursorInner)
  pollAction : σ → World Bd Env →
    Except ActionPanic (Poll (Error ε) (HList ts) × σ × World Bd Env)
  keeps : ∀ {s w r s' w'}, pollAction s w = .ok (r, s', w') →
    w'.thread.slot = w.thread.slot ∧ w'.cx.context.addr = w.cx.context.addr
  notPutBack : ∀ {s w r s' w'}, pollAction s w = .ok (r, s', w') →
    w'.cx.body.isSome = true → w.cx.body.isSome = true

/-- Whether a poll took the request body. -/
def World.took (w w' : World Bd Env) : Bool := w.cx.body.isSome && w'.cx.body.isNone

/-- An action of the application, with its calls recorded. -/
def LeafAction.action {σ : Type} {ts : List Type} (a : LeafAction ε Bd Env σ ts) :
    EndpointAction ε Bd Env σ ts where
  preflight cx s :=
    match a.preflight cx s with
    | .ok (r, s', c) => ⟨[⟨[], .preflight cx.cursor (.of r)⟩], .ok (r, s', c)⟩
    | .error p => ⟨[⟨[], .preflight cx.cursor .panicked⟩], .error (.action p)⟩
  pollAction s w :=
    match a.pollAction s w with
    | .ok (r, s', w') => ⟨[⟨[], .poll (.of r) (w.took w')⟩], .ok (r, s', w')⟩
    | .error p => ⟨[⟨[], .poll .panicked false⟩], .error (.action p)⟩

/-- `OneshotAction`. -/
structure OneshotAction (ε σ : Type) (ts : List Type) where
  preflight : σ → PreflightContext → Except ActionPanic (Except (Error ε) (HList ts) × CursorInner)

/-- `Oneshot`: `EndpointAction` for a `OneshotAction`. -/
def OneshotAction.action {σ : Type} {ts : List Type} (a : OneshotAction ε σ ts) :
    EndpointAction ε Bd Env (Option σ) ts where
  preflight cx s :=
    match s with
    | none => ⟨[⟨[], .preflight cx.cursor .panicked⟩], .error (.site .oneshotPreflight)⟩
    | some act =>
      match a.preflight act cx with
      | .ok (r, c) =>
        ⟨[⟨[], .preflight cx.cursor (.of (r.map Preflight.completed))⟩],
          .ok (r.map Preflight.completed, none, c)⟩
      | .error p => ⟨[⟨[], .preflight cx.cursor .panicked⟩], .error (.action p)⟩
  pollAction _ _ := ⟨[⟨[], .poll .panicked false⟩], .error (.site .oneshotPoll)⟩

/-- A `Future` of the application with states `Fut`.  It reaches the thread-local slot only
through `Context`, so it leaves the address in it as it is. -/
structure FutureAction (ε Env Fut T : Type) where
  poll : Fut → Thread Env → Poll (Error ε) T × Fut × Thread Env
  keeps : ∀ s th, (poll s th).2.2.slot = th.slot

/-- `EndpointAction for F: Future`: there is nothing to do in `preflight`, and the future is
polled with the context in the thread-local slot. -/
def FutureAction.action {Fut : Type} {ts : List Type} (f : FutureAction ε Env Fut (HList ts)) :
    EndpointAction ε Bd Env Fut ts where
  preflight cx s := ⟨[⟨[], .preflight cx.cursor .incomplete⟩], .ok (.ok .incomplete, s, cx.cursor)⟩
  pollAction s w :=
    let ((r, s'), context, thread) := w.cx.context.set w.thread (fun th =>
      let (r, s', th') := f.poll s th
      ((r, s'), th'))
    ⟨[⟨[], .pollFuture (some w.cx.context.addr) (.of r)⟩, ⟨[], .poll (.of r) false⟩],
      .ok (r, s', ⟨{ w.cx with context := context }, thread⟩)⟩

/-- A future that a closure returned, polled by a combinator: on the thread as it is. -/
def FutureAction.pollInFlight {Fut T : Type} (f : FutureAction ε Env Fut T) :
    PollFn Panic Event (Error ε) Fut (World Bd Env) T := fun s w =>
  let (r, s', th) := f.poll s w.thread
  ⟨[⟨[], .pollFuture w.thread.slot (.of r)⟩], .ok (r, s', { w with thread := th })⟩

end Finchers
