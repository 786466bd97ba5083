import Finchers.Lib.ScopedSlot

/-!
# Nested calls of `Context::set`, `with`, `try_with` and `is_set`

`set` puts a pointer to a context into a thread-local slot for the time of a closure; `with` and
`try_with` take the pointer out of it for the time of theirs.  Both put back what was there before
by a guard that is dropped when the closure returns or unwinds.

* `Program` — programs on one thread that nest these calls in any way and may unwind anywhere;
* `disciplined_setTaskCx`, `disciplined_getTaskCx` — either function finds what the innermost frame
  left and restores it;
* `context_scopes` — **in every run of every program the slot is restored by each call, a context is
  found iff the innermost frame is a `set`, and no closure finds the context it was given in the
  slot unless it was set again**.
-/

set_option autoImplicit false

namespace Finchers

open ScopedSlot

/-- `NonNull<Context>`: the address of a context. -/
abbrev ContextPtr := Nat

/-- A closure that is running: one of `set`, or one of `with` or `try_with`, with its context. -/
inductive Frame where
  | set (cx : ContextPtr)
  | get (cx : ContextPtr)
  deriving DecidableEq, Repr

/-- What the slot is for while the closure runs. -/
def Frame.content : Frame → Option ContextPtr
  | .set cx => some cx
  | .get _ => none

/-! ## What a run records -/

inductive Call where
  | set (cx : ContextPtr)
  | with
  | tryWith
  | isSet
  deriving DecidableEq, Repr

/-- How a call ended: `is_set` answers with a Boolean, and `try_with` with an option. -/
inductive CallOut where
  | returned (found : Bool)
  | unwound (payload : String)
  deriving DecidableEq, Repr

/-- A call that has ended, with the frames it was made in, the slot before and after it, and the
context its closure was called with. -/
structure Called where
  call : Call
  frames : List Frame
  before : Option ContextPtr
  after : Option ContextPtr
  given : Option ContextPtr
  out : CallOut
  deriving DecidableEq, Repr

inductive ScopeEvent where
  | moment (frames : List Frame) (slot : Option ContextPtr)
  | gave (cx : ContextPtr)
  | called (c : Called)
  deriving DecidableEq, Repr

/-- Code on the thread; a panic has a message. -/
abbrev ThreadCode (R : Type) : Type := Code ContextPtr Frame ScopeEvent String R

/-! ## The functions -/

/-- `ResetOnDrop`: the guard is dropped when the closure returns and when it unwinds. -/
def resetOnDrop {R : Type} (saved : Option ContextPtr) (r : Ran ContextPtr ScopeEvent String R) :
    Ran ContextPtr ScopeEvent String R :=
  ⟨r.log, saved, r.res⟩

/-- `is_set_task_cx`. -/
def isSetTaskCx : ThreadCode Bool := Code.slot.bind (fun slot => .pure slot.isSome)

/-- `set_task_cx`. -/
def setTaskCx {R : Type} (cx : ContextPtr) (f : ThreadCode R) : ThreadCode R := fun frames slot =>
  let oldCx := slot
  resetOnDrop oldCx (f frames (some cx))

/-- `get_task_cx`. -/
def getTaskCx {R : Type} (f : ContextPtr → ThreadCode R) : ThreadCode (Option R) :=
  fun frames slot =>
    let cxPtr := slot
    resetOnDrop cxPtr
      (match cxPtr with
      | some cx => (f cx).bind (fun x => .pure (some x)) frames none
      | none => ⟨[], none, .ok none⟩)

/-- `Context::set`. -/
def ContextPtr.set {R : Type} (cx : ContextPtr) (f : ThreadCode R) : ThreadCode R :=
  setTaskCx cx f

/-- `Context::with`. -/
def ContextPtr.with {R : Type} (f : ContextPtr → ThreadCode R) : ThreadCode R :=
  (getTaskCx f).bind fun r =>
    match r with
    | some x => .pure x
    | none => .throw "TLS context is not set"

/-- `Context::try_with`. -/
def ContextPtr.tryWith {R : Type} (f : ContextPtr → ThreadCode R) : ThreadCode (Option R) :=
  getTaskCx f

/-- `Context::is_set`. -/
def ContextPtr.isSet : ThreadCode Bool := isSetTaskCx

/-! ## Programs -/

/-- Programs on one thread.  A closure of `with` or `try_with` may use the context it is given, and
what comes after a `try_with` or an `is_set` may depend on the answer. -/
inductive Program where
  | ret
  | unwind (payload : String)
  | seq (p q : Program)
  | catchUnwind (p : Program)
  | set (cx : ContextPtr) (f : Program)
  | with (f : ContextPtr → Program)
  | tryWith (f : ContextPtr → Program) (k : Bool → Program)
  | isSet (k : Bool → Program)

namespace Program

/-- Record what the slot holds. -/
def look : ThreadCode Unit := .emit ScopeEvent.moment

/-- The context the closure of a call was called with, according to what the call recorded. -/
def givenIn : List ScopeEvent → Option ContextPtr
  | .gave cx :: _ => some cx
  | _ => none

def outOf {R : Type} (found : R → Bool) : Except String R → CallOut
  | .ok x => .returned (found x)
  | .error payload => .unwound payload

/-- Make a call and record it. -/
def recordCall {R : Type} (call : Call) (found : R → Bool) (c : ThreadCode R) : ThreadCode R :=
  fun frames slot =>
    let r := c frames slot
    ⟨r.log ++ [.called ⟨call, frames, slot, r.slot, givenIn r.log, outOf found r.res⟩], r.slot, r.res⟩

/-- Make a call, record it, and look at the slot before and after it. -/
def record {R : Type} (call : Call) (found : R → Bool) (c : ThreadCode R) : ThreadCode R :=
  look.bind fun _ => (recordCall call found c).bind fun x => look.bind fun _ => .pure x

/-- A closure that first records which context it was given. -/
def told {R : Type} (f : ContextPtr → ThreadCode R) (cx : ContextPtr) : ThreadCode R :=
  Code.bind (.emit fun _ _ => .gave cx) fun _ => f cx

/-- A closure of `with` or `try_with`, inside its frame. -/
def getClosure {R : Type} (f : ContextPtr → ThreadCode R) (cx : ContextPtr) : ThreadCode R :=
  (told f cx).inFrame (.get cx)

/-- Run a program.  The frames are those of the program: a closure stands inside the frame of its
call, whatever the call does to the slot. -/
def exec : Program → ThreadCode Unit
  | .ret => look
  | .unwind payload => look.bind fun _ => .throw payload
  | .seq p q => p.exec.bind fun _ => q.exec
  | .catchUnwind p => p.exec.tryCatch fun _ => look
  | .set cx f => record (.set cx) (fun _ => true) (cx.set (f.exec.inFrame (.set cx)))
  | .with f => record .with (fun _ => true) (ContextPtr.with (getClosure fun cx => (f cx).exec))
  | .tryWith f k =>
    (record .tryWith Option.isSome (ContextPtr.tryWith (getClosure fun cx => (f cx).exec))).bind fun x =>
      (k x.isSome).exec
  | .isSet k => (record .isSet id ContextPtr.isSet).bind fun b => (k b).exec

end Program

/-! ## The discipline -/

/-- The context of the innermost frame, if it is one of `set`. -/
def innermostSet : List Frame → Option ContextPtr
  | .set cx :: _ => some cx
  | _ => none

/-- What a call is expected to do: the slot is restored; the closure of a `with` or `try_with` is
called with the context of the innermost frame, if that is a `set`; otherwise `try_with` answers
`None` and `with` panics; `is_set` tells which. -/
structure Called.Lawful (c : Called) : Prop where
  restored : c.after = c.before
  finds : c.call = .with ∨ c.call = .tryWith → c.given = innermostSet c.frames
  answers : c.call = .tryWith → (c.out = .returned false ↔ innermostSet c.frames = none)
  panics : c.call = .with → innermostSet c.frames = none → c.out = .unwound "TLS context is not set"
  isSet : c.call = .isSet → c.out = .returned (innermostSet c.frames).isSome

/-- While the closure of a `with` or `try_with` runs, its context is in the slot only inside a `set`
with this context that was called since. -/
def Exclusive (frames : List Frame) (slot : Option ContextPtr) : Prop :=
  ∀ inside cx outside, frames = inside ++ .get cx :: outside → slot = some cx → .set cx ∈ inside

def ScopeEvent.Lawful : ScopeEvent → Prop
  | .moment frames slot => slot = innermostSet frames ∧ Exclusive frames slot
  | .gave _ => True
  | .called c => c.Lawful

/-- The code keeps the discipline on a thread whose slot was empty at first. -/
abbrev Disciplined {R : Type} (c : ThreadCode R) : Prop :=
  Keeps Frame.content none ScopeEvent.Lawful c

theorem expected_eq (frames : List Frame) : expected Frame.content none frames = innermostSet frames := by
  match frames with
  | [] => rfl
  | .set _ :: _ => rfl
  | .get _ :: _ => rfl

theorem exclusive_innermostSet (frames : List Frame) : Exclusive frames (innermostSet frames) := by
  intro inside cx outside hframes hslot
  match inside with
  | [] =>
    rw [hframes] at hslot
    cases hslot
  | .get cx' :: rest =>
    rw [hframes] at hslot
    cases hslot
  | .set cx' :: rest =>
    rw [hframes] at hslot
    cases hslot
    exact List.mem_cons_self

theorem disciplined_look : Disciplined Program.look := by
  apply Keeps.emit
  intro frames
  rw [expected_eq]
  exact ⟨rfl, exclusive_innermostSet frames⟩

theorem setTaskCx_eq {R : Type} (cx : ContextPtr) (f : ThreadCode R) :
    setTaskCx cx f = f.within (Frame.set cx).content := rfl

theorem disciplined_setTaskCx {R : Type} (cx : ContextPtr) {f : ThreadCode R} (hf : Disciplined f) :
    Disciplined (setTaskCx cx (f.inFrame (.set cx))) := by
  rw [setTaskCx_eq]
  exact hf.within

/-- With a context in the slot, the closure runs with the slot empty. -/
theorem getTaskCx_some {R : Type} (f : ContextPtr → ThreadCode R) (frames : List Frame)
    (cx : ContextPtr) :
    getTaskCx f frames (some cx) =
      ((f cx).bind fun x => .pure (some x)).within (Frame.get cx).content frames (some cx) := rfl

theorem getTaskCx_none {R : Type} (f : ContextPtr → ThreadCode R) (frames : List Frame) :
    getTaskCx f frames none = ⟨[], none, .ok none⟩ := rfl

theorem recordCall_eq {R : Type} (call : Call) (found : R → Bool) {c : ThreadCode R}
    {frames : List Frame} {old new : Option ContextPtr} {log : List ScopeEvent}
    {res : Except String R} (h : c frames old = ⟨log, new, res⟩) :
    Program.recordCall call found c frames old =
      ⟨log ++ [.called ⟨call, frames, old, new, Program.givenIn log, Program.outOf found res⟩], new,
        res⟩ := by
  simp only [Program.recordCall, h]

/-- The code of a call keeps the discipline, and what it records of itself is right. -/
theorem disciplined_record {R : Type} {call : Call} {found : R → Bool} {c : ThreadCode R}
    (hc : Disciplined c)
    (hlawful : ∀ frames log res, c frames (innermostSet frames) = ⟨log, innermostSet frames, res⟩ →
      Called.Lawful ⟨call, frames, innermostSet frames, innermostSet frames, Program.givenIn log,
        Program.outOf found res⟩) :
    Disciplined (Program.record call found c) := by
  refine disciplined_look.bind fun _ => Keeps.bind ?_ fun x => disciplined_look.bind fun _ => .pure x
  intro frames
  obtain ⟨hslot, hlog⟩ := hc frames
  rw [expected_eq] at hslot hlog ⊢
  rcases hr : c frames (innermostSet frames) with ⟨log, new, res⟩
  rw [hr] at hslot hlog
  rw [recordCall_eq call found hr]
  simp only at hslot hlog
  subst hslot
  refine ⟨rfl, List.forall_mem_append.mpr ⟨hlog, fun e he => ?_⟩⟩
  rw [List.mem_singleton.mp he]
  exact hlawful frames log res hr

theorem disciplined_told {R : Type} {f : ContextPtr → ThreadCode R} (hf : ∀ cx, Disciplined (f cx))
    (cx : ContextPtr) : Disciplined (Program.told f cx) :=
  Keeps.bind (Keeps.emit fun _ => trivial) fun _ => hf cx

theorem disciplined_getTaskCx {R : Type} {f : ContextPtr → ThreadCode R}
    (hf : ∀ cx, Disciplined (f cx)) : Disciplined (getTaskCx (Program.getClosure f)) := by
  intro frames
  cases hslot : expected Frame.content none frames with
  | none =>
    rw [getTaskCx_none]
    exact ⟨rfl, fun e he => by cases he⟩
  | some cx =>
    rw [getTaskCx_some, ← hslot]
    exact Keeps.within ((disciplined_told hf cx).bind fun x => .pure (some x)) frames

theorem told_eq {R : Type} {f : ContextPtr → ThreadCode R} {cx : ContextPtr} {frames : List Frame}
    {old new : Option ContextPtr} {log : List ScopeEvent} {res : Except String R}
    (h : f cx frames old = ⟨log, new, res⟩) :
    Program.told f cx frames old = ⟨.gave cx :: log, new, res⟩ := by
  rw [Program.told, Code.bind_of_ok (show Code.emit (fun _ _ => ScopeEvent.gave cx) frames old =
    ⟨[.gave cx], old, .ok ()⟩ from rfl), h]
  rfl

/-- The closure of `getTaskCx` is called with the context in the slot, if there is one. -/
theorem given_getTaskCx {R : Type} {f : ContextPtr → ThreadCode R} {frames : List Frame}
    {slot new : Option ContextPtr} {log : List ScopeEvent} {res : Except String (Option R)}
    (h : getTaskCx (Program.getClosure f) frames slot = ⟨log, new, res⟩) :
    Program.givenIn log = slot ∧ (res = .ok none ↔ slot = none) := by
  cases slot with
  | none =>
    rw [getTaskCx_none] at h
    cases h
    exact ⟨rfl, fun _ => rfl, fun _ => rfl⟩
  | some cx =>
    rw [getTaskCx_some, Code.within] at h
    rcases hr : f cx (.get cx :: frames) none with ⟨log', new', payload | x⟩
    · have htold : Program.getClosure f cx frames none = _ := told_eq hr
      rw [show (Frame.get cx).content = none from rfl, Code.bind_of_error htold] at h
      cases h
      exact ⟨rfl, by rintro ⟨⟩, by rintro ⟨⟩⟩
    · have htold : Program.getClosure f cx frames none = _ := told_eq hr
      rw [show (Frame.get cx).content = none from rfl, Code.bind_of_ok htold] at h
      cases h
      exact ⟨rfl, by rintro ⟨⟩, by rintro ⟨⟩⟩

theorem disciplined_with {R : Type} {f : ContextPtr → ThreadCode R} (hf : ∀ cx, Disciplined (f cx)) :
    Disciplined (ContextPtr.with (Program.getClosure f)) := by
  refine (disciplined_getTaskCx hf).bind fun r => ?_
  cases r with
  | none => exact .throw _
  | some x => exact .pure x

/-- `with` gives its closure what `getTaskCx` gives it, and panics if that is nothing. -/
theorem given_with {R : Type} {f : ContextPtr → ThreadCode R} {frames : List Frame}
    {slot new : Option ContextPtr} {log : List ScopeEvent} {res : Except String R}
    (h : ContextPtr.with (Program.getClosure f) frames slot = ⟨log, new, res⟩) :
    Program.givenIn log = slot ∧ (slot = none → res = .error "TLS context is not set") := by
  rcases hr : getTaskCx (Program.getClosure f) frames slot with ⟨log', new', payload | r⟩
  · obtain ⟨hgiven, hnone⟩ := given_getTaskCx hr
    rw [ContextPtr.with, Code.bind_of_error hr] at h
    cases h
    refine ⟨hgiven, fun heq => ?_⟩
    cases hnone.mpr heq
  · obtain ⟨hgiven, hnone⟩ := given_getTaskCx hr
    rw [ContextPtr.with, Code.bind_of_ok hr] at h
    cases r with
    | none =>
      simp only [Code.throw_apply, List.append_nil] at h
      cases h
      exact ⟨hgiven, fun _ => rfl⟩
    | some x =>
      simp only [Code.pure_apply, List.append_nil] at h
      cases h
      refine ⟨hgiven, fun heq => ?_⟩
      cases hnone.mpr heq

/-- **Every program keeps the discipline**, by induction on the program. -/
theorem disciplined_exec (p : Program) : Disciplined p.exec := by
  induction p with
  | ret => exact disciplined_look
  | unwind payload => exact disciplined_look.bind fun _ => .throw payload
  | seq p q hp hq => exact hp.bind fun _ => hq
  | catchUnwind p hp => exact hp.tryCatch fun _ => disciplined_look
  | set cx f hf =>
    refine disciplined_record (disciplined_setTaskCx cx hf) fun frames log res _ => ?_
    exact ⟨rfl, by rintro (⟨⟨⟩⟩ | ⟨⟨⟩⟩), by rintro ⟨⟩, by rintro ⟨⟩, by rintro ⟨⟩⟩
  | «with» f hf =>
    refine disciplined_record (disciplined_with hf) fun frames log res h => ?_
    obtain ⟨hgiven, hnone⟩ := given_with h
    refine ⟨rfl, fun _ => hgiven, by rintro ⟨⟩, fun _ hslot => ?_, by rintro ⟨⟩⟩
    rw [hnone hslot]
    rfl
  | tryWith f k hf hk =>
    refine Keeps.bind ?_ fun x => hk x.isSome
    refine disciplined_record (disciplined_getTaskCx hf) fun frames log res h => ?_
    obtain ⟨hgiven, hnone⟩ := given_getTaskCx h
    refine ⟨rfl, fun _ => hgiven, fun _ => ?_, by rintro ⟨⟩, by rintro ⟨⟩⟩
    rw [← hnone]
    rcases res with payload | _ | x <;> simp [Program.outOf]
  | isSet k hk =>
    refine Keeps.bind ?_ hk
    refine disciplined_record (Keeps.slot.bind fun slot => .pure slot.isSome) fun frames log res h => ?_
    refine ⟨rfl, by rintro (⟨⟨⟩⟩ | ⟨⟨⟩⟩), by rintro ⟨⟩, by rintro ⟨⟩, fun _ => ?_⟩
    cases h
    rfl

/-- **The contexts of nested calls.**  On a new thread, whatever the program: in the end the slot is
empty again; every call restores the slot, by a return or by unwinding; a `with` or `try_with` finds
a context iff the innermost frame is a `set`, and it is the context of that `set`; and the context
given to a closure is not in the slot unless it was set again inside. -/
theorem context_scopes (p : Program) :
    (p.exec [] none).slot = none ∧ ∀ e ∈ (p.exec [] none).log, e.Lawful :=
  disciplined_exec p []

/-- Inside a `set` of 1, a `with` sets the context it is given again, for an inner `try_with` that
unwinds; outside of it there is nothing to be found. -/
example : ((Program.seq (.catchUnwind (.set 1 (.with fun cx => .seq (.isSet fun _ => .ret)
    (.set cx (.tryWith (fun _ => .unwind "stop") fun _ => .ret))))) (.tryWith (fun _ => .ret)
      fun _ => .ret)).exec [] none).log.filterMap (fun e => match e with
        | .called c => some (c.call, c.given, c.out)
        | _ => none) =
    [(.isSet, none, .returned false), (.tryWith, some 1, .unwound "stop"),
      (.set 1, none, .unwound "stop"), (.with, some 1, .unwound "stop"),
      (.set 1, none, .unwound "stop"), (.tryWith, none, .returned false)] := by
  decide

end Finchers
