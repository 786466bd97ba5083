import Mathlib.Data.List.Basic

/-!
# A slot that is saved and restored

Code on a thread with one slot.  A run records events, and ends by returning or by unwinding;
either way the slot has a value afterwards.  `within` runs code with another value in the slot and
puts the old one back, however the code ends.  `inFrame` runs code inside one more frame; the frames
are passed along for the events only: nothing that runs can look at them, or changes the slot for them.

* `expected` — what the innermost frame put into the slot;
* `Keeps` — code that finds the expected value leaves it, and records lawful events only;
* `Keeps.within`, `Keeps.bind`, `Keeps.tryCatch` — the discipline is kept by every construct.
-/

set_option autoImplicit false

namespace ScopedSlot

variable {A F E P R S : Type}

/-- What a run recorded, the slot after it, and whether it returned or unwound. -/
structure Ran (A E P R : Type) where
  log : List E
  slot : Option A
  res : Except P R

/-- Code that runs in some frames with a value in the slot. -/
abbrev Code (A F E P R : Type) : Type := List F → Option A → Ran A E P R

namespace Code

def pure (x : R) : Code A F E P R := fun _ slot => ⟨[], slot, .ok x⟩

/-- Start unwinding. -/
def throw (payload : P) : Code A F E P R := fun _ slot => ⟨[], slot, .error payload⟩

/-- One after the other; unwinding skips the rest. -/
def bind (c : Code A F E P R) (k : R → Code A F E P S) : Code A F E P S := fun frames slot =>
  let r := c frames slot
  match r.res with
  | .error payload => ⟨r.log, r.slot, .error payload⟩
  | .ok x =>
    let r' := k x frames r.slot
    ⟨r.log ++ r'.log, r'.slot, r'.res⟩

/-- Catch the unwinding of `c`. -/
def tryCatch (c : Code A F E P R) (handler : P → Code A F E P R) : Code A F E P R :=
  fun frames slot =>
    let r := c frames slot
    match r.res with
    | .ok x => ⟨r.log, r.slot, .ok x⟩
    | .error payload =>
      let r' := handler payload frames r.slot
      ⟨r.log ++ r'.log, r'.slot, r'.res⟩

/-- Look at the slot. -/
def slot : Code A F E P (Option A) := fun _ slot => ⟨[], slot, .ok slot⟩

/-- Record an event, which may speak of the frames and the slot. -/
def emit (e : List F → Option A → E) : Code A F E P Unit := fun frames slot =>
  ⟨[e frames slot], slot, .ok ()⟩

/-- Run code inside a frame. -/
def inFrame (frame : F) (c : Code A F E P R) : Code A F E P R := fun frames slot =>
  c (frame :: frames) slot

/-- Run code with another value in the slot, then put the old one back. -/
def within (value : Option A) (c : Code A F E P R) : Code A F E P R := fun frames slot =>
  let r := c frames value
  ⟨r.log, slot, r.res⟩

variable {c : Code A F E P R} {k : R → Code A F E P S} {handler : P → Code A F E P R}
  {frames : List F} {old new : Option A} {log : List E} {x : R} {payload : P}

@[simp] theorem pure_apply : (Code.pure x : Code A F E P R) frames old = ⟨[], old, .ok x⟩ := rfl

@[simp] theorem throw_apply :
    (Code.throw payload : Code A F E P R) frames old = ⟨[], old, .error payload⟩ := rfl

theorem bind_of_error (h : c frames old = ⟨log, new, .error payload⟩) :
    c.bind k frames old = ⟨log, new, .error payload⟩ := by
  simp only [bind, h]

theorem bind_of_ok (h : c frames old = ⟨log, new, .ok x⟩) :
    c.bind k frames old =
      ⟨log ++ (k x frames new).log, (k x frames new).slot, (k x frames new).res⟩ := by
  simp only [bind, h]

theorem tryCatch_of_ok (h : c frames old = ⟨log, new, .ok x⟩) :
    c.tryCatch handler frames old = ⟨log, new, .ok x⟩ := by
  simp only [tryCatch, h]

theorem tryCatch_of_error (h : c frames old = ⟨log, new, .error payload⟩) :
    c.tryCatch handler frames old = ⟨log ++ (handler payload frames new).log,
      (handler payload frames new).slot, (handler payload frames new).res⟩ := by
  simp only [tryCatch, h]

end Code

/-! ## The discipline -/

/-- What the innermost frame put into the slot; without a frame it is as it was at first. -/
def expected (content : F → Option A) (initial : Option A) : List F → Option A
  | [] => initial
  | frame :: _ => content frame

/-- Started with the expected value in the slot, the code leaves it there and records lawful events
only. -/
def Keeps (content : F → Option A) (initial : Option A) (lawful : E → Prop)
    (c : Code A F E P R) : Prop :=
  ∀ frames, (c frames (expected content initial frames)).slot = expected content initial frames ∧
    ∀ e ∈ (c frames (expected content initial frames)).log, lawful e

namespace Keeps

variable {content : F → Option A} {initial : Option A} {lawful : E → Prop}

theorem pure (x : R) : Keeps content initial lawful (Code.pure x : Code A F E P R) :=
  fun _ => ⟨rfl, fun _ he => by cases he⟩

theorem throw (payload : P) : Keeps content initial lawful (Code.throw payload : Code A F E P R) :=
  fun _ => ⟨rfl, fun _ he => by cases he⟩

theorem slot : Keeps content initial lawful (Code.slot : Code A F E P (Option A)) :=
  fun _ => ⟨rfl, fun _ he => by cases he⟩

theorem emit {e : List F → Option A → E}
    (h : ∀ frames, lawful (e frames (expected content initial frames))) :
    Keeps content initial lawful (Code.emit e : Code A F E P Unit) := by
  intro frames
  refine ⟨rfl, fun e' he => ?_⟩
  rw [List.mem_singleton.mp he]
  exact h frames

theorem bind {c : Code A F E P R} {k : R → Code A F E P S} (hc : Keeps content initial lawful c)
    (hk : ∀ x, Keeps content initial lawful (k x)) : Keeps content initial lawful (c.bind k) := by
  intro frames
  obtain ⟨hslot, hlog⟩ := hc frames
  rcases hr : c frames (expected content initial frames) with ⟨log, new, payload | x⟩
  · rw [Code.bind_of_error hr]
    rw [hr] at hslot hlog
    exact ⟨hslot, hlog⟩
  · rw [Code.bind_of_ok hr]
    rw [hr] at hslot hlog
    simp only at hslot
    subst hslot
    obtain ⟨hslot', hlog'⟩ := hk x frames
    exact ⟨hslot', List.forall_mem_append.mpr ⟨hlog, hlog'⟩⟩

theorem tryCatch {c : Code A F E P R} {handler : P → Code A F E P R}
    (hc : Keeps content initial lawful c)
    (hh : ∀ payload, Keeps content initial lawful (handler payload)) :
    Keeps content initial lawful (c.tryCatch handler) := by
  intro frames
  obtain ⟨hslot, hlog⟩ := hc frames
  rcases hr : c frames (expected content initial frames) with ⟨log, new, payload | x⟩
  · rw [Code.tryCatch_of_error hr]
    rw [hr] at hslot hlog
    simp only at hslot
    subst hslot
    obtain ⟨hslot', hlog'⟩ := hh payload frames
    exact ⟨hslot', List.forall_mem_append.mpr ⟨hlog, hlog'⟩⟩
  · rw [Code.tryCatch_of_ok hr]
    rw [hr] at hslot hlog
    exact ⟨hslot, hlog⟩

/-- The code inside a frame finds what the frame stands for; outside the old value is back. -/
theorem within {frame : F} {c : Code A F E P R} (hc : Keeps content initial lawful c) :
    Keeps content initial lawful ((c.inFrame frame).within (content frame)) := by
  intro frames
  obtain ⟨-, hlog⟩ := hc (frame :: frames)
  exact ⟨rfl, hlog⟩

end Keeps

end ScopedSlot
