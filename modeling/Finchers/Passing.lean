import Finchers.Lib.Bisim
import Finchers.Service

/-!
# Runs that are alike

Two actions whose polls answer alike run alike: the events are the same under another name, and the
output is carried over.  An action that passes every poll on to a component runs as the component.

* `under_bind_eq_liftPoll` — a combinator that passes a poll on;
* `AppFuture.drive_bisim` — by induction on the schedule, from one poll to a run;
* `AppFuture.drive_passes` — the run of an action that passes every poll on.
-/

set_option autoImplicit false

namespace Finchers

open Resumable

variable {ε Bd Env σ τ : Type} {ts us : List Type}

/-- A combinator that passes a poll on to a component. -/
theorem under_bind_eq_liftPoll {X Y μ W : Type} (d : Dir) (f : X → Y) (i : σ → μ)
    (m : Traced Panic Event (Poll (Error ε) X × σ × W)) :
    (do
      let (r, s, w) ← under d m
      return (r.map f, i s, w)) = liftPoll (Event.under d) f i m := by
  rcases m.eq_ok_or_error with ⟨l, ⟨r, s, w⟩, rfl⟩ | ⟨l, p, rfl⟩
  · simp [liftPoll_mk_ok, under]
  · simp [liftPoll_mk_error, under]

/-- What the caller of a run sees: the result, and the context, the body and the thread after it. -/
def AppFuture.observe {σ : Type} {ts : List Type}
    (m : Traced Panic Event
      (Option (Except (Error ε) (HList ts)) × AppFuture σ Bd × Thread Env)) :
    Traced Panic Event
      (Option (Except (Error ε) (HList ts)) × Context × Option Bd × Thread Env) := do
  let (r, fut, th) ← m
  return (r, fut.context, fut.body, th)

namespace AppFuture

theorem observe_prepend (l : List Event)
    (m : Traced Panic Event
      (Option (Except (Error ε) (HList ts)) × AppFuture σ Bd × Thread Env)) :
    observe (m.prepend l) = (observe m).prepend l := by
  unfold observe
  rcases m.eq_ok_or_error with ⟨l', x, rfl⟩ | ⟨l', p, rfl⟩
  · simp
  · simp

/-- A run of a component, seen from the action that passes its polls on. -/
def passed (φ : Event → Event) (inj : HList ts → HList us)
    (m : Traced Panic Event
      (Option (Except (Error ε) (HList ts)) × AppFuture σ Bd × Thread Env)) :
    Traced Panic Event
      (Option (Except (Error ε) (HList us)) × Context × Option Bd × Thread Env) :=
  (do
    let (r, fut, th) ← m
    return (r.map (Except.map inj), fut.context, fut.body, th)).mapLog φ

theorem passed_prepend (φ : Event → Event) (inj : HList ts → HList us) (l : List Event)
    (m : Traced Panic Event
      (Option (Except (Error ε) (HList ts)) × AppFuture σ Bd × Thread Env)) :
    passed φ inj (m.prepend l) = (passed φ inj m).prepend (l.map φ) := by
  unfold passed
  rcases m.eq_ok_or_error with ⟨l', x, rfl⟩ | ⟨l', p, rfl⟩
  · simp
  · simp

/-- The output is passed on as it is. -/
theorem passed_id (φ : Event → Event)
    (m : Traced Panic Event
      (Option (Except (Error ε) (HList ts)) × AppFuture σ Bd × Thread Env)) :
    passed φ id m = (observe m).mapLog φ := by
  unfold passed observe
  rcases m.eq_ok_or_error with ⟨l, ⟨r, fut, th⟩, rfl⟩ | ⟨l, p, rfl⟩
  · rcases r with _ | err | x
    · rfl
    · rfl
    · rfl
  · rfl

/-- **Actions whose polls answer alike run alike.** -/
theorem drive_bisim {f : EndpointAction ε Bd Env σ ts} {e : EndpointAction ε Bd Env τ us}
    {φ : Event → Event} {inj : HList us → HList ts} {R : τ → σ → Prop}
    (hb : Bisim φ inj R e.pollAction f.pollAction) (gs : List (Thread Env → Thread Env))
    {s : τ} {m : σ} (h : R s m) (context : Context) (body : Option Bd) (th : Thread Env) :
    observe (drive f gs ⟨.inFlight m, context, body⟩ th) =
      passed φ inj (drive e gs ⟨.inFlight s, context, body⟩ th) := by
  induction gs generalizing s m context body th with
  | nil => rfl
  | cons g gs ih =>
    have hpoll := hb h ⟨⟨context, body⟩, g th⟩
    simp only [drive, pollApply, pollInFlight, world]
    generalize e.pollAction s ⟨⟨context, body⟩, g th⟩ = t at hpoll ⊢
    generalize f.pollAction m ⟨⟨context, body⟩, g th⟩ = t' at hpoll ⊢
    cases hpoll with
    | panic hl =>
      subst hl
      rfl
    | ready hl => simp [observe, passed, Except.map, hl]
    | err hl => simp [observe, passed, Except.map, hl]
    | @notReady l l' s' m' w hl h' =>
      subst hl
      have hrest := ih h' w.cx.context w.cx.body w.thread
      simp only [Traced.mk_ok_bind, Traced.pure_def, Traced.prepend_mk, List.append_nil]
      rw [observe_prepend, hrest, passed_prepend]

/-- An action that passes every poll on to a component runs as the component does. -/
theorem drive_passes {f : EndpointAction ε Bd Env σ ts} {e : EndpointAction ε Bd Env τ us}
    {φ : Event → Event} {inj : HList us → HList ts} {emb : τ → σ}
    (hp : ∀ s w, f.pollAction (emb s) w = liftPoll φ inj emb (e.pollAction s w))
    (gs : List (Thread Env → Thread Env)) (s : τ) (context : Context) (body : Option Bd)
    (th : Thread Env) :
    observe (drive f gs ⟨.inFlight (emb s), context, body⟩ th) =
      passed φ inj (drive e gs ⟨.inFlight s, context, body⟩ th) :=
  drive_bisim (Bisim.of_liftPoll hp) gs rfl context body th

end AppFuture

end Finchers
