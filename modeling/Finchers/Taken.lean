import Finchers.Refinement
import Finchers.Watched
import Finchers.Endpoints.Body
import Finchers.Endpoints.Fs
import Finchers.Tungstenite.Handshake

/-!
# The request body is taken once

`take_body` is the only way to the request body, and nothing puts a body back; so whatever the tree
of combinators is, what is taken in a run and what is left add up to the body the request came with.

* `takeWatch` — the monitor: the body is there until it is taken;
* `body_taken_once` — **at most one poll of a run takes the body**, and the body is gone iff one has.
-/

set_option autoImplicit false

namespace Finchers

open Resumable Transition

variable {ε Bd Env σ τ : Type} {ts us : List Type}

/-- Whether the body is there, read off the events. -/
def takeStep (m : Bool) (ev : Event) : Option Bool :=
  match ev.what with
  | .poll _ true => if m then some false else none
  | _ => some m

def takeWatch : Watch Bool where
  step := takeStep
  lift _ m := m
  Idle m b := m = b
  Blocked m b := m = b
  step_under h := h
  idle_under _ h := ⟨_, rfl, h⟩
  lift_idle _ h := h
  lift_blocked _ h := h
  early := by
    rintro m b ⟨p, what⟩ - h
    cases what with
    | preflight _ _ => rfl
    | call => rfl
    | poll _ _ => exact h.elim
    | pollFuture _ _ => exact h.elim
  leaf := by
    rintro m b b' out rfl hback
    refine ⟨b', ?_, by split <;> rfl⟩
    cases m <;> cases b'
    · rfl
    · exact absurd (hback rfl) Bool.false_ne_true
    · rfl
    · rfl
  panicked := by
    rintro m b rfl
    exact ⟨m, rfl⟩
  inFlight := by
    rintro m b slot out rfl
    exact ⟨m, rfl, by split <;> rfl⟩
  future := by
    rintro m b slot out rfl
    exact ⟨m, rfl, by split <;> rfl⟩

/-- How often the body was taken. -/
def taken (l : List Event) : Nat := (l.filterMap Event.takes).length

theorem taken_append (l l' : List Event) : taken (l ++ l') = taken l + taken l' := by
  unfold taken
  rw [List.filterMap_append, List.length_append]

/-- What was taken and what is left make up the body there was. -/
theorem run_takeStep {l : List Event} {m m' : Bool} (h : run takeStep m l = some m') :
    taken l + m'.toNat = m.toNat := by
  induction l generalizing m with
  | nil =>
    cases h
    exact Nat.zero_add _
  | cons ev l ih =>
    obtain ⟨m₁, hstep, h⟩ := run_cons.mp h
    have hrest := ih h
    have hone : taken [ev] + m₁.toNat = m.toNat := by
      obtain ⟨p, what⟩ := ev
      match what with
      | .poll out true =>
        obtain ⟨hm, hm₁⟩ := Option.ite_none_right_eq_some.mp hstep
        cases hm₁
        rw [hm]
        rfl
      | .poll out false => cases hstep; exact Nat.zero_add _
      | .preflight start out => cases hstep; exact Nat.zero_add _
      | .call => cases hstep; exact Nat.zero_add _
      | .pollFuture slot out => cases hstep; exact Nat.zero_add _
    have happ := taken_append [ev] l
    rw [List.singleton_append] at happ
    omega

theorem after_takeWatch {T : Type} {r : Poll (Error ε) T} {m : Bool} {w : World Bd Env}
    (h : takeWatch.After r m w) : m = w.hasBody := by
  unfold Watch.After at h
  split at h <;> exact h

open AppFuture Watch

/-- The polls of a run, one after the other. -/
theorem sees_drive (e : Endpoint ε Bd Env ts) (gs : List (Thread Env → Thread Env))
    (fut : AppFuture e.Action Bd) (th : Thread Env) :
    takeWatch.Sees fut.body.isSome (drive e.impl gs fut th) fun a m => m = a.2.1.body.isSome := by
  induction gs generalizing fut th with
  | nil => exact accepts_pure rfl
  | cons g gs ih =>
    refine accepts_bind ((sees_pollApply (e.watched takeWatch) fut (g th) rfl).mono ?_)
    rintro ⟨r, fut', th'⟩ m ha
    have hm : m = fut'.body.isSome := after_takeWatch ha
    subst hm
    rcases r with err | (x | -)
    · exact accepts_pure rfl
    · exact accepts_pure rfl
    · exact ih fut' th'

/-- What a run has taken of its body, and what is left of it. -/
theorem taken_drive (e : Endpoint ε Bd Env ts) (addr : Nat)
    (request : Request) (body : Bd) (gs : List (Thread Env → Thread Env)) (th : Thread Env) :
    ∃ m : Bool, taken (drive e.impl gs (.dispatch e addr request body) th).log + m.toNat = 1 ∧
      ∀ r fut th', (drive e.impl gs (.dispatch e addr request body) th).res = .ok (r, fut, th') →
        m = fut.body.isSome := by
  obtain ⟨⟨m, hrun, hm⟩, -⟩ := sees_drive e gs (.dispatch e addr request body) th
  exact ⟨m, run_takeStep hrun, fun r fut th' hres => hm _ hres⟩

/-- **At most one poll of a run takes the request body**, whatever the endpoint and however it is
polled, also in a run that panics; and a run has taken the body iff it is gone. -/
theorem body_taken_once (e : Endpoint ε Bd Env ts) (addr : Nat)
    (request : Request) (body : Bd) (gs : List (Thread Env → Thread Env)) (th : Thread Env) :
    taken (drive e.impl gs (.dispatch e addr request body) th).log ≤ 1 ∧
      ∀ r fut th', (drive e.impl gs (.dispatch e addr request body) th).res = .ok (r, fut, th') →
        taken (drive e.impl gs (.dispatch e addr request body) th).log =
          if fut.body.isSome then 0 else 1 := by
  obtain ⟨m, hsum, hm⟩ := taken_drive e addr request body gs th
  refine ⟨by omega, fun r fut th' hres => ?_⟩
  have hm := hm r fut th' hres
  subst hm
  cases hsome : fut.body.isSome with
  | true =>
    rw [hsome] at hsum
    have hsum : taken _ + 1 = 1 := hsum
    rw [if_pos rfl]
    omega
  | false =>
    rw [hsome] at hsum
    have hsum : taken _ + 0 = 1 := hsum
    rw [if_neg Bool.false_ne_true]
    omega

/-- `body::raw().and(body::raw())`. -/
def rawTwice : Endpoint Empty Unit Unit [Unit, Unit] :=
  .and (.leaf Unit (RawAction Unit) ()) (.leaf Unit (RawAction Unit) ())

/-- The left component takes the body, and then it is gone. -/
theorem body_taken_once_rawTwice : ∃ r fut th,
    (drive rawTwice.impl [id] (.dispatch rawTwice 0 getA ()) ⟨none, ()⟩).res = .ok (r, fut, th) ∧
      fut.body = none ∧
      taken (drive rawTwice.impl [id] (.dispatch rawTwice 0 getA ()) ⟨none, ()⟩).log = 1 :=
  ⟨_, _, _, rfl, rfl, (body_taken_once rawTwice 0 getA () [id] ⟨none, ()⟩).2 _ _ _ rfl⟩

end Finchers
