import Finchers.Juniper.Request
import Finchers.Lib.Join
import Finchers.Lib.Schedule
import Mathlib.Data.Nat.Pairing

/-!
# GraphQL executors

Three futures that wait for a context and a request and then execute the request: `current_thread`
in its own poll, `nonblocking` and `with_spawner` in a task of which they keep a handle.

* `CurrentThreadFuture.poll`, `NonblockingFuture.poll`, `WithSpawnerFuture.poll` — the three futures;
* `Executor`, `step` — a future, its tasks and the requests that were executed, under a scheduler that
  polls the future and the tasks in any order;
* `Serves` — the future has one result and the request is executed as often as that needs;
* `executors_agree` — **the three futures have the same result under all schedules**, and execute the
  request exactly once if the context and the request are there and not at all if one of them fails.
-/

set_option autoImplicit false

namespace Finchers.Juniper

open Resumable

variable {E V Ctx R : Type}

/-! ## The futures -/

/-- `GraphQLTask`, and the captures of the closure of `nonblocking`. -/
structure GraphQLTask (V Ctx : Type) where
  request : GraphQLRequest V
  context : Ctx

/-- The request of the task is executed on its context. -/
def GraphQLTask.execute (schema : Schema V Ctx R) (task : GraphQLTask V Ctx) :
    Recorded V Ctx GraphQLResponse :=
  task.request.execute schema task.context

/-- What that runs. -/
def GraphQLTask.executions (task : GraphQLTask V Ctx) : List (Execution V Ctx) :=
  task.request.executions task.context

theorem GraphQLTask.execute_eq (schema : Schema V Ctx R) (task : GraphQLTask V Ctx) :
    task.execute schema =
      ⟨task.executions, .ok (task.request.response schema task.context)⟩ :=
  task.request.execute_eq schema task.context

/-- A spawned task: it is not finished, or it has a result, which reaches its handle later. -/
inductive TaskState (F V Ctx : Type) where
  | pending (task : GraphQLTask V Ctx)
  | done (result : Except F GraphQLResponse)
  | delivered (result : Except F GraphQLResponse)

/-- `SpawnHandle::poll`. -/
def pollHandle {F : Type} (tasks : List (TaskState F V Ctx)) (handle : Nat) : Poll F GraphQLResponse :=
  match tasks[handle]? with
  | some (.delivered result) => .ofResult result
  | _ => .ok .notReady

/-- What a poll of a future leaves: its answer, the future and the tasks. -/
abbrev Polled (E F V Ctx σ : Type) := Poll E GraphQLResponse × σ × List (TaskState F V Ctx)

/-- `CurrentThreadFuture::poll`; the future has been polled `polled` times.  It has no tasks. -/
def CurrentThreadFuture.poll (schema : Schema V Ctx R) (inner : Answers E (Ctx × GraphQLRequest V))
    (polled : Nat) (tasks : List (TaskState Empty V Ctx)) : Recorded V Ctx (Polled E Empty V Ctx Nat) :=
  match inner polled with
  | .error e => return (.error e, polled + 1, tasks)
  | .ok .notReady => return (.ok .notReady, polled + 1, tasks)
  | .ok (.ready (context, request)) => do
    let response ← request.execute schema context
    return (.ok (.ready response), polled + 1, tasks)

/-- `NonblockingFuture` and `WithSpawnerFuture`. -/
structure SpawningFuture where
  polled : Nat
  handle : Option Nat

/-- The `poll` of either; `answer` turns the answer of the handle into that of the future. -/
def SpawningFuture.poll {F : Type}
    (answer : Poll F GraphQLResponse → Recorded V Ctx (Poll E GraphQLResponse))
    (inner : Answers E (Ctx × GraphQLRequest V)) (s : SpawningFuture)
    (tasks : List (TaskState F V Ctx)) : Recorded V Ctx (Polled E F V Ctx SpawningFuture) :=
  match s.handle with
  | some handle => do
    let r ← answer (pollHandle tasks handle)
    return (r, s, tasks)
  | none =>
    match inner s.polled with
    | .error e => return (.error e, ⟨s.polled + 1, none⟩, tasks)
    | .ok .notReady => return (.ok .notReady, ⟨s.polled + 1, none⟩, tasks)
    | .ok (.ready (context, request)) => do
      let handle := tasks.length
      let tasks := tasks ++ [.pending ⟨request, context⟩]
      let r ← answer (pollHandle tasks handle)
      return (r, ⟨s.polled + 1, some handle⟩, tasks)

/-- `NonblockingFuture::poll`. -/
def NonblockingFuture.poll (inner : Answers E (Ctx × GraphQLRequest V)) :
    SpawningFuture → List (TaskState E V Ctx) → Recorded V Ctx (Polled E E V Ctx SpawningFuture) :=
  SpawningFuture.poll pure inner

/-- The answer of the handle; an error is `unreachable!()`. -/
def WithSpawnerFuture.answer : Poll Unit GraphQLResponse → Recorded V Ctx (Poll E GraphQLResponse)
  | .ok x => return .ok x
  | .error _ => Traced.panic ()

/-- `WithSpawnerFuture::poll`. -/
def WithSpawnerFuture.poll (inner : Answers E (Ctx × GraphQLRequest V)) :
    SpawningFuture → List (TaskState Unit V Ctx) → Recorded V Ctx (Polled E Unit V Ctx SpawningFuture) :=
  SpawningFuture.poll WithSpawnerFuture.answer inner

/-- The future of `rt::blocking_section`, polled when a thread for blocking work is free or not: it
runs the closure, which does not fail. -/
def blockingSection (schema : Schema V Ctx R) (free : Bool) (task : GraphQLTask V Ctx) :
    Recorded V Ctx (Poll E GraphQLResponse) :=
  if free then do
    let response ← task.execute schema
    return .ok (.ready response)
  else return .ok .notReady

/-- `GraphQLTask::poll`. -/
def GraphQLTask.poll (schema : Schema V Ctx R) (task : GraphQLTask V Ctx) :
    Recorded V Ctx (Poll Unit GraphQLResponse) := do
  let response ← task.execute schema
  return .ok (.ready response)

/-! ## The system -/

/-- An executor: the future that it makes, and what polling one of its tasks does, with a free thread
for blocking work or without. -/
structure Executor (E F V Ctx σ : Type) where
  init : σ
  poll : σ → List (TaskState F V Ctx) → Recorded V Ctx (Polled E F V Ctx σ)
  pollTask : Bool → GraphQLTask V Ctx → Recorded V Ctx (Poll F GraphQLResponse)

/-- `current_thread`. -/
def currentThread (schema : Schema V Ctx R) (inner : Answers E (Ctx × GraphQLRequest V)) :
    Executor E Empty V Ctx Nat where
  init := 0
  poll := CurrentThreadFuture.poll schema inner
  pollTask _ _ := return .ok .notReady

/-- `nonblocking`. -/
def nonblocking (schema : Schema V Ctx R) (inner : Answers E (Ctx × GraphQLRequest V)) :
    Executor E E V Ctx SpawningFuture where
  init := ⟨0, none⟩
  poll := NonblockingFuture.poll inner
  pollTask := blockingSection schema

/-- `with_spawner`. -/
def withSpawner (schema : Schema V Ctx R) (inner : Answers E (Ctx × GraphQLRequest V)) :
    Executor E Unit V Ctx SpawningFuture where
  init := ⟨0, none⟩
  poll := WithSpawnerFuture.poll inner
  pollTask _ := GraphQLTask.poll schema

/-- How a future ended. -/
inductive Outcome (E : Type) where
  | resolved (r : Except E GraphQLResponse)
  | panicked

structure System (E F V Ctx σ : Type) where
  future : σ
  outcome : Option (Outcome E)
  tasks : List (TaskState F V Ctx)
  executed : List (Execution V Ctx)

/-- A step of the scheduler: the future is polled; the task `i` is polled; the result of the task `i`
reaches its handle. -/
inductive Step where
  | poll
  | run (i : Nat) (free : Bool)
  | deliver (i : Nat)
  deriving DecidableEq, Repr

variable {F σ : Type}

/-- The outcome that an answer stands for. -/
def Outcome.ofPoll : Poll E GraphQLResponse → Option (Outcome E)
  | .ok .notReady => none
  | .ok (.ready response) => some (.resolved (.ok response))
  | .error e => some (.resolved (.error e))

/-- One step.  A future that has ended is not polled again, and neither is a task. -/
def step (x : Executor E F V Ctx σ) (w : System E F V Ctx σ) : Step → System E F V Ctx σ
  | .poll =>
    match w.outcome with
    | some _ => w
    | none =>
      match x.poll w.future w.tasks with
      | ⟨log, .ok (r, future, tasks)⟩ => ⟨future, Outcome.ofPoll r, tasks, w.executed ++ log⟩
      | ⟨log, .error _⟩ => { w with outcome := some .panicked, executed := w.executed ++ log }
  | .run i free =>
    match w.tasks[i]? with
    | some (.pending task) =>
      match x.pollTask free task with
      | ⟨log, .ok (.ok (.ready response))⟩ =>
        { w with tasks := w.tasks.set i (.done (.ok response)), executed := w.executed ++ log }
      | ⟨log, .ok (.error e)⟩ =>
        { w with tasks := w.tasks.set i (.done (.error e)), executed := w.executed ++ log }
      | ⟨log, _⟩ => { w with executed := w.executed ++ log }
    | _ => w
  | .deliver i =>
    match w.tasks[i]? with
    | some (.done result) => { w with tasks := w.tasks.set i (.delivered result) }
    | _ => w

/-- The states of the system under a schedule. -/
def Executor.states (x : Executor E F V Ctx σ) (sched : Nat → Step) : Nat → System E F V Ctx σ :=
  Schedule.states (step x) ⟨x.init, none, [], []⟩ sched

/-- The future is polled again and again, as long as it has not ended; a spawned task is eventually run
to completion, and its result reaches the handle. -/
structure Fair (sched : Nat → Step) : Prop where
  poll : Schedule.Often sched .poll
  run : ∀ i, Schedule.Often sched (.run i true)
  deliver : ∀ i, Schedule.Often sched (.deliver i)

/-! ## One executor -/

/-- What an executor makes of the result of the joined futures. -/
def resultOf (schema : Schema V Ctx R) (r : Except E (Ctx × GraphQLRequest V)) :
    Except E GraphQLResponse :=
  r.map fun (context, request) => request.response schema context

/-- What has to be run for that: the request, or each request of the batch, once. -/
def executionsOf : Except E (Ctx × GraphQLRequest V) → List (Execution V Ctx)
  | .ok (context, request) => request.executions context
  | .error _ => []

/-- The future ends, and if it has ended then with the result of `r`, and what had to be executed has
been executed; nothing else is executed at any time. -/
structure Serves (schema : Schema V Ctx R) (x : Executor E F V Ctx σ) (sched : Nat → Step)
    (r : Except E (Ctx × GraphQLRequest V)) : Prop where
  ends : ∃ n, (x.states sched n).outcome.isSome
  only : ∀ n o, (x.states sched n).outcome = some o →
    o = .resolved (resultOf schema r) ∧ (x.states sched n).executed = executionsOf r
  once : ∀ n, (x.states sched n).executed = [] ∨ (x.states sched n).executed = executionsOf r

section

variable {schema : Schema V Ctx R} {inner : Answers E (Ctx × GraphQLRequest V)} {k : Nat}
  {r : Except E (Ctx × GraphQLRequest V)} {sched : Nat → Step}

/-- An executor serves if an invariant says what it can have done, each step that changes anything
brings a measure down that reaches zero only when the future has ended, and some step that is taken
again and again changes something until then. -/
theorem serves_of_invariant {x : Executor E F V Ctx σ} {I : System E F V Ctx σ → Prop}
    (size : System E F V Ctx σ → Nat) (helpful : System E F V Ctx σ → Step)
    (hinit : I ⟨x.init, none, [], []⟩)
    (hstep : ∀ {w st}, I w → step x w st = w ∨ (I (step x w st) ∧ size (step x w st) < size w))
    (hended : ∀ {w o}, I w → w.outcome = some o →
      o = .resolved (resultOf schema r) ∧ w.executed = executionsOf r)
    (honce : ∀ {w}, I w → w.executed = [] ∨ w.executed = executionsOf r)
    (hzero : ∀ {w}, I w → size w = 0 → w.outcome.isSome)
    (hhelp : ∀ {w}, I w → 0 < size w → size (step x w (helpful w)) < size w)
    (hoften : ∀ {w}, I w → 0 < size w → Schedule.Often sched (helpful w)) :
    Serves schema x sched r := by
  have hkeep : ∀ {w st}, I w → I (step x w st) := by
    intro w st h
    rcases hstep h with heq | ⟨hnext, -⟩
    · exact heq.symm ▸ h
    · exact hnext
  have hstay : ∀ {w st}, I w → 0 < size w → size (step x w st) < size w ∨
      (size (step x w st) = size w ∧ helpful (step x w st) = helpful w) := by
    intro w st h _
    rcases hstep h with heq | ⟨-, hlt⟩
    · exact Or.inr ⟨congrArg size heq, congrArg helpful heq⟩
    · exact Or.inl hlt
  have hI : ∀ n, I (x.states sched n) := Schedule.invariant hinit hkeep
  refine ⟨?_, fun n o ho => hended (hI n) ho, fun n => honce (hI n)⟩
  obtain ⟨n, hn⟩ := Schedule.eventually_zero size helpful hI hstay hhelp hoften
  exact ⟨n, hzero (hI n) hn⟩

/-- The future of `current_thread` waits for the joined futures, or has ended. -/
inductive CurrentThreadInv (schema : Schema V Ctx R) (k : Nat) (r : Except E (Ctx × GraphQLRequest V)) :
    System E Empty V Ctx Nat → Prop where
  | waiting {p : Nat} (hp : p ≤ k) : CurrentThreadInv schema k r ⟨p, none, [], []⟩
  | ended : CurrentThreadInv schema k r
      ⟨k + 1, some (.resolved (resultOf schema r)), [], executionsOf r⟩

/-- A poll of the future of `current_thread` that waits. -/
theorem currentThread_poll (hinner : Settles inner k r) {p : Nat} (hp : p ≤ k) :
    step (currentThread schema inner) ⟨p, none, [], []⟩ .poll =
      if p < k then ⟨p + 1, none, [], []⟩
      else ⟨k + 1, some (.resolved (resultOf schema r)), [], executionsOf r⟩ := by
  unfold step currentThread CurrentThreadFuture.poll
  by_cases hlt : p < k
  · simp only [hinner.before p hlt, if_pos hlt]
    rfl
  · have heq : p = k := by omega
    subst heq
    simp only [hinner.answer, if_neg hlt]
    rcases r with e | ⟨context, request⟩
    · rfl
    · simp only [Poll.ofResult, request.execute_eq, Traced.mk_ok_bind, Traced.pure_def,
        Traced.prepend_mk, List.append_nil]
      rfl

/-- How many polls are left at most. -/
def currentThreadSize (k : Nat) (w : System E Empty V Ctx Nat) : Nat :=
  match w.outcome with
  | some _ => 0
  | none => k + 1 - w.future

theorem currentThread_poll_size (hinner : Settles inner k r) {p : Nat} (hp : p ≤ k) :
    CurrentThreadInv schema k r (step (currentThread schema inner) ⟨p, none, [], []⟩ .poll) ∧
      currentThreadSize k (step (currentThread schema inner) ⟨p, none, [], []⟩ .poll) < k + 1 - p := by
  rw [currentThread_poll hinner hp]
  split
  · next hlt =>
    refine ⟨.waiting hlt, ?_⟩
    show k + 1 - (p + 1) < k + 1 - p
    omega
  · refine ⟨.ended, ?_⟩
    show 0 < k + 1 - p
    omega

theorem currentThread_step (hinner : Settles inner k r) {w : System E Empty V Ctx Nat} {st : Step}
    (h : CurrentThreadInv schema k r w) : step (currentThread schema inner) w st = w ∨
      (CurrentThreadInv schema k r (step (currentThread schema inner) w st) ∧
        currentThreadSize k (step (currentThread schema inner) w st) < currentThreadSize k w) := by
  cases h with
  | waiting hp =>
    cases st with
    | poll => exact Or.inr (currentThread_poll_size hinner hp)
    | run i free => exact Or.inl rfl
    | deliver i => exact Or.inl rfl
  | ended => cases st <;> exact Or.inl rfl

theorem serves_currentThread (hinner : Settles inner k r) (hfair : Fair sched) :
    Serves schema (currentThread schema inner) sched r := by
  refine serves_of_invariant (I := CurrentThreadInv schema k r) (currentThreadSize k) (fun _ => .poll)
    (.waiting (Nat.zero_le k)) (fun h => currentThread_step hinner h) ?_ ?_ ?_ ?_
    fun _ _ => hfair.poll
  · intro w o h ho
    cases h with
    | waiting => cases ho
    | ended =>
      cases ho
      exact ⟨rfl, rfl⟩
  · intro w h
    cases h with
    | waiting => exact Or.inl rfl
    | ended => exact Or.inr rfl
  · intro w h hsize
    cases h with
    | @waiting p hp =>
      have hsize : k + 1 - p = 0 := hsize
      omega
    | ended => rfl
  · intro w h hpos
    cases h with
    | waiting hp => exact (currentThread_poll_size hinner hp).2
    | ended => cases hpos

/-! ## Spawned tasks -/

/-- The future spawns a task when the joined futures are ready, and answers what its handle does; a
task executes the request when it gets a free thread, and otherwise it does so or waits. -/
structure Spawns (schema : Schema V Ctx R) (inner : Answers E (Ctx × GraphQLRequest V))
    (x : Executor E F V Ctx SpawningFuture) : Prop where
  init : x.init = ⟨0, none⟩
  poll : ∃ answer, x.poll = SpawningFuture.poll answer inner ∧ ∀ a, answer (.ok a) = pure (.ok a)
  runFree : ∀ t, x.pollTask true t =
    ⟨t.executions, .ok (.ok (.ready (t.request.response schema t.context)))⟩
  runBusy : ∀ t, x.pollTask false t = x.pollTask true t ∨ x.pollTask false t = ⟨[], .ok (.ok .notReady)⟩

theorem spawns_nonblocking : Spawns schema inner (nonblocking schema inner) where
  init := rfl
  poll := ⟨pure, rfl, fun _ => rfl⟩
  runFree t := by
    show t.execute schema >>= _ = _
    rw [t.execute_eq, Traced.mk_ok_bind]
    simp
  runBusy _ := Or.inr rfl

theorem spawns_withSpawner : Spawns schema inner (withSpawner schema inner) where
  init := rfl
  poll := ⟨WithSpawnerFuture.answer, rfl, fun _ => rfl⟩
  runFree t := by
    show t.execute schema >>= _ = _
    rw [t.execute_eq, Traced.mk_ok_bind]
    simp
  runBusy _ := Or.inl rfl

/-- Where an executor with a task is: it waits for the joined futures and has no task; they have failed;
its only task is pending, done or delivered; it has answered. -/
inductive SpawningInv (schema : Schema V Ctx R) (k : Nat) (r : Except E (Ctx × GraphQLRequest V)) :
    System E F V Ctx SpawningFuture → Prop where
  | waiting {p : Nat} (hp : p ≤ k) : SpawningInv schema k r ⟨⟨p, none⟩, none, [], []⟩
  | failed {e : E} (hr : r = .error e) :
      SpawningInv schema k r ⟨⟨k + 1, none⟩, some (.resolved (.error e)), [], []⟩
  | pending {c : Ctx} {q : GraphQLRequest V} (hr : r = .ok (c, q)) :
      SpawningInv schema k r ⟨⟨k + 1, some 0⟩, none, [.pending ⟨q, c⟩], []⟩
  | done {c : Ctx} {q : GraphQLRequest V} (hr : r = .ok (c, q)) :
      SpawningInv schema k r ⟨⟨k + 1, some 0⟩, none, [.done (.ok (q.response schema c))], q.executions c⟩
  | delivered {c : Ctx} {q : GraphQLRequest V} (hr : r = .ok (c, q)) :
      SpawningInv schema k r
        ⟨⟨k + 1, some 0⟩, none, [.delivered (.ok (q.response schema c))], q.executions c⟩
  | answered {c : Ctx} {q : GraphQLRequest V} (hr : r = .ok (c, q)) :
      SpawningInv schema k r ⟨⟨k + 1, some 0⟩, some (.resolved (.ok (q.response schema c))),
        [.delivered (.ok (q.response schema c))], q.executions c⟩

variable {x : Executor E F V Ctx SpawningFuture}

theorem spawning_poll_waiting (hx : Spawns schema inner x) (hinner : Settles inner k r) {p : Nat}
    (hp : p < k) : step x ⟨⟨p, none⟩, none, [], []⟩ .poll = ⟨⟨p + 1, none⟩, none, [], []⟩ := by
  obtain ⟨answer, hpoll, -⟩ := hx.poll
  simp only [step, hpoll, SpawningFuture.poll, hinner.before p hp]
  rfl

theorem spawning_poll_failed (hx : Spawns schema inner x) {e : E}
    (hinner : Settles inner k (.error e)) : step x ⟨⟨k, none⟩, none, [], []⟩ .poll =
      ⟨⟨k + 1, none⟩, some (.resolved (.error e)), [], []⟩ := by
  obtain ⟨answer, hpoll, -⟩ := hx.poll
  simp only [step, hpoll, SpawningFuture.poll, hinner.answer, Poll.ofResult]
  rfl

/-- The task is spawned, and the handle is polled at once. -/
theorem spawning_poll_spawns (hx : Spawns schema inner x) {c : Ctx} {q : GraphQLRequest V}
    (hinner : Settles inner k (.ok (c, q))) : step x ⟨⟨k, none⟩, none, [], []⟩ .poll =
      ⟨⟨k + 1, some 0⟩, none, [.pending ⟨q, c⟩], []⟩ := by
  obtain ⟨answer, hpoll, hanswer⟩ := hx.poll
  have hhandle : pollHandle ([] ++ [(.pending ⟨q, c⟩ : TaskState F V Ctx)])
      ([] : List (TaskState F V Ctx)).length = .ok .notReady := rfl
  simp only [step, hpoll, SpawningFuture.poll, hinner.answer, Poll.ofResult, hhandle, hanswer]
  rfl

/-- From then on only the handle is polled. -/
theorem spawning_poll_handle (hx : Spawns schema inner x) {n : Nat} {task : TaskState F V Ctx}
    {executed : List (Execution V Ctx)} {a : Async GraphQLResponse}
    (h : pollHandle [task] 0 = .ok a) : step x ⟨⟨n, some 0⟩, none, [task], executed⟩ .poll =
      ⟨⟨n, some 0⟩, Outcome.ofPoll (.ok a), [task], executed⟩ := by
  obtain ⟨answer, hpoll, hanswer⟩ := hx.poll
  simp only [step, hpoll, SpawningFuture.poll, h, hanswer, Traced.pure_def, Traced.mk_ok_bind,
    Traced.prepend_mk, List.append_nil]

/-- A poll of the task executes the request, or changes nothing. -/
theorem spawning_run (hx : Spawns schema inner x) {s : SpawningFuture} {c : Ctx}
    {q : GraphQLRequest V} (free : Bool) :
    step x ⟨s, none, [.pending ⟨q, c⟩], []⟩ (.run 0 free) =
        ⟨s, none, [.done (.ok (q.response schema c))], q.executions c⟩ ∨
      (free = false ∧ step x ⟨s, none, [.pending ⟨q, c⟩], []⟩ (.run 0 free) =
        ⟨s, none, [.pending ⟨q, c⟩], []⟩) := by
  have hrun : ∀ b, x.pollTask b ⟨q, c⟩ = x.pollTask true ⟨q, c⟩ →
      step x ⟨s, none, [.pending ⟨q, c⟩], []⟩ (.run 0 b) =
        ⟨s, none, [.done (.ok (q.response schema c))], q.executions c⟩ := by
    intro b hb
    simp only [step, List.getElem?_cons_zero, hb, hx.runFree]
    rfl
  cases free with
  | true => exact Or.inl (hrun true rfl)
  | false =>
    rcases hx.runBusy ⟨q, c⟩ with hb | hb
    · exact Or.inl (hrun false hb)
    · refine Or.inr ⟨rfl, ?_⟩
      simp only [step, List.getElem?_cons_zero, hb]
      rfl

/-- How many steps are left at most of those that bring the future to its end. -/
def spawningSize (k : Nat) (w : System E F V Ctx SpawningFuture) : Nat :=
  match w.outcome, w.tasks with
  | some _, _ => 0
  | none, .pending _ :: _ => 3
  | none, .done _ :: _ => 2
  | none, .delivered _ :: _ => 1
  | none, [] => k - w.future.polled + 4

/-- The step that brings the future nearer to its end. -/
def spawningHelpful (w : System E F V Ctx SpawningFuture) : Step :=
  match w.tasks with
  | .pending _ :: _ => .run 0 true
  | .done _ :: _ => .deliver 0
  | _ => .poll

/-- A poll of the future while it waits for the joined futures. -/
theorem spawning_poll_size (hx : Spawns schema inner x) (hinner : Settles inner k r) {p : Nat}
    (hp : p ≤ k) : SpawningInv schema k r (step x ⟨⟨p, none⟩, none, [], []⟩ .poll) ∧
      spawningSize k (step x ⟨⟨p, none⟩, none, [], []⟩ .poll) < k - p + 4 := by
  by_cases hlt : p < k
  · rw [spawning_poll_waiting hx hinner hlt]
    refine ⟨.waiting hlt, ?_⟩
    show k - (p + 1) + 4 < k - p + 4
    omega
  · have heq : p = k := by omega
    subst heq
    rcases r with e | ⟨c, q⟩
    · rw [spawning_poll_failed hx hinner]
      refine ⟨.failed rfl, ?_⟩
      show 0 < p - p + 4
      omega
    · rw [spawning_poll_spawns hx hinner]
      refine ⟨.pending rfl, ?_⟩
      show 3 < p - p + 4
      omega

/-- Each step brings the future nearer to its end or changes nothing. -/
theorem spawning_step (hx : Spawns schema inner x) (hinner : Settles inner k r)
    {w : System E F V Ctx SpawningFuture} {st : Step} (h : SpawningInv schema k r w) :
    step x w st = w ∨ (SpawningInv schema k r (step x w st) ∧
      spawningSize k (step x w st) < spawningSize k w) := by
  cases h with
  | waiting hp =>
    cases st with
    | poll => exact Or.inr (spawning_poll_size hx hinner hp)
    | run i free => exact Or.inl rfl
    | deliver i => exact Or.inl rfl
  | failed | answered =>
    cases st with
    | poll => exact Or.inl rfl
    | run i free => cases i <;> exact Or.inl rfl
    | deliver i => cases i <;> exact Or.inl rfl
  | pending hr =>
    cases st with
    | poll => exact Or.inl (spawning_poll_handle (a := .notReady) hx rfl)
    | run i free =>
      cases i with
      | zero =>
        rcases spawning_run hx free with heq | ⟨-, heq⟩
        · rw [heq]
          exact Or.inr ⟨.done hr, by show 2 < 3; omega⟩
        · exact Or.inl heq
      | succ i => exact Or.inl rfl
    | deliver i => cases i <;> exact Or.inl rfl
  | done hr =>
    cases st with
    | poll => exact Or.inl (spawning_poll_handle (a := .notReady) hx rfl)
    | run i free => cases i <;> exact Or.inl rfl
    | deliver i =>
      cases i with
      | zero => exact Or.inr ⟨.delivered hr, by show 1 < 2; omega⟩
      | succ i => exact Or.inl rfl
  | delivered hr =>
    cases st with
    | poll =>
      rw [spawning_poll_handle hx rfl]
      exact Or.inr ⟨.answered hr, by show 0 < 1; omega⟩
    | run i free => cases i <;> exact Or.inl rfl
    | deliver i => cases i <;> exact Or.inl rfl

/-- Until the future has ended, its helpful step is one. -/
theorem spawning_helps (hx : Spawns schema inner x) (hinner : Settles inner k r)
    {w : System E F V Ctx SpawningFuture} (h : SpawningInv schema k r w) (hpos : 0 < spawningSize k w) :
    spawningSize k (step x w (spawningHelpful w)) < spawningSize k w := by
  cases h with
  | waiting hp => exact (spawning_poll_size hx hinner hp).2
  | failed | answered => cases hpos
  | pending hr =>
    rcases spawning_run hx true with heq | ⟨hfree, -⟩
    · rw [spawningHelpful, heq]
      show 2 < 3
      omega
    · cases hfree
  | done hr =>
    show 1 < 2
    omega
  | delivered hr =>
    rw [spawningHelpful, spawning_poll_handle hx rfl]
    show 0 < 1
    omega

theorem serves_spawning (hx : Spawns schema inner x) (hinner : Settles inner k r)
    (hfair : Fair sched) : Serves schema x sched r := by
  have hinit : SpawningInv schema k r (⟨x.init, none, [], []⟩ : System E F V Ctx SpawningFuture) := by
    rw [hx.init]
    exact .waiting (Nat.zero_le k)
  refine serves_of_invariant (I := SpawningInv schema k r) (spawningSize k) spawningHelpful hinit
    (fun h => spawning_step hx hinner h) ?_ ?_ ?_ (fun h hpos => spawning_helps hx hinner h hpos) ?_
  · intro w o h ho
    cases h with
    | waiting | pending | done | delivered => cases ho
    | failed hr =>
      cases ho
      subst hr
      exact ⟨rfl, rfl⟩
    | answered hr =>
      cases ho
      subst hr
      exact ⟨rfl, rfl⟩
  · intro w h
    cases h with
    | waiting | failed | pending => exact Or.inl rfl
    | done hr | delivered hr | answered hr =>
      subst hr
      exact Or.inr rfl
  · intro w h hsize
    cases h with
    | @waiting p hp =>
      have hsize : k - p + 4 = 0 := hsize
      omega
    | failed | answered => rfl
    | pending | done | delivered => cases hsize
  · intro w h _
    cases h with
    | pending hr => exact hfair.run 0
    | done hr => exact hfair.deliver 0
    | waiting | failed | delivered | answered => exact hfair.poll

/-! ## Endless waiting -/

/-- The future never ends, and nothing is executed. -/
def Idle (x : Executor E F V Ctx σ) (sched : Nat → Step) : Prop :=
  ∀ n, (x.states sched n).outcome = none ∧ (x.states sched n).executed = []

/-- A future is idle if all its polls find the joined futures waiting. -/
theorem idle_of_poll {x : Executor E F V Ctx σ} (future : Nat → σ) (hinit : x.init = future 0)
    (hpoll : ∀ p, step x ⟨future p, none, [], []⟩ .poll = ⟨future (p + 1), none, [], []⟩) :
    Idle x sched := by
  have hstep : ∀ {w : System E F V Ctx σ} {st : Step}, (∃ p, w = ⟨future p, none, [], []⟩) →
      ∃ p, step x w st = ⟨future p, none, [], []⟩ := by
    rintro _ st ⟨p, rfl⟩
    cases st with
    | poll => exact ⟨p + 1, hpoll p⟩
    | run i free => exact ⟨p, rfl⟩
    | deliver i => exact ⟨p, rfl⟩
  intro n
  obtain ⟨p, hp⟩ : ∃ p, x.states sched n = ⟨future p, none, [], []⟩ :=
    Schedule.invariant (I := fun w : System E F V Ctx σ => ∃ p, w = ⟨future p, none, [], []⟩)
      ⟨0, by rw [hinit]⟩ hstep n
  rw [hp]
  exact ⟨rfl, rfl⟩

theorem idle_currentThread (hinner : ∀ n, inner n = .ok .notReady) :
    Idle (currentThread schema inner) sched := by
  refine idle_of_poll (fun p => p) rfl fun p => ?_
  simp only [step, currentThread, CurrentThreadFuture.poll, hinner]
  rfl

theorem idle_spawning (hx : Spawns schema inner x) (hinner : ∀ n, inner n = .ok .notReady) :
    Idle x sched := by
  obtain ⟨answer, hpoll, -⟩ := hx.poll
  refine idle_of_poll (fun p => ⟨p, none⟩) hx.init fun p => ?_
  simp only [step, hpoll, SpawningFuture.poll, hinner]
  rfl

end

/-! ## The three executors -/

/-- All three futures serve under every fair schedule. -/
def AllServe (schema : Schema V Ctx R) (inner : Answers E (Ctx × GraphQLRequest V))
    (r : Except E (Ctx × GraphQLRequest V)) : Prop :=
  ∀ sched, Fair sched → Serves schema (currentThread schema inner) sched r ∧
    Serves schema (nonblocking schema inner) sched r ∧ Serves schema (withSpawner schema inner) sched r

theorem allServe {schema : Schema V Ctx R} {inner : Answers E (Ctx × GraphQLRequest V)} {k : Nat}
    {r : Except E (Ctx × GraphQLRequest V)} (hinner : Settles inner k r) : AllServe schema inner r :=
  fun _ hfair => ⟨serves_currentThread hinner hfair, serves_spawning spawns_nonblocking hinner hfair,
    serves_spawning spawns_withSpawner hinner hfair⟩

/-- **The executors agree.**  Let the context and the request be there after any number of polls each,
and let the future and its tasks be polled in any fair order.  If both succeed, then each of the three
futures ends with the response of the request in the context, and the request is executed once.  If one
of them fails, then each ends with the same error, that of a side, and nothing is executed.  If neither
fails and one of them is never there, then none of them ends and nothing is executed. -/
theorem executors_agree
    {join : Answers E Ctx → Answers E (GraphQLRequest V) → Answers E (Ctx × GraphQLRequest V)}
    (hjoin : JoinSpec join) (schema : Schema V Ctx R) (context : Answers E Ctx)
    (request : Answers E (GraphQLRequest V)) :
    (∀ i j c q, Settles context i (.ok c) → Settles request j (.ok q) →
      AllServe schema (join context request) (.ok (c, q))) ∧
    ((∃ i e, Settles context i (.error e)) ∨ (∃ j e, Settles request j (.error e)) →
      ∃ e, ((∃ i, Settles context i (.error e)) ∨ ∃ j, Settles request j (.error e)) ∧
        AllServe schema (join context request) (.error e)) ∧
    ((∀ i e, ¬ Settles context i (.error e)) → (∀ j e, ¬ Settles request j (.error e)) →
      ((∀ n, context n = .ok .notReady) ∨ ∀ n, request n = .ok .notReady) →
      ∀ sched, Idle (currentThread schema (join context request)) sched ∧
        Idle (nonblocking schema (join context request)) sched ∧
        Idle (withSpawner schema (join context request)) sched) := by
  refine ⟨fun i j c q hc hq => allServe (hjoin.settles_ok hc hq), fun h => ?_, fun hc hq h sched => ?_⟩
  · obtain ⟨k, e, hside, hk⟩ := hjoin.settles_error h
    exact ⟨e, hside, allServe hk⟩
  · have hwaits := hjoin.waits_forever hc hq h
    exact ⟨idle_currentThread hwaits, idle_spawning spawns_nonblocking hwaits,
      idle_spawning spawns_withSpawner hwaits⟩

/-- A fair schedule: each task gets its turn infinitely often. -/
def inTurns (n : Nat) : Step :=
  match n % 3 with
  | 0 => .poll
  | 1 => .run (n / 3).unpair.2 true
  | _ => .deliver (n / 3).unpair.2

theorem fair_inTurns : Fair inTurns where
  poll := by
    intro n
    refine ⟨3 * n, by omega, ?_⟩
    have hmod : 3 * n % 3 = 0 := by omega
    simp only [inTurns, hmod]
  run := by
    intro i n
    have hle := Nat.left_le_pair n i
    have hmod : (3 * Nat.pair n i + 1) % 3 = 1 := by omega
    have hdiv : (3 * Nat.pair n i + 1) / 3 = Nat.pair n i := by omega
    refine ⟨3 * Nat.pair n i + 1, by omega, ?_⟩
    simp only [inTurns, hmod, hdiv, Nat.unpair_pair]
  deliver := by
    intro i n
    have hle := Nat.left_le_pair n i
    have hmod : (3 * Nat.pair n i + 2) % 3 = 2 := by omega
    have hdiv : (3 * Nat.pair n i + 2) / 3 = Nat.pair n i := by omega
    refine ⟨3 * Nat.pair n i + 2, by omega, ?_⟩
    simp only [inTurns, hmod, hdiv, Nat.unpair_pair]

/-- A schema whose results are the queries. -/
def echo : Schema Unit Unit Str where
  execute request _ := request.query
  isOk _ := true
  toVec _ := .ok []
  toVecAll _ := .ok []

/-- The request of a mutation. -/
def mutation : GraphQLRequest Unit := .single ⟨"mutation { add }".toList, none, none⟩

/-- A mutation that is there after two polls, in a context that is there after one or has failed. -/
theorem executors_agree_mutation :
    Serves echo (currentThread echo (joined (settling 1 (.ok ())) (settling 2 (.ok mutation))))
        inTurns (.ok ((), mutation) : Except String (Unit × GraphQLRequest Unit)) ∧
      Serves echo (nonblocking echo (joined (settling 1 (.ok ())) (settling 2 (.ok mutation))))
        inTurns (.ok ((), mutation) : Except String (Unit × GraphQLRequest Unit)) ∧
      Serves echo (withSpawner echo (joined (settling 1 (.ok ())) (settling 2 (.ok mutation))))
        inTurns (.ok ((), mutation) : Except String (Unit × GraphQLRequest Unit)) ∧
      ∃ e, AllServe echo (joined (settling 1 (.error "context")) (settling 2 (.ok mutation)))
        (.error e) := by
  obtain ⟨hcurrent, hnonblocking, hspawner⟩ := (executors_agree joined_spec echo (settling 1 (.ok ()))
    (settling 2 (.ok mutation))).1 1 2 () mutation (settles_settling 1 _) (settles_settling 2 _)
    inTurns fair_inTurns
  obtain ⟨e, -, hfails⟩ := (executors_agree joined_spec echo (settling 1 (.error "context"))
    (settling 2 (.ok mutation))).2.1 (Or.inl ⟨1, _, settles_settling 1 _⟩)
  exact ⟨hcurrent, hnonblocking, hspawner, e, hfails⟩

end Finchers.Juniper
