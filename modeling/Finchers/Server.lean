import Finchers.TaskContext

/-!
# One thread, many requests

The futures of a service are polled by an executor, in any order: between two polls of a request
the thread takes new requests, polls the futures of others and does whatever else it does.

* `Server.step`, `Server.run` — `AppService::call`, and the executor, which polls a future until it
  has its response;
* `Alone` — what is recorded of each request is a run of that request alone;
* `served_alone` — **whatever the interleaving, every request is served as if it was the only one**,
  and no future of it is polled with the context of another request in the slot.
-/

set_option autoImplicit false

namespace Finchers

open Resumable

variable {ε Bd Env B : Type} {ts : List Type}

/-- What a service is called with; `addr` is where the context of the request lies. -/
structure ServerCall (Bd : Type) where
  addr : Nat
  request : Request
  body : Bd

/-- `AppService::call`. -/
def ServerCall.dispatch (c : ServerCall Bd) (e : Endpoint ε Bd Env ts) : AppFuture e.Action Bd :=
  .dispatch e c.addr c.request c.body

/-- What a thread does: a request arrives, the future of the `i`-th request is polled, or
something else runs, which leaves the slot alone. -/
inductive ServerOp (Bd Env : Type) where
  | call (c : ServerCall Bd)
  | poll (i : Nat)
  | other (g : Env → Env)

/-- The future of a request, and the response once there is one. -/
structure Task (σ Bd B : Type) where
  fut : AppFuture σ Bd
  response : Option (Response (String ⊕ B))

structure Server (σ Bd Env B : Type) where
  tasks : List (Task σ Bd B)
  thread : Thread Env

namespace Server

/-- A server that has not been called. -/
def new (σ Bd B : Type) (env : Env) : Server σ Bd Env B := ⟨[], ⟨none, env⟩⟩

/-- The calls among the steps of a server. -/
def calls (ops : List (ServerOp Bd Env)) : List (ServerCall Bd) :=
  ops.filterMap fun op =>
    match op with
    | .call c => some c
    | .poll _ => none
    | .other _ => none

variable [HttpError ε]

/-- The future of the `i`-th request is polled. -/
def pollTask (display : CookieDisplay) (intoResponse : HList ts → Request → Response B)
    (e : Endpoint ε Bd Env ts) (server : Server e.Action Bd Env B) (i : Nat)
    (fut : AppFuture e.Action Bd) : Traced Panic (Nat × Event) (Server e.Action Bd Env B) := do
  let (r, fut, th) ← (AppFuture.poll display intoResponse e.impl fut server.thread).mapLog
    fun ev => (i, ev)
  match r with
  | .notReady => return ⟨server.tasks.set i ⟨fut, none⟩, th⟩
  | .ready response => return ⟨server.tasks.set i ⟨fut, some response⟩, th⟩

/-- One step of the thread; events are recorded with the number of their request. -/
def step (display : CookieDisplay) (intoResponse : HList ts → Request → Response B)
    (e : Endpoint ε Bd Env ts) (server : Server e.Action Bd Env B) (op : ServerOp Bd Env) :
    Traced Panic (Nat × Event) (Server e.Action Bd Env B) :=
  match op with
  | .call c => return { server with tasks := server.tasks ++ [⟨c.dispatch e, none⟩] }
  | .other g => return { server with thread := ⟨server.thread.tlsCx, g server.thread.env⟩ }
  | .poll i =>
    match server.tasks[i]? with
    | some ⟨fut, none⟩ => pollTask display intoResponse e server i fut
    -- an executor drops a future that is done
    | some ⟨_, some _⟩ => return server
    | none => return server

/-- The steps of the thread, one after the other. -/
def run (display : CookieDisplay) (intoResponse : HList ts → Request → Response B)
    (e : Endpoint ε Bd Env ts) :
    List (ServerOp Bd Env) → Server e.Action Bd Env B →
    Traced Panic (Nat × Event) (Server e.Action Bd Env B)
  | [], server => return server
  | op :: ops, server => do
    let server ← step display intoResponse e server op
    run display intoResponse e ops server

end Server

/-! ## One request alone -/

/-- The state of the rest of the program is changed to `env`, the slot is left alone. -/
def Thread.withEnv (env : Env) (th : Thread Env) : Thread Env := ⟨th.tlsCx, env⟩

/-- The slot holds a context iff there is an address in it. -/
theorem Thread.slot_eq_none {th : Thread Env} : th.slot = none ↔ th.tlsCx = none :=
  Option.map_eq_none_iff

/-- A thread with an empty slot, as it is when its environment has become that of another one. -/
theorem Thread.withEnv_eq {th th' : Thread Env} (h : th.slot = none) (h' : th'.slot = none) :
    th.withEnv th'.env = th' := by
  have hslot := Thread.slot_eq_none.mp h
  have hslot' := Thread.slot_eq_none.mp h'
  obtain ⟨tlsCx, env⟩ := th'
  have hslot' : tlsCx = none := hslot'
  rw [Thread.withEnv, hslot, hslot']

/-- The events of the `i`-th request. -/
def eventsOf (i : Nat) (l : List (Nat × Event)) : List Event :=
  l.filterMap fun ev => if ev.1 = i then some ev.2 else none

theorem eventsOf_append (i : Nat) (l l' : List (Nat × Event)) :
    eventsOf i (l ++ l') = eventsOf i l ++ eventsOf i l' :=
  List.filterMap_append

theorem eventsOf_self (i : Nat) (l : List Event) : eventsOf i (l.map fun ev => (i, ev)) = l := by
  induction l with
  | nil => rfl
  | cons ev l ih =>
    have ih : List.filterMap _ _ = l := ih
    simp only [eventsOf, List.map_cons, List.filterMap_cons, if_pos]
    rw [ih]

theorem eventsOf_ne {i j : Nat} (h : j ≠ i) (l : List Event) :
    eventsOf i (l.map fun ev => (j, ev)) = [] := by
  induction l with
  | nil => rfl
  | cons ev l ih =>
    have ih : List.filterMap _ _ = [] := ih
    simp only [eventsOf, List.map_cons, List.filterMap_cons, if_neg h]
    exact ih

/-- The events of the request that is polled are added to its own, and to no other's. -/
theorem eventsOf_poll (i j : Nat) (l : List (Nat × Event)) (l' : List Event) :
    eventsOf j (l ++ l'.map fun ev => (i, ev)) = eventsOf j l ++ if i = j then l' else [] := by
  rw [eventsOf_append]
  by_cases h : i = j
  · subst h
    rw [eventsOf_self, if_pos rfl]
  · rw [eventsOf_ne h, if_neg h]

namespace AppFuture

variable [HttpError ε]

/-- What one more poll adds to a run that has no response yet. -/
theorem serve_append {σ : Type} {display : CookieDisplay}
    {intoResponse : HList ts → Request → Response B}
    {f : EndpointAction ε Bd Env σ ts} {gs : List (Thread Env → Thread Env)}
    {fut fut' : AppFuture σ Bd} {th th' : Thread Env} {l : List Event}
    (h : serve display intoResponse f gs fut th = ⟨l, .ok (none, fut', th')⟩)
    (g : Thread Env → Thread Env) :
    serve display intoResponse f (gs ++ [g]) fut th =
      (serve display intoResponse f [g] fut' th').prepend l := by
  induction gs generalizing fut th l with
  | nil =>
    cases h
    rfl
  | cons g' gs ih =>
    rw [serve] at h
    obtain ⟨l₁, ⟨r, fut₁, th₁⟩, l₂, hpoll, hrest, rfl⟩ := Traced.bind_eq_ok_iff.mp h
    rw [List.cons_append, serve, hpoll, Traced.mk_ok_bind]
    cases r with
    | ready response => cases hrest
    | notReady =>
      show (serve display intoResponse f (gs ++ [g]) fut₁ th₁).prepend l₁ = _
      rw [ih hrest, Traced.prepend_prepend]

/-- The response is made after the last poll, from what that left. -/
theorem within_poll {e : Endpoint ε Bd Env ts} (display : CookieDisplay)
    (intoResponse : HList ts → Request → Response B)
    (fut : AppFuture e.Action Bd) (th : Thread Env) :
    Within (Event.SlotOf (fut.world th) True) (poll display intoResponse e.impl fut th)
      fun a => (fut.world th).SameSlot (a.2.1.world a.2.2) := by
  obtain ⟨hlog, hres⟩ := within_pollApply fut th
  refine within_bind ⟨fun ev hev => ?_, fun a ha => ?_⟩
  · exact Event.SlotOf.mono (.refl _) (fun _ => trivial) (hlog ev hev)
  · have hw := hres a ha
    obtain ⟨r, fut', th'⟩ := a
    rcases r with err | (x | -)
    · exact within_pure hw
    · exact within_pure hw
    · exact within_pure hw

end AppFuture

open AppFuture Server

variable [HttpError ε]

/-- What is recorded of a request and the state of its task are those of a run of that request
alone, in which the thread only sees the environment change between two polls. -/
def Task.Alone (display : CookieDisplay) (intoResponse : HList ts → Request → Response B)
    (e : Endpoint ε Bd Env ts) (env : Env) (c : ServerCall Bd) (l : List Event)
    (task : Task e.Action Bd B) : Prop :=
  ∃ (envs : List Env) (th : Thread Env), th.slot = none ∧
    serve display intoResponse e.impl (envs.map Thread.withEnv) (c.dispatch e) ⟨none, env⟩ =
      ⟨l, .ok (task.response, task.fut, th)⟩

/-- A future is polled with an empty slot or in the context of its own request. -/
def Event.InOwnContext (calls : List (ServerCall Bd)) (ev : Nat × Event) : Prop :=
  ∀ slot out, ev.2.what = .pollFuture slot out →
    slot = none ∨ ∃ c, calls[ev.1]? = some c ∧ slot = some c.addr

/-- What holds of a server that was called with `calls` and has recorded `l`. -/
structure Server.Alone (display : CookieDisplay) (intoResponse : HList ts → Request → Response B)
    (e : Endpoint ε Bd Env ts) (env : Env) (calls : List (ServerCall Bd)) (l : List (Nat × Event))
    (server : Server e.Action Bd Env B) : Prop where
  slot : server.thread.slot = none
  length : server.tasks.length = calls.length
  task : ∀ {i c} {t : Task e.Action Bd B}, calls[i]? = some c → server.tasks[i]? = some t →
    t.Alone display intoResponse e env c (eventsOf i l) ∧ t.fut.context.addr = c.addr
  unheard : ∀ {i}, calls.length ≤ i → eventsOf i l = []
  context : ∀ ev ∈ l, Event.InOwnContext calls ev

/-- A run of one of the requests alone panics, after the events that were recorded of it. -/
def Server.PanicsAlone (display : CookieDisplay) (intoResponse : HList ts → Request → Response B)
    (e : Endpoint ε Bd Env ts) (env : Env) (calls : List (ServerCall Bd)) (l : List (Nat × Event))
    (p : Panic) : Prop :=
  ∃ i c, ∃ envs : List Env, calls[i]? = some c ∧
    serve display intoResponse e.impl (envs.map Thread.withEnv) (c.dispatch e) ⟨none, env⟩ =
      ⟨eventsOf i l, .error p⟩

section

variable {display : CookieDisplay} {intoResponse : HList ts → Request → Response B}
  {e : Endpoint ε Bd Env ts} {env : Env} {calls : List (ServerCall Bd)} {l : List (Nat × Event)}
  {server : Server e.Action Bd Env B}

theorem Server.alone_new :
    Server.Alone display intoResponse e env [] [] (.new e.Action Bd B env) where
  slot := rfl
  length := rfl
  task h := by cases h
  unheard _ := rfl
  context ev hev := by cases hev

/-- Requests keep their numbers when more are called. -/
theorem Event.InOwnContext.append {ev : Nat × Event} (h : Event.InOwnContext calls ev)
    (calls' : List (ServerCall Bd)) : Event.InOwnContext (calls ++ calls') ev := by
  intro slot out hwhat
  rcases h slot out hwhat with hslot | ⟨c', hc', hslot⟩
  · exact Or.inl hslot
  · have hlt := (List.getElem?_eq_some_iff.mp hc').1
    exact Or.inr ⟨c', by rw [List.getElem?_append_left hlt]; exact hc', hslot⟩

theorem Server.Alone.call (h : server.Alone display intoResponse e env calls l)
    (c : ServerCall Bd) :
    Server.Alone display intoResponse e env (calls ++ [c]) l
      { server with tasks := server.tasks ++ [⟨c.dispatch e, none⟩] } where
  slot := h.slot
  length := by
    rw [List.length_append, List.length_append, h.length]
    rfl
  task := by
    intro i c' t hc' ht
    have hlength := h.length
    rcases Nat.lt_trichotomy i calls.length with hlt | rfl | hgt
    · rw [List.getElem?_append_left hlt] at hc'
      rw [List.getElem?_append_left (by omega)] at ht
      exact h.task hc' ht
    · rw [List.getElem?_concat_length] at hc'
      rw [← hlength, List.getElem?_concat_length] at ht
      cases hc'
      cases ht
      -- a new request has recorded nothing, as a run without polls
      rw [h.unheard (Nat.le_refl _)]
      exact ⟨⟨[], _, rfl, rfl⟩, rfl⟩
    · rw [List.getElem?_eq_none (by rw [List.length_append]; exact hgt)] at hc'
      cases hc'
  unheard := by
    intro i hi
    rw [List.length_append, List.length_singleton] at hi
    exact h.unheard (by omega)
  context ev hev := (h.context ev hev).append [c]

theorem Server.Alone.other (h : server.Alone display intoResponse e env calls l) (env' : Env) :
    Server.Alone display intoResponse e env calls l
      { server with thread := ⟨server.thread.tlsCx, env'⟩ } where
  slot := h.slot
  length := h.length
  task := h.task
  unheard := h.unheard
  context := h.context

/-- A poll of a future that has no response is one more poll of its run. -/
theorem Task.Alone.poll {c : ServerCall Bd} {fut : AppFuture e.Action Bd} {l : List Event}
    {th : Thread Env}
    (h : Task.Alone (B := B) display intoResponse e env c l ⟨fut, none⟩) (hth : th.slot = none) :
    ∃ envs : List Env,
      serve display intoResponse e.impl (envs.map Thread.withEnv) (c.dispatch e) ⟨none, env⟩ =
        (do
          let (r, fut, th) ← AppFuture.poll display intoResponse e.impl fut th
          match r with
          | .ready response => return (some response, fut, th)
          | .notReady => return (none, fut, th)).prepend l := by
  obtain ⟨envs, th₀, hslot, hserve⟩ := h
  refine ⟨envs ++ [th.env], ?_⟩
  rw [List.map_append, List.map_singleton, serve_append hserve, serve,
    Thread.withEnv_eq hslot hth]
  rfl

/-- A poll of the `i`-th request changes its task and records events of it only. -/
theorem Server.Alone.polled (h : server.Alone display intoResponse e env calls l) {i : Nat}
    {c : ServerCall Bd} (hc : calls[i]? = some c) {t t' : Task e.Action Bd B}
    (ht : server.tasks[i]? = some t)
    {l' : List Event} {th : Thread Env}
    (halone : t'.Alone display intoResponse e env c (eventsOf i l ++ l'))
    (hpoll : Within (Event.SlotOf (t.fut.world server.thread) True)
      (⟨l', .ok ()⟩ : Traced Panic Event Unit) fun _ =>
        (t.fut.world server.thread).SameSlot (t'.fut.world th)) :
    Server.Alone display intoResponse e env calls (l ++ l'.map fun ev => (i, ev))
      ⟨server.tasks.set i t', th⟩ where
  slot := (hpoll.res () rfl).1.trans h.slot
  length := by rw [List.length_set, h.length]
  task := by
    intro j c' u hc' hu
    have hlt := (List.getElem?_eq_some_iff.mp ht).1
    rw [eventsOf_poll]
    by_cases hij : i = j
    · subst hij
      rw [List.getElem?_set_self hlt] at hu
      cases hu
      cases hc.symm.trans hc'
      rw [if_pos rfl]
      exact ⟨halone, (hpoll.res () rfl).2.trans (h.task hc ht).2⟩
    · rw [List.getElem?_set_ne hij] at hu
      rw [if_neg hij, List.append_nil]
      exact h.task hc' hu
  unheard := by
    intro j hj
    have hlt := (List.getElem?_eq_some_iff.mp hc).1
    have hij : i ≠ j := by omega
    rw [eventsOf_poll, if_neg hij, List.append_nil]
    exact h.unheard hj
  context := by
    intro ev hev
    rcases List.mem_append.mp hev with hev | hev
    · exact h.context ev hev
    · obtain ⟨ev', hev', rfl⟩ := List.mem_map.mp hev
      intro slot out hwhat
      rcases hpoll.log ev' hev' slot out hwhat with hslot | ⟨-, hslot⟩
      · exact Or.inr ⟨c, hc, hslot.trans (congrArg some (h.task hc ht).2)⟩
      · exact Or.inl (hslot.trans h.slot)

/-- What comes out of a server: it is served alone, or one of the requests panics alone, and every
future has been polled in its own context. -/
structure Server.Serves (display : CookieDisplay) (intoResponse : HList ts → Request → Response B)
    (e : Endpoint ε Bd Env ts) (env : Env) (calls : List (ServerCall Bd))
    (t : Traced Panic (Nat × Event) (Server e.Action Bd Env B)) : Prop where
  returns : ∀ server, t.res = .ok server → server.Alone display intoResponse e env calls t.log
  panics : ∀ p, t.res = .error p → PanicsAlone display intoResponse e env calls t.log p
  context : ∀ ev ∈ t.log, Event.InOwnContext calls ev

theorem Server.Alone.serves (h : server.Alone display intoResponse e env calls l) :
    Serves display intoResponse e env calls ⟨l, .ok server⟩ where
  returns server' hres := by cases hres; exact h
  panics p hres := by cases hres
  context := h.context

theorem Server.Alone.pollTask (h : server.Alone display intoResponse e env calls l) {i : Nat}
    {fut : AppFuture e.Action Bd} (ht : server.tasks[i]? = some ⟨fut, none⟩) :
    Serves display intoResponse e env calls
      ((server.pollTask display intoResponse e i fut).prepend l) := by
  have hlength := h.length
  have hlt := (List.getElem?_eq_some_iff.mp ht).1
  obtain ⟨c, hc⟩ : ∃ c, calls[i]? = some c := ⟨calls[i], List.getElem?_eq_getElem (by omega)⟩
  obtain ⟨halone, haddr⟩ := h.task hc ht
  obtain ⟨envs, hserve⟩ := halone.poll h.slot
  obtain ⟨hlog, hres⟩ := within_poll display intoResponse fut server.thread
  unfold Server.pollTask
  rcases (AppFuture.poll display intoResponse e.impl fut server.thread).eq_ok_or_error with
    ⟨l', ⟨r, fut', th⟩, hpoll⟩ | ⟨l', p, hpoll⟩
  · rw [hpoll] at hlog hres
    have hslot : th.slot = none := (hres _ rfl).1.trans h.slot
    -- with a response or without one, the poll is the last of a run of the request alone
    have hdone : ∀ response, serve display intoResponse e.impl (envs.map Thread.withEnv)
          (c.dispatch e) ⟨none, env⟩ = ⟨eventsOf i l ++ l', .ok (response, fut', th)⟩ →
        Serves display intoResponse e env calls
          ⟨l ++ l'.map fun ev => (i, ev), .ok ⟨server.tasks.set i ⟨fut', response⟩, th⟩⟩ :=
      fun response hserve => (h.polled hc ht ⟨envs, th, hslot, hserve⟩
        ⟨hlog, fun _ _ => hres _ rfl⟩).serves
    rw [hpoll, Traced.mk_ok_bind] at hserve
    rw [hpoll, Traced.mapLog_mk, Traced.mk_ok_bind]
    cases r with
    | ready response =>
      have hall := hdone (some response) (by rw [hserve]; simp)
      simpa using hall
    | notReady =>
      have hall := hdone none (by rw [hserve]; simp)
      simpa using hall
  · rw [hpoll] at hlog
    rw [hpoll, Traced.mk_error_bind] at hserve
    rw [hpoll, Traced.mapLog_mk, Traced.mk_error_bind, Traced.prepend_mk]
    refine ⟨fun server' hres' => (by cases hres'), fun p' hres' => ?_, fun ev hev => ?_⟩
    · cases hres'
      refine ⟨i, c, envs, hc, ?_⟩
      rw [eventsOf_poll, if_pos rfl]
      exact hserve
    · rcases List.mem_append.mp hev with hev | hev
      · exact h.context ev hev
      · obtain ⟨ev', hev', rfl⟩ := List.mem_map.mp hev
        intro slot out hwhat
        rcases hlog ev' hev' slot out hwhat with hslot | ⟨-, hslot⟩
        · exact Or.inr ⟨c, hc, hslot.trans (congrArg some haddr)⟩
        · exact Or.inl (hslot.trans h.slot)

/-- One step. -/
theorem Server.Alone.step (h : server.Alone display intoResponse e env calls l)
    (op : ServerOp Bd Env) :
    Serves display intoResponse e env (calls ++ Server.calls [op])
      ((server.step display intoResponse e op).prepend l) := by
  cases op with
  | call c =>
    have hcall := (h.call c).serves
    rw [← List.append_nil l] at hcall
    exact hcall
  | other g =>
    have hother := (h.other (g server.thread.env)).serves
    rw [← List.append_nil l, ← List.append_nil calls] at hother
    exact hother
  | poll i =>
    have hsame : Serves display intoResponse e env (calls ++ []) ⟨l ++ [], .ok server⟩ := by
      rw [List.append_nil, List.append_nil]
      exact h.serves
    unfold Server.step
    rcases ht : server.tasks[i]? with _ | ⟨fut, _ | response⟩
    · simp only [ht]
      exact hsame
    · simp only [ht]
      have hpoll := h.pollTask ht
      rw [← List.append_nil calls] at hpoll
      exact hpoll
    · simp only [ht]
      exact hsame

/-- The requests that panicked have been called, whatever is called afterwards. -/
theorem Server.PanicsAlone.append {p : Panic} (h : PanicsAlone display intoResponse e env calls l p)
    (calls' : List (ServerCall Bd)) :
    PanicsAlone display intoResponse e env (calls ++ calls') l p := by
  obtain ⟨i, c, envs, hc, hserve⟩ := h
  have hlt := (List.getElem?_eq_some_iff.mp hc).1
  exact ⟨i, c, envs, by rw [List.getElem?_append_left hlt]; exact hc, hserve⟩

/-- The steps of a run, one after the other. -/
theorem Server.Alone.run (h : server.Alone display intoResponse e env calls l)
    (ops : List (ServerOp Bd Env)) :
    Serves display intoResponse e env (calls ++ Server.calls ops)
      ((Server.run display intoResponse e ops server).prepend l) := by
  induction ops generalizing server calls l with
  | nil =>
    have hserves := h.serves
    rw [← List.append_nil l, ← List.append_nil calls] at hserves
    exact hserves
  | cons op ops ih =>
    have hcalls : calls ++ Server.calls (op :: ops) =
        calls ++ Server.calls [op] ++ Server.calls ops := by
      rw [List.append_assoc, Server.calls, Server.calls, Server.calls, ← List.filterMap_append]
      rfl
    have hstep := h.step op
    rw [hcalls, Server.run]
    rcases (server.step display intoResponse e op).eq_ok_or_error with
      ⟨l', server', ho⟩ | ⟨l', p, ho⟩
    · rw [ho] at hstep ⊢
      rw [Traced.mk_ok_bind, Traced.prepend_prepend]
      exact ih (hstep.returns server' rfl)
    · rw [ho] at hstep ⊢
      refine ⟨fun server' hres => (by cases hres), fun p' hres => ?_, fun ev hev => ?_⟩
      · exact (hstep.panics p' hres).append _
      · exact (hstep.context ev hev).append _

end

/-- **Requests that share a thread do not see each other.**  In any interleaving of calls, of polls
of the futures and of whatever else runs on the thread: the slot is empty after it; what is recorded
of a request, its future and its response are those of a run of that request alone; no future is
polled with the context of another request in the slot; and a panic is one that the request has
alone. -/
theorem served_alone (display : CookieDisplay) (intoResponse : HList ts → Request → Response B)
    (e : Endpoint ε Bd Env ts) (env : Env) (ops : List (ServerOp Bd Env)) :
    Server.Serves display intoResponse e env (Server.calls ops)
      (Server.run display intoResponse e ops (.new e.Action Bd B env)) := by
  have hnew : Server.Alone display intoResponse e env [] [] (.new e.Action Bd B env) :=
    Server.alone_new
  have h := hnew.run ops
  rw [List.nil_append] at h
  exact h

end Finchers
