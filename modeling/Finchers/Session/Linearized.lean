import Finchers.Session.Commands
import Finchers.Session.Generated

/-!
# The commands against the atomic steps

In `Session.step` a request reads the stored value, and writes its session, in one step.  With Redis
several parties take part in each of these: the request sends a command, the server executes it, the
answer comes back or not.  They take effect when the server executes the command.

* `Stands` — where a request is in the atomic system, seen from its futures and its connection;
* `act_simulated` — one step of a request, its connection or the server for it;
* `redis_linearizes` — **every run of the commands is matched by a run of the atomic steps**: no
  future panics, the stored values are the same, and every stored id was generated.
-/

set_option autoImplicit false

namespace Finchers.Session.Redis

open Resumable Transition

variable {ε : Type} {fail : String → Error ε} {config : Config} {x : Externals}

/-! ## Where a request stands -/

/-- The request has sent all it sends: it waits for the end of the writing or is gone. -/
inductive Client.Written : Client ε → Prop where
  | noop : Written (.writing .noop)
  | failed {err : Error ε} : Written (.writing (.failed (some err)))
  | cmd {future : RedisFuture Cmd Unit} : Written (.writing (.cmd future))
  | closed : Written .closed

/-- Where a request stands in the atomic system.  What it has sent and the server has not executed
has not happened there; what the server has executed has, whether the request knows it or not. -/
inductive Stands (config : Config) (x : Externals) (generated : List Uuid) :
    Party ε → Phase ε → Prop where
  | idle : Stands config x generated ⟨.idle, none⟩ .idle
  | refused {err : Error ε} {input : Input ε} :
      Stands config x generated ⟨.reading (.failed (some err)) input, none⟩
        (.reading (.failed err) input)
  | connecting {future : RedisFuture Unit Unit} {sessionId : Option Uuid} {input : Input ε} :
      Stands config x generated ⟨.reading (.connecting future sessionId) input, none⟩
        (.reading (.connecting sessionId) input)
  | asked {sessionId : Uuid} {input : Input ε} :
      Stands config x generated ⟨.reading (.fetch (.pending sessionId) sessionId) input, none⟩
        (.reading (.fetch sessionId) input)
  | answered {value : Option Str} {sessionId : Uuid} {input : Input ε} :
      Stands config x generated ⟨.reading (.fetch (.ready value) sessionId) input, none⟩
        (.opened (fetched sessionId value) input)
  | lostQuery {msg : String} {sessionId : Uuid} {input : Input ε} :
      Stands config x generated ⟨.reading (.fetch (.failed msg) sessionId) input, none⟩
        (.reading (.fetch sessionId) input)
  | lostAnswer {msg : String} {sessionId : Uuid} {s : RawSession} {input : Input ε} :
      Stands config x generated ⟨.reading (.fetch (.failed msg) sessionId) input, none⟩
        (.opened s input)
  | opened {s : RawSession} {input : Input ε} :
      Stands config x generated ⟨.opened s input, none⟩ (.opened s input)
  | running {s : RawSession} {calls : List Call} {input : Input ε} :
      Stands config x generated ⟨.running (s.calls calls) input, none⟩ (.opened s input)
  | sent {client : Client ε} {c : Cmd} {s : RawSession} {input : Input ε} {new : Uuid}
      (hwritten : client.Written) (hcmd : (write config x.text x.past new s input).2 = some c)
      (hnew : s.takesNewId = true → new ∈ generated) :
      Stands config x generated ⟨client, some c⟩ (.handled s input)
  | settled {client : Client ε} (hwritten : client.Written) :
      Stands config x generated ⟨client, none⟩ .closed

theorem Stands.mono {generated generated' : List Uuid} {p : Party ε} {ph : Phase ε}
    (h : Stands config x generated p ph) (hsub : ∀ id ∈ generated, id ∈ generated') :
    Stands config x generated' p ph := by
  cases h with
  | idle => exact .idle
  | refused => exact .refused
  | connecting => exact .connecting
  | asked => exact .asked
  | answered => exact .answered
  | lostQuery => exact .lostQuery
  | lostAnswer => exact .lostAnswer
  | opened => exact .opened
  | running => exact .running
  | sent hwritten hcmd hnew => exact .sent hwritten hcmd fun h => hsub _ (hnew h)
  | settled hwritten => exact .settled hwritten

/-- What the requests share: the stored values are the same, and an id is generated at the latest
when it is in the atomic system. -/
structure Covers (g ga : Shared) : Prop where
  store : ga.store = g.store
  generated : ∀ id ∈ ga.generated, id ∈ g.generated

/-- The state of one request in the atomic system, with what it shares with the others. -/
abbrev oneStep (config : Config) (x : Externals) (s : Shared × Phase ε) (a : Action ε) :
    Option (Shared × Phase ε) := act (.redis config) x s.1 s.2 a

/-- Steps of one request in the atomic system that lead to where the request stands now. -/
def Matched (config : Config) (x : Externals) (ga : Shared) (ph : Phase ε) (g : Shared)
    (p : Party ε) : Prop :=
  ∃ (as : List (Action ε)) (s : Shared × Phase ε), run (oneStep config x) (ga, ph) as = some s ∧
    Covers g s.1 ∧ Stands config x g.generated p s.2

section

variable {g ga : Shared} {p : Party ε} {ph : Phase ε}

/-- Nothing happens in the atomic system. -/
theorem Matched.stay (hg : Covers g ga) (h : Stands config x g.generated p ph) :
    Matched config x ga ph g p := ⟨[], _, rfl, hg, h⟩

/-- One step in the atomic system, which leaves what is shared as it is. -/
theorem Matched.one {ph' : Phase ε} {a : Action ε} (hg : Covers g ga)
    (hact : act (.redis config) x ga ph a = some (ga, ph'))
    (h : Stands config x g.generated p ph') : Matched config x ga ph g p :=
  ⟨[a], _, run_cons.mpr ⟨_, hact, rfl⟩, hg, h⟩

/-! ## One step -/

theorem new_stands (generated : List Uuid) (input : Input ε) :
    Stands config x generated ⟨.reading (.new config x.text input) input, none⟩
      (.reading (apply config x.text input) input) := by
  unfold ReadFutureState.new apply
  rcases config.getSessionId x.text input with err | sessionId
  · exact .refused
  · exact .connecting

theorem apply_simulated (hg : Covers g ga) (h : Stands config x g.generated p ph)
    {input : Input ε} {g' : Shared} {p' : Party ε}
    (hact : p.act fail config x g (.apply input) = some (g', p')) :
    Matched config x ga ph g' p' := by
  cases h with
  | idle =>
    cases hact
    exact .one (a := .apply input) hg rfl (new_stands g.generated input)
  | sent hwritten => cases hwritten <;> cases hact
  | settled hwritten => cases hwritten <;> cases hact
  | refused | connecting | asked | answered | lostQuery | lostAnswer | opened | running =>
    cases hact

variable (fail) in
/-- A poll of a future that reads the session. -/
theorem reading_simulated (hg : Covers g ga) {f : ReadFutureState ε} {input : Input ε}
    (h : Stands config x g.generated ⟨.reading f input, none⟩ ph) :
    ∃ client, Client.poll fail (.reading f input) = some client ∧
      Matched config x ga ph g ⟨client, none⟩ := by
  cases h with
  | refused => exact ⟨_, rfl, .one (a := .poll) hg rfl (.settled .closed)⟩
  | @connecting future sessionId =>
    cases future with
    | pending query => exact ⟨_, rfl, .stay hg .connecting⟩
    | ready answer =>
      cases sessionId with
      | none => exact ⟨_, rfl, .one (a := .poll) hg rfl .opened⟩
      | some sessionId => exact ⟨_, rfl, .one (a := .poll) hg rfl .asked⟩
    | failed msg => exact ⟨_, rfl, .one (a := .abort) hg rfl (.settled .closed)⟩
  | asked => exact ⟨_, rfl, .stay hg .asked⟩
  | answered => exact ⟨_, rfl, .stay hg .opened⟩
  | lostQuery => exact ⟨_, rfl, .one (a := .abort) hg rfl (.settled .closed)⟩
  | lostAnswer => exact ⟨_, rfl, .one (a := .abort) hg rfl (.settled .closed)⟩
  | settled hwritten => cases hwritten

theorem Client.Written.poll {client client' : Client ε} (h : client.Written)
    (hpoll : client.poll fail = some client') : client'.Written := by
  cases h with
  | noop =>
    cases hpoll
    exact .closed
  | failed =>
    cases hpoll
    exact .closed
  | @cmd future =>
    cases future with
    | pending query =>
      cases hpoll
      exact .cmd
    | ready answer =>
      cases hpoll
      exact .closed
    | failed msg =>
      cases hpoll
      exact .closed
  | closed => cases hpoll

theorem poll_simulated (hg : Covers g ga) (h : Stands config x g.generated p ph) {g' : Shared}
    {p' : Party ε} (hact : p.act fail config x g .poll = some (g', p')) :
    Matched config x ga ph g' p' := by
  obtain ⟨client, onWay⟩ := p
  obtain ⟨client', hpoll, heq⟩ := Option.map_eq_some_iff.mp hact
  cases heq
  have hread : ∀ f input, client = .reading f input → onWay = none →
      Matched config x ga ph g ⟨client', onWay⟩ := by
    intro f input hclient honWay
    subst hclient honWay
    obtain ⟨client'', hpoll', hmatched⟩ := reading_simulated fail hg h
    cases hpoll.symm.trans hpoll'
    exact hmatched
  cases h with
  | idle => cases hpoll
  | refused => exact hread _ _ rfl rfl
  | connecting => exact hread _ _ rfl rfl
  | asked => exact hread _ _ rfl rfl
  | answered => exact hread _ _ rfl rfl
  | lostQuery => exact hread _ _ rfl rfl
  | lostAnswer => exact hread _ _ rfl rfl
  | opened => cases hpoll
  | running => cases hpoll
  | sent hwritten hcmd hnew => exact .stay hg (.sent (hwritten.poll hpoll) hcmd hnew)
  | settled hwritten => exact .stay hg (.settled (hwritten.poll hpoll))

variable (config x) in
/-- The future of `RedisSession::write` sends the command of `write`, if there is one. -/
theorem writeFuture_cases (past : Str) (new : Uuid) (s : RawSession) (input : Input ε) :
    (∃ c, (write config x.text past new s input).2 = some c ∧
      writeFuture config x.text past new s input = .cmd (.pending c)) ∨
    ((write config x.text past new s input).2 = none ∧
      (writeFuture config x.text past new s input).sends = none ∧
      (Client.writing (writeFuture config x.text past new s input)).Written) := by
  obtain ⟨sessionId, value⟩ := s
  obtain ⟨cookies⟩ := input
  rcases sessionId with - | id
  · rcases value with - | v
    · exact Or.inr ⟨rfl, rfl, .noop⟩
    · rcases cookies with err | jar
      · exact Or.inr ⟨rfl, rfl, .failed⟩
      · exact Or.inl ⟨_, rfl, rfl⟩
  · rcases value with - | v
    · rcases cookies with err | jar
      · exact Or.inr ⟨rfl, rfl, .failed⟩
      · exact Or.inl ⟨_, rfl, rfl⟩
    · rcases cookies with err | jar
      · exact Or.inr ⟨rfl, rfl, .failed⟩
      · exact Or.inl ⟨_, rfl, rfl⟩

/-- The handler has called its session, and succeeds: the session is written. -/
theorem finish_simulated (hg : Covers g ga) (s : RawSession) (calls : List Call) (input : Input ε)
    (new : Uuid) :
    Matched config x ga (.opened s input)
      ⟨g.store, if (s.calls calls).takesNewId then new :: g.generated else g.generated⟩
      ⟨.writing (writeFuture config x.text x.past new (s.calls calls) input),
        (writeFuture config x.text x.past new (s.calls calls) input).sends⟩ := by
  have hhandled : act (.redis config) x ga (.opened s input) (.handle calls true) =
      some (ga, .handled (s.calls calls) input) := rfl
  rcases writeFuture_cases config x x.past new (s.calls calls) input with
    ⟨c, hcmd, hf⟩ | ⟨hcmd, hsends, hwritten⟩
  · -- the write happens when the command is executed
    rw [hf]
    refine ⟨[.handle calls true], _, run_cons.mpr ⟨_, hhandled, rfl⟩, ⟨hg.store, fun id hid => ?_⟩,
      .sent .cmd hcmd fun htakes => ?_⟩
    · have hid := hg.generated id hid
      dsimp only
      split
      · exact List.mem_cons_of_mem new hid
      · exact hid
    · dsimp only
      rw [if_pos htakes]
      exact List.mem_cons_self
  · -- nothing is sent: the write is over
    have hwrite : act (.redis config) x ga (.handled (s.calls calls) input) (.write new) =
        some (⟨ga.store, if (s.calls calls).takesNewId then new :: ga.generated
          else ga.generated⟩, .closed) := by
      simp only [act, Backend.write, hcmd]
    rw [hsends]
    refine ⟨[.handle calls true, .write new], _, run_cons.mpr ⟨_, hhandled, run_cons.mpr
      ⟨_, hwrite, rfl⟩⟩, ⟨hg.store, fun id hid => ?_⟩, .settled hwritten⟩
    dsimp only at hid ⊢
    split at hid
    · rename_i htakes
      rw [if_pos htakes]
      rcases List.mem_cons.mp hid with rfl | hid
      · exact List.mem_cons_self
      · exact List.mem_cons_of_mem new (hg.generated id hid)
    · rename_i htakes
      rw [if_neg htakes]
      exact hg.generated id hid

theorem Client.Written.answered {client : Client ε} (h : client.Written) (c : Cmd) :
    (client.answered c).Written := by
  cases h with
  | noop => exact .noop
  | failed => exact .failed
  | @cmd future =>
    cases future with
    | pending query => exact .cmd
    | ready answer => exact .cmd
    | failed msg => exact .cmd
  | closed => exact .closed

/-- The server executes what the request has sent. -/
theorem exec_simulated (hg : Covers g ga) (h : Stands config x g.generated p ph) {g' : Shared}
    {p' : Party ε} (hact : p.act fail config x g .exec = some (g', p')) :
    Matched config x ga ph g' p' := by
  cases h with
  | idle => cases hact
  | refused => cases hact
  | @connecting future sessionId input => cases hact
  | @asked sessionId input =>
    cases hact
    have hread : act (.redis config) x ga (.reading (.fetch sessionId) input) .poll =
        some (ga, .opened (fetched sessionId (g.store.get sessionId)) input) := by
      simp only [act, ReadFuture.poll, hg.store]
      cases g.store.get sessionId with
      | none => rfl
      | some value => rfl
    exact .one hg hread .answered
  | answered => cases hact
  | lostQuery => cases hact
  | lostAnswer => cases hact
  | opened => cases hact
  | running => cases hact
  | @sent client c s input new hwritten hcmd hnew =>
    cases hact
    have hwrite : act (.redis config) x ga (.handled s input) (.write new) =
        some (⟨c.exec g.store, if s.takesNewId then new :: ga.generated
          else ga.generated⟩, .closed) := by
      simp only [act, Backend.write, hcmd, hg.store]
    refine ⟨[.write new], _, run_cons.mpr ⟨_, hwrite, rfl⟩, ⟨rfl, fun id hid => ?_⟩,
      .settled (hwritten.answered c)⟩
    dsimp only at hid
    split at hid
    · rename_i htakes
      rcases List.mem_cons.mp hid with rfl | hid
      · exact hnew htakes
      · exact hg.generated id hid
    · exact hg.generated id hid
  | settled hwritten => cases hwritten <;> cases hact

/-- A request that is dropped may have sent a command that is still executed. -/
theorem drop_simulated (hg : Covers g ga) (h : Stands config x g.generated p ph) {g' : Shared}
    {p' : Party ε} (hact : p.act fail config x g .drop = some (g', p')) :
    Matched config x ga ph g' p' := by
  cases h with
  | idle => cases hact
  | refused | connecting | asked | answered | lostQuery | lostAnswer | opened | running =>
    cases hact
    exact .one (a := .abort) hg rfl (.settled .closed)
  | sent hwritten hcmd hnew =>
    cases hwritten with
    | closed => cases hact
    | noop | failed | cmd =>
      cases hact
      exact .stay hg (.sent .closed hcmd hnew)
  | settled hwritten =>
    cases hwritten with
    | closed => cases hact
    | noop | failed | cmd =>
      cases hact
      exact .stay hg (.settled .closed)

theorem fail_simulated (hg : Covers g ga) (h : Stands config x g.generated p ph) {msg : String}
    {g' : Shared} {p' : Party ε} (hact : p.act fail config x g (.fail msg) = some (g', p')) :
    Matched config x ga ph g' p' := by
  cases h with
  | idle => cases hact
  | refused => cases hact
  | opened => cases hact
  | running => cases hact
  | connecting =>
    cases hact
    exact .stay hg .connecting
  | asked =>
    cases hact
    exact .stay hg .lostQuery
  | answered =>
    cases hact
    exact .stay hg .lostAnswer
  | lostQuery =>
    cases hact
    exact .stay hg .lostQuery
  | lostAnswer =>
    cases hact
    exact .stay hg .lostAnswer
  | sent hwritten hcmd hnew =>
    cases hwritten with
    | closed | noop | failed => cases hact
    | cmd =>
      cases hact
      exact .stay hg (.sent .cmd hcmd hnew)
  | settled hwritten =>
    cases hwritten with
    | closed | noop | failed => cases hact
    | cmd =>
      cases hact
      exact .stay hg (.settled .cmd)

/-- One step of a request, of its connection, or of the server for it. -/
theorem act_simulated (hg : Covers g ga) (h : Stands config x g.generated p ph) {a : NetAction ε}
    {g' : Shared} {p' : Party ε} (hact : p.act fail config x g a = some (g', p')) :
    Matched config x ga ph g' p' := by
  cases a with
  | apply input => exact apply_simulated hg h hact
  | poll => exact poll_simulated hg h hact
  | handle calls =>
    cases h with
    | opened =>
      cases hact
      exact .stay hg .running
    | sent hwritten => cases hwritten <;> cases hact
    | settled hwritten => cases hwritten <;> cases hact
    | idle | refused | connecting | asked | answered | lostQuery | lostAnswer | running =>
      cases hact
  | finish ok new =>
    cases h with
    | @running s calls input =>
      cases ok with
      | true =>
        cases hact
        exact finish_simulated hg s calls input new
      | false =>
        cases hact
        exact .one (a := .handle calls false) hg rfl (.settled .closed)
    | sent hwritten => cases hwritten <;> cases hact
    | settled hwritten => cases hwritten <;> cases hact
    | idle | refused | connecting | asked | answered | lostQuery | lostAnswer | opened =>
      cases hact
  | drop => exact drop_simulated hg h hact
  | connect =>
    cases h with
    | @connecting future =>
      cases future with
      | pending query =>
        cases hact
        exact .stay hg .connecting
      | ready | failed => cases hact
    | sent hwritten => cases hwritten <;> cases hact
    | settled hwritten => cases hwritten <;> cases hact
    | idle | refused | asked | answered | lostQuery | lostAnswer | opened | running => cases hact
  | exec => exact exec_simulated hg h hact
  | lose =>
    cases h with
    | sent hwritten =>
      cases hact
      exact .one (a := .abort) hg rfl (.settled hwritten)
    | idle | refused | connecting | asked | answered | lostQuery | lostAnswer | opened | running =>
      cases hact
    | settled => cases hact
  | fail msg => exact fail_simulated hg h hact

end

/-! ## Runs -/

/-- Ids stay generated. -/
theorem act_generated {g g' : Shared} {p p' : Party ε} {a : NetAction ε}
    (hact : p.act fail config x g a = some (g', p')) : ∀ id ∈ g.generated, id ∈ g'.generated := by
  intro id hid
  unfold Party.act at hact
  cases a with
  | finish ok new =>
    dsimp only at hact
    split at hact
    · split at hact
      · cases hact
        dsimp only
        split
        · exact List.mem_cons_of_mem new hid
        · exact hid
      · cases hact
        exact hid
    · cases hact
  | poll | lose | fail =>
    obtain ⟨c, -, heq⟩ := Option.map_eq_some_iff.mp hact
    cases heq
    exact hid
  | apply | handle | drop | connect | exec =>
    dsimp only at hact
    split at hact <;> cases hact <;> exact hid

/-- Steps of one request, taken in the system. -/
theorem run_one {i : Nat} {as : List (Action ε)} {w : World ε} {s : Shared × Phase ε}
    (h : run (oneStep config x) (w.shared, w.phase i) as = some s) :
    run (step (.redis config) x) w (as.map (.act i)) =
      some ⟨s.1, Function.update w.phase i s.2⟩ := by
  induction as generalizing w with
  | nil =>
    cases h
    rw [Function.update_eq_self]
    rfl
  | cons a as ih =>
    obtain ⟨⟨g, ph⟩, hact, h⟩ := run_cons.mp h
    have hact : act (.redis config) x w.shared (w.phase i) a = some (g, ph) := hact
    have hstep : step (.redis config) x w (.act i a) = some ⟨g, Function.update w.phase i ph⟩ := by
      rw [step, hact]
      rfl
    have hrest : run (oneStep config x) (g, Function.update w.phase i ph i) as = some s := by
      rw [Function.update_self]
      exact h
    have htail := ih (w := ⟨g, Function.update w.phase i ph⟩) hrest
    rw [Function.update_idem] at htail
    rw [List.map_cons]
    exact run_cons.mpr ⟨_, hstep, htail⟩

/-- The atomic system is where the commands that were executed have taken it. -/
structure Simulates (config : Config) (x : Externals) (n : Net ε) (w : World ε) : Prop where
  covers : Covers n.shared w.shared
  stands : ∀ i, Stands config x n.shared.generated (n.party i) (w.phase i)

theorem step_simulated {n n' : Net ε} {w : World ε} {st : NetStep ε}
    (h : Simulates config x n w) (hstep : n.step fail config x st = some n') :
    ∃ sts w', run (step (.redis config) x) w sts = some w' ∧ Simulates config x n' w' := by
  cases st with
  | act i a =>
    obtain ⟨g, p, hact, rfl⟩ := step_act hstep
    obtain ⟨as, s, hrun, hcovers, hstands⟩ := act_simulated h.covers (h.stands i) hact
    refine ⟨_, _, run_one hrun, hcovers, fun j => ?_⟩
    show Stands config x g.generated (Function.update n.party i p j)
      (Function.update w.phase i s.2 j)
    by_cases hj : j = i
    · subst hj
      rw [Function.update_self, Function.update_self]
      exact hstands
    · rw [Function.update_of_ne hj, Function.update_of_ne hj]
      exact (h.stands j).mono (act_generated hact)
  | expire id =>
    obtain ⟨cookieName, timeout⟩ := config
    cases timeout with
    | none => cases hstep
    | some seconds =>
      cases hstep
      have hexpire : step (.redis ⟨cookieName, some seconds⟩) x w (.expire id) =
          some { w with shared := { w.shared with store := w.shared.store.remove id } } := rfl
      refine ⟨[.expire id], _, run_cons.mpr ⟨_, hexpire, rfl⟩, ⟨?_, h.covers.generated⟩, h.stands⟩
      show w.shared.store.remove id = n.shared.store.remove id
      rw [h.covers.store]

theorem init_simulated : Simulates config x (Net.init : Net ε) .init where
  covers := ⟨rfl, fun _ hid => hid⟩
  stands _ := .idle

theorem Stands.not_panicked {generated : List Uuid} {p : Party ε} {ph : Phase ε} {msg : String}
    (h : Stands config x generated p ph) : p.client ≠ .panicked msg := by
  intro heq
  cases h with
  | sent hwritten =>
    subst heq
    cases hwritten
  | settled hwritten =>
    subst heq
    cases hwritten
  | idle | refused | connecting | asked | answered | lostQuery | lostAnswer | opened | running =>
    cases heq

/-- **The commands take effect one at a time.**  However the polls of the requests, the executions
of their commands, failures of connections, losses of commands, dropped requests and expiries
interleave: no future panics; the run is matched by a run of the atomic steps that ends with the
same stored values, where each request stands where its futures and its connection say; and every
stored id was generated by the backend. -/
theorem redis_linearizes (fail : String → Error ε) (config : Config) (x : Externals)
    {steps : List (NetStep ε)} {n : Net ε}
    (h : run (Net.step fail config x) .init steps = some n) :
    (∀ i msg, (n.party i).client ≠ .panicked msg) ∧
    (∃ atomic w, run (step (.redis config) x) .init atomic = some w ∧ Simulates config x n w) ∧
    ∀ id, (n.shared.store id).isSome = true → id ∈ n.shared.generated := by
  obtain ⟨atomic, w, hrun, hsim⟩ :=
    run_simulates (fun hR hstep => step_simulated hR hstep) init_simulated h
  refine ⟨fun i msg => (hsim.stands i).not_panicked, ⟨atomic, w, hrun, hsim⟩, fun id hid => ?_⟩
  have hmeets : Meets (step (.redis config) x)
      (fun w st => Backend.redis config = .inMemory → KnownOrUnset w st) .init atomic :=
    fun _ _ _ _ _ _ hb => by cases hb
  have hsound : w.Sound (.redis config) := run_invariant step_sound init_sound hmeets hrun
  rw [← hsim.covers.store] at hid
  exact hsim.covers.generated id (hsound.shared id hid)

/-- A request without a session sets a value, is dropped when it has sent the command, and the
server executes it. -/
def droppedWriter : List (NetStep Empty) :=
  [.act 0 (.apply ⟨.ok .new⟩), .act 0 .connect, .act 0 .poll, .act 0 (.handle [.set "a".toList]),
    .act 0 (.finish true 8), .act 0 .drop, .act 0 .exec]

theorem redis_linearizes_dropped : ∃ n, run (Net.step (fun msg => .internalServerError msg)
    ⟨"sid".toList, none⟩ hyphenated) .init droppedWriter = some n ∧
    (n.shared.store 8).isSome = true ∧ 8 ∈ n.shared.generated := by
  obtain ⟨n, hrun, hstored⟩ : ∃ n, run (Net.step (fun msg => .internalServerError msg)
      ⟨"sid".toList, none⟩ hyphenated) .init droppedWriter = some n ∧
      (n.shared.store 8).isSome = true := ⟨_, rfl, rfl⟩
  have h := redis_linearizes (fun msg => .internalServerError msg) ⟨"sid".toList, none⟩ hyphenated hrun
  exact ⟨n, hrun, hstored, h.2.2 8 hstored⟩

end Finchers.Session.Redis
