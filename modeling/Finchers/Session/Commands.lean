import Finchers.Session.System
import Finchers.Lib.Machine

/-!
# The Redis backend, command by command

The server is another process: a request opens a connection, sends a command over it and polls a
future until the answer is there; in between the server takes commands of others, connections fail,
commands are lost, and requests are dropped.

* `RedisFuture` — what the client library gives to a request that opens a connection or sends a
  command;
* `ReadFutureState.poll`, `WriteFuture.poll` — the futures of the backend;
* `Party.act`, `Net.step` — one step of a request, of its connection or of the server.
-/

set_option autoImplicit false

namespace Finchers.Session

open Resumable Transition

variable {ε : Type}

namespace Redis

/-! ## Futures of the client library -/

/-- `RedisFuture`: what was sent and is not answered yet, the answer, or an error of the server or
the connection. -/
inductive RedisFuture (Q A : Type) where
  | pending (query : Q)
  | ready (answer : A)
  | failed (msg : String)

/-- A poll by a future of the backend, which passes an error on by `finchers::error::fail`. -/
def RedisFuture.poll {Q A : Type} (fail : String → Error ε) : RedisFuture Q A → Poll (Error ε) A
  | .pending _ => .ok .notReady
  | .ready answer => .ok (.ready answer)
  | .failed msg => .error (fail msg)

/-! ## Reading -/

/-- `ReadFutureState`. -/
inductive ReadFutureState (ε : Type) where
  | failed (err : Option (Error ε))
  | connecting (future : RedisFuture Unit Unit) (sessionId : Option Uuid)
  | fetch (future : RedisFuture Uuid (Option Str)) (sessionId : Uuid)
  | done

/-- `Endpoint::apply` of `RedisBackend`: a new `ReadFuture`. -/
def ReadFutureState.new (config : Config) (text : UuidText) (input : Input ε) :
    ReadFutureState ε :=
  match config.getSessionId text input with
  | .ok sessionId => .connecting (.pending ()) sessionId
  | .error err => .failed (some err)

/-- The session for an answer to `GET`: without a value it has no id. -/
def fetched (sessionId : Uuid) : Option Str → RawSession
  | some value => ⟨some sessionId, some value⟩
  | none => ⟨none, none⟩

/-- The iteration of `ReadFuture::poll` in the state `Fetch`. -/
def pollFetch (fail : String → Error ε) (future : RedisFuture Uuid (Option Str))
    (sessionId : Uuid) : Poll (Error ε) RawSession × ReadFutureState ε :=
  match future.poll fail with
  | .error err => (.error err, .fetch future sessionId)
  | .ok .notReady => (.ok .notReady, .fetch future sessionId)
  | .ok (.ready value) => (.ok (.ready (fetched sessionId value)), .done)

/-- `ReadFuture::poll`; it panics if it is polled after its end. -/
def ReadFutureState.poll (fail : String → Error ε) :
    ReadFutureState ε → Except String (Poll (Error ε) RawSession × ReadFutureState ε)
  | .failed none => .error "This future has alread polled."
  | .failed (some err) => .ok (.error err, .failed none)
  | .connecting future sessionId =>
    match future.poll fail with
    | .error err => .ok (.error err, .connecting future sessionId)
    | .ok .notReady => .ok (.ok .notReady, .connecting future sessionId)
    | .ok (.ready ()) =>
      match sessionId with
      | some sessionId => .ok (pollFetch fail (.pending sessionId) sessionId)
      | none => .ok (.ok (.ready ⟨none, none⟩), .done)
  | .fetch future sessionId => .ok (pollFetch fail future sessionId)
  | .done => .error "unexpected state"

/-! ## Writing -/

/-- `WriteFutureState`. -/
inductive WriteFuture (ε : Type) where
  | noop
  | failed (err : Option (Error ε))
  | cmd (future : RedisFuture Cmd Unit)

/-- `RedisSession::write`: the future for the command of `write`. -/
def writeFuture (config : Config) (text : UuidText) (past : Str) (new : Uuid) (s : RawSession)
    (input : Input ε) : WriteFuture ε :=
  if s.sessionId.isNone && s.value.isNone then .noop
  else
    match write config text past new s input with
    | (.error err, _) => .failed (some err)
    | (.ok _, some c) => .cmd (.pending c)
    | (.ok _, none) => .noop

/-- The command that the future sends. -/
def WriteFuture.sends : WriteFuture ε → Option Cmd
  | .cmd (.pending c) => some c
  | _ => none

/-- `WriteFuture::poll`. -/
def WriteFuture.poll (fail : String → Error ε) :
    WriteFuture ε → Except String (Poll (Error ε) Unit × WriteFuture ε)
  | .noop => .ok (.ok (.ready ()), .noop)
  | .failed none => .error "The future has already polled."
  | .failed (some err) => .ok (.error err, .failed none)
  | .cmd future => .ok (future.poll fail, .cmd future)

/-- What the server answers to a command: it refuses to keep a value for no time. -/
def Cmd.reply : Cmd → RedisFuture Cmd Unit
  | .setex _ 0 _ => .failed "ERR invalid expire time in setex"
  | _ => .ready ()

/-! ## One request and its connection -/

/-- Where a request is: it reads its session, has it, waits for the future that its handler
returned, or writes the session. -/
inductive Client (ε : Type) where
  | idle
  | reading (f : ReadFutureState ε) (input : Input ε)
  | opened (s : RawSession) (input : Input ε)
  | running (s : RawSession) (input : Input ε)
  | writing (f : WriteFuture ε)
  | closed
  | panicked (msg : String)

/-- A request, and the command it has sent that the server has not taken yet. -/
structure Party (ε : Type) where
  client : Client ε
  onWay : Option Cmd

/-- A step of a request: the backend is applied to it; its future is polled; `Session::with` calls
its handler, and the future of the handler ends; it is dropped.  A step of its connection, or of the
server for it: the connection is there, the server executes what was sent, a command is lost, or
what the request waits for fails. -/
inductive NetAction (ε : Type) where
  | apply (input : Input ε)
  | poll
  | handle (calls : List Call)
  | finish (ok : Bool) (new : Uuid)
  | drop
  | connect
  | exec
  | lose
  | fail (msg : String)

/-- A poll of the future of a request. -/
def Client.poll (fail : String → Error ε) : Client ε → Option (Client ε)
  | .reading f input =>
    match f.poll fail with
    | .error msg => some (.panicked msg)
    | .ok (.ok .notReady, f) => some (.reading f input)
    | .ok (.ok (.ready s), _) => some (.opened s input)
    | .ok (.error _, _) => some .closed
  | .writing f =>
    match f.poll fail with
    | .error msg => some (.panicked msg)
    | .ok (.ok .notReady, f) => some (.writing f)
    | .ok (.ok (.ready ()), _) => some .closed
    | .ok (.error _, _) => some .closed
  | _ => none

/-- The command of the request was executed; it may not be there any more to see the answer. -/
def Client.answered (c : Cmd) : Client ε → Client ε
  | .writing (.cmd (.pending _)) => .writing (.cmd c.reply)
  | client => client

/-- What the request waits for fails. -/
def Client.fail (msg : String) : Client ε → Option (Client ε)
  | .reading (.connecting _ sessionId) input =>
    some (.reading (.connecting (.failed msg) sessionId) input)
  | .reading (.fetch _ sessionId) input => some (.reading (.fetch (.failed msg) sessionId) input)
  | .writing (.cmd _) => some (.writing (.cmd (.failed msg)))
  | _ => none

/-- One step of a request, of its connection, or of the server for it. -/
def Party.act (fail : String → Error ε) (config : Config) (x : Externals) (g : Shared)
    (p : Party ε) : NetAction ε → Option (Shared × Party ε)
  | .apply input =>
    match p.client with
    | .idle => some (g, { p with client := .reading (.new config x.text input) input })
    | _ => none
  | .poll => (p.client.poll fail).map fun client => (g, { p with client := client })
  | .handle calls =>
    match p.client with
    | .opened s input => some (g, { p with client := .running (s.calls calls) input })
    | _ => none
  | .finish ok new =>
    match p.client with
    | .running s input =>
      if ok then
        let f := writeFuture config x.text x.past new s input
        some (⟨g.store, if s.takesNewId then new :: g.generated else g.generated⟩,
          ⟨.writing f, f.sends⟩)
      else some (g, { p with client := .closed })
    | _ => none
  | .drop =>
    match p.client with
    | .idle | .closed | .panicked _ => none
    | _ => some (g, { p with client := .closed })
  | .connect =>
    match p.client with
    | .reading (.connecting (.pending ()) sessionId) input =>
      some (g, { p with client := .reading (.connecting (.ready ()) sessionId) input })
    | _ => none
  | .exec =>
    match p.onWay, p.client with
    | some c, client => some (⟨c.exec g.store, g.generated⟩, ⟨client.answered c, none⟩)
    | none, .reading (.fetch (.pending query) sessionId) input =>
      some (g, { p with
        client := .reading (.fetch (.ready (g.store.get query)) sessionId) input })
    | none, _ => none
  | .lose => p.onWay.map fun _ => (g, { p with onWay := none })
  | .fail msg => (p.client.fail msg).map fun client => (g, { p with client := client })

/-! ## All requests -/

/-- What the requests share, and each of them. -/
structure Net (ε : Type) where
  shared : Shared
  party : Nat → Party ε

/-- Nothing is stored, and no request has begun. -/
def Net.init : Net ε := ⟨⟨.empty, []⟩, fun _ => ⟨.idle, none⟩⟩

/-- A step for request `i`, or the server drops a value whose time is up. -/
inductive NetStep (ε : Type) where
  | act (i : Nat) (a : NetAction ε)
  | expire (id : Uuid)

def Net.step (fail : String → Error ε) (config : Config) (x : Externals) (n : Net ε) :
    NetStep ε → Option (Net ε)
  | .act i a =>
    ((n.party i).act fail config x n.shared a).map fun (g, p) =>
      ⟨g, Function.update n.party i p⟩
  | .expire id =>
    if config.timeout.isSome then
      some { n with shared := { n.shared with store := n.shared.store.remove id } }
    else none

theorem step_act {fail : String → Error ε} {config : Config} {x : Externals} {n n' : Net ε}
    {i : Nat} {a : NetAction ε} (h : n.step fail config x (.act i a) = some n') :
    ∃ g p, (n.party i).act fail config x n.shared a = some (g, p) ∧
      n' = ⟨g, Function.update n.party i p⟩ := by
  obtain ⟨⟨g, p⟩, hact, rfl⟩ := Option.map_eq_some_iff.mp h
  exact ⟨g, p, hact, rfl⟩

end Redis

end Finchers.Session
