import Finchers.Cookie
import Finchers.Error
import Mathlib.Logic.Function.Basic

/-!
# Session backends

A session is the value stored under the id in a cookie of the request.  The in-memory backend reads
and writes a map; the Redis backend sends commands to a server, which keeps a value under the
key of its id, possibly for a limited time.

* `RawSession` — what a request holds of its session; `calls` — what its handler does with it;
* `InMemory`, `Redis` — the reading and the writing of the two backends;
* `Backend.write_spec` — what writing a session can do to the stored values.
-/

set_option autoImplicit false

namespace Finchers.Session

/-- `Uuid`. -/
abbrev Uuid := BitVec 128

/-- Reading an id from a text and writing it. -/
structure UuidText where
  parse : Str → Except String Uuid
  display : Uuid → Str

/-- The stored values by id: `Storage` of the in-memory backend, the database of Redis. -/
abbrev Storage := Uuid → Option Str

namespace Storage

def empty : Storage := fun _ => none

def get (s : Storage) (id : Uuid) : Option Str := s id

def set (s : Storage) (id : Uuid) (value : Str) : Storage := Function.update s id (some value)

def remove (s : Storage) (id : Uuid) : Storage := Function.update s id none

theorem isSome_of_remove {s : Storage} {id id' : Uuid} (h : (s.remove id id').isSome = true) :
    (s id').isSome = true := by
  unfold remove at h
  by_cases heq : id' = id
  · subst heq
    rw [Function.update_self] at h
    cases h
  · rw [Function.update_of_ne heq] at h
    exact h

end Storage

/-- What `Input::cookies` gives: the jar of the request, or an error if its cookies cannot be
read. -/
structure Input (ε : Type) where
  cookies : Except (Error ε) CookieJar

/-- `InMemorySession` and `RedisSession`. -/
structure RawSession where
  sessionId : Option Uuid
  value : Option Str
  deriving DecidableEq, Repr

/-- A call of a handler that changes its session. -/
inductive Call where
  | set (value : Str)
  | remove
  deriving DecidableEq, Repr

/-- `RawSession::set` and `RawSession::remove`. -/
def RawSession.call (s : RawSession) : Call → RawSession
  | .set value => { s with value := some value }
  | .remove => { s with value := none }

/-- The calls of a handler, one after the other. -/
def RawSession.calls (s : RawSession) (cs : List Call) : RawSession := cs.foldl call s

/-- The session holds the value that is stored under its id; without an id it holds none. -/
structure RawSession.ReadFrom (s : RawSession) (store : Storage) : Prop where
  value : ∀ id, s.sessionId = some id → s.value = store id
  noId : s.sessionId = none → s.value = none

theorem RawSession.ReadFrom.none (store : Storage) :
    RawSession.ReadFrom ⟨none, none⟩ store where
  value _ h := by cases h
  noId _ := rfl

theorem RawSession.ReadFrom.some (store : Storage) (id : Uuid) :
    RawSession.ReadFrom ⟨some id, store id⟩ store where
  value id' h := by
    cases h
    rfl
  noId h := by cases h

variable {ε : Type}

/-! ## In memory -/

namespace InMemory

def cookieName : Str := "session-id".toList

/-- `InMemoryBackend::read_value`. -/
def readValue (text : UuidText) (store : Storage) (input : Input ε) :
    Except (Error ε) RawSession := do
  let jar ← input.cookies
  match jar.get cookieName with
  | some cookie =>
    match text.parse cookie.value with
    | .error msg => throw (.badRequest msg)
    | .ok sessionId => return ⟨some sessionId, store.get sessionId⟩
  | none => return ⟨none, none⟩

theorem readValue_spec {text : UuidText} {store : Storage} {input : Input ε} {s : RawSession}
    (h : readValue text store input = .ok s) : s.ReadFrom store := by
  obtain ⟨cookies⟩ := input
  unfold readValue at h
  rcases cookies with err | jar
  · cases h
  simp only [bind, Except.bind] at h
  split at h
  · split at h
    · cases h
    · cases h
      exact .some store _
  · cases h
    exact .none store

/-- `InMemoryBackend::write_value`: the value is stored before the cookies are looked at. -/
def writeValue (text : UuidText) (store : Storage) (input : Input ε) (sessionId : Uuid)
    (value : Str) : Except (Error ε) CookieJar × Storage :=
  (input.cookies.map (fun jar => jar.add (.new cookieName (text.display sessionId))),
    store.set sessionId value)

/-- `InMemoryBackend::remove_value`. -/
def removeValue (past : Str) (store : Storage) (input : Input ε) (sessionId : Uuid) :
    Except (Error ε) CookieJar × Storage :=
  (input.cookies.map (fun jar => jar.remove past (.new cookieName [])), store.remove sessionId)

/-- `InMemorySession::write_impl`; `new` is the id that `Uuid::new_v4` returns. -/
def writeImpl (text : UuidText) (past : Str) (new : Uuid) (s : RawSession) (store : Storage)
    (input : Input ε) : Except (Error ε) CookieJar × Storage :=
  match s.value with
  | some value => writeValue text store input (s.sessionId.getD new) value
  | none =>
    match s.sessionId with
    | some sessionId => removeValue past store input sessionId
    | none => (input.cookies, store)

end InMemory

/-! ## Redis -/

namespace Redis

/-- `RedisSessionConfig`; the key of an id is made of the prefix and the id, so different ids of
one backend have different keys. -/
structure Config where
  cookieName : Str
  timeout : Option Nat

/-- `RedisSessionConfig::get_session_id`. -/
def Config.getSessionId (config : Config) (text : UuidText) (input : Input ε) :
    Except (Error ε) (Option Uuid) := do
  let jar ← input.cookies
  match jar.get config.cookieName with
  | some cookie =>
    match text.parse cookie.value with
    | .error msg => throw (.badRequest msg)
    | .ok sessionId => return some sessionId
  | none => return none

/-- `ReadFutureState`: what the future waits for. -/
inductive ReadFuture (ε : Type) where
  | failed (err : Error ε)
  | connecting (sessionId : Option Uuid)
  | fetch (sessionId : Uuid)

/-- `Endpoint::apply` of `RedisBackend`. -/
def apply (config : Config) (text : UuidText) (input : Input ε) : ReadFuture ε :=
  match config.getSessionId text input with
  | .ok sessionId => .connecting sessionId
  | .error err => .failed err

/-- `ReadFuture::poll`, when what it waits for is there: the connection, or the answer to `GET`. -/
def ReadFuture.poll (f : ReadFuture ε) (store : Storage) :
    Except (Error ε) (ReadFuture ε ⊕ RawSession) :=
  match f with
  | .failed err => .error err
  | .connecting (some sessionId) => .ok (.inl (.fetch sessionId))
  | .connecting none => .ok (.inr ⟨none, none⟩)
  | .fetch sessionId =>
    match store.get sessionId with
    | some value => .ok (.inr ⟨some sessionId, some value⟩)
    | none => .ok (.inr ⟨none, none⟩)

/-- A session that was read from Redis has an id only if a value is stored under it. -/
theorem ReadFuture.poll_spec {f : ReadFuture ε} {store : Storage} {s : RawSession}
    (h : f.poll store = .ok (.inr s)) :
    s.ReadFrom store ∧ ∀ id, s.sessionId = some id → (store id).isSome = true := by
  rcases f with err | (- | id) | id
  · cases h
  · cases h
    exact ⟨.none store, fun id hid => by cases hid⟩
  · cases h
  · simp only [ReadFuture.poll, Storage.get] at h
    rcases hv : store id with - | v
    · rw [hv] at h
      cases h
      exact ⟨.none store, fun id hid => by cases hid⟩
    · rw [hv] at h
      cases h
      refine ⟨hv ▸ .some store id, fun id' hid => ?_⟩
      cases hid
      rw [hv]
      rfl

inductive Cmd where
  | del (sessionId : Uuid)
  | set (sessionId : Uuid) (value : Str)
  | setex (sessionId : Uuid) (seconds : Nat) (value : Str)

/-- What the server does; it refuses to keep a value for no time. -/
def Cmd.exec (store : Storage) : Cmd → Storage
  | .del sessionId => store.remove sessionId
  | .set sessionId value => store.set sessionId value
  | .setex sessionId seconds value => if seconds = 0 then store else store.set sessionId value

/-- The command of `RedisSession::write`, and the jar after it; there is none if there is nothing
to write or the cookies cannot be read. -/
def write (config : Config) (text : UuidText) (past : Str) (new : Uuid) (s : RawSession)
    (input : Input ε) : Except (Error ε) CookieJar × Option Cmd :=
  match s.sessionId, s.value with
  | some sessionId, none =>
    match input.cookies with
    | .ok jar => (.ok (jar.remove past (.new config.cookieName [])), some (.del sessionId))
    | .error err => (.error err, none)
  | sessionId, some value =>
    let sessionId := sessionId.getD new
    match input.cookies with
    | .ok jar =>
      (.ok (jar.add (.new config.cookieName (text.display sessionId))),
        some (match config.timeout with
          | some timeout => .setex sessionId timeout value
          | none => .set sessionId value))
    | .error err => (.error err, none)
  | none, none => (input.cookies, none)

end Redis

/-! ## Either backend -/

inductive Backend where
  | inMemory
  | redis (config : Redis.Config)

/-- What both backends take from their dependencies: the texts of ids, and a date in the past. -/
structure Externals where
  text : UuidText
  past : Str

/-- Writing a session: the jar to send back, and the stored values. -/
def Backend.write (b : Backend) (x : Externals) (new : Uuid) (s : RawSession) (store : Storage)
    (input : Input ε) : Except (Error ε) CookieJar × Storage :=
  match b with
  | .inMemory => InMemory.writeImpl x.text x.past new s store input
  | .redis config =>
    let (r, cmd) := Redis.write config x.text x.past new s input
    (r, match cmd with
      | some cmd => cmd.exec store
      | none => store)

/-- Whether writing the session takes a new id. -/
def RawSession.takesNewId (s : RawSession) : Bool := s.sessionId.isNone && s.value.isSome

/-- Writing a session leaves the stored values as they are, or removes the one under its id, which
is then without a value, or stores its value under its id or a new one. -/
theorem Backend.write_spec (b : Backend) (x : Externals) (new : Uuid) (s : RawSession)
    (store : Storage) (input : Input ε) :
    (b.write x new s store input).2 = store ∨
      (∃ id, s.sessionId = some id ∧ s.value = none ∧
        (b.write x new s store input).2 = store.remove id) ∨
      ∃ v, s.value = some v ∧
        (b.write x new s store input).2 = store.set (s.sessionId.getD new) v := by
  obtain ⟨sessionId, value⟩ := s
  cases b with
  | inMemory =>
    rcases value with - | v
    · rcases sessionId with - | id
      · exact Or.inl rfl
      · exact Or.inr (Or.inl ⟨id, rfl, rfl, rfl⟩)
    · exact Or.inr (Or.inr ⟨v, rfl, rfl⟩)
  | redis config =>
    obtain ⟨cookieName, timeout⟩ := config
    obtain ⟨cookies⟩ := input
    rcases value with - | v
    · rcases sessionId with - | id
      · exact Or.inl rfl
      · rcases cookies with err | jar
        · exact Or.inl rfl
        · exact Or.inr (Or.inl ⟨id, rfl, rfl, rfl⟩)
    · rcases cookies with err | jar
      · refine Or.inl ?_
        rcases sessionId with - | id <;> rfl
      · rcases timeout with - | seconds
        · refine Or.inr (Or.inr ⟨v, rfl, ?_⟩)
          rcases sessionId with - | id <;> rfl
        · by_cases h0 : seconds = 0
          · refine Or.inl ?_
            subst h0
            rcases sessionId with - | id <;> rfl
          · refine Or.inr (Or.inr ⟨v, rfl, ?_⟩)
            rcases sessionId with - | id <;>
              simp [Backend.write, Redis.write, Redis.Cmd.exec, h0]

end Finchers.Session
