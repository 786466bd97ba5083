import Finchers.Session.Backend
import Finchers.Lib.Run

/-!
# Many requests at one backend

Every request reads its session, runs a handler on it with `Session::with` and writes it back; the
steps of different requests interleave in any order.  A step is one operation of the storage, one
command of the Redis server, or what happens between two of them.

* `act` — one step of one request, given the stored values;
* `step` — one step of the system; Redis also drops values whose time is up;
* `opened_spec` — what a request holds when it has read its session.
-/

set_option autoImplicit false

namespace Finchers.Session

open Transition

variable {ε : Type}

/-- Where a request is. -/
inductive Phase (ε : Type) where
  | idle
  | reading (f : Redis.ReadFuture ε) (input : Input ε)
  | opened (s : RawSession) (input : Input ε)
  | handled (s : RawSession) (input : Input ε)
  | closed

/-- A step of one request: the backend is applied to it; the future that reads its session makes
progress; its handler calls the session and succeeds or fails; the session is written, where `new` is
what `Uuid::new_v4` would return; the request is given up, or a command for it fails. -/
inductive Action (ε : Type) where
  | apply (input : Input ε)
  | poll
  | handle (calls : List Call) (ok : Bool)
  | write (new : Uuid)
  | abort

/-- What the requests share: the stored values, and the ids that `Uuid::new_v4` returned so far. -/
structure Shared where
  store : Storage
  generated : List Uuid

/-- The end of reading a session. -/
def Phase.ofRead (input : Input ε) : Except (Error ε) RawSession → Phase ε
  | .ok s => .opened s input
  | .error _ => .closed

/-- One step of one request.  `Session::with` calls the handler, and writes the session only if what
the handler returned succeeds. -/
def act (b : Backend) (x : Externals) (g : Shared) : Phase ε → Action ε → Option (Shared × Phase ε)
  | .idle, .apply input =>
    match b with
    | .inMemory => some (g, .ofRead input (InMemory.readValue x.text g.store input))
    | .redis config => some (g, .reading (Redis.apply config x.text input) input)
  | .reading f input, .poll =>
    match f.poll g.store with
    | .ok (.inl f) => some (g, .reading f input)
    | .ok (.inr s) => some (g, .opened s input)
    | .error _ => some (g, .closed)
  | .opened s input, .handle calls ok =>
    some (g, if ok then .handled (s.calls calls) input else .closed)
  | .handled s input, .write new =>
    some (⟨(b.write x new s g.store input).2,
      if s.takesNewId then new :: g.generated else g.generated⟩, .closed)
  | .idle, .abort => none
  | .closed, .abort => none
  | _, .abort => some (g, .closed)
  | _, _ => none

/-- A step of request `i`, or of the Redis server. -/
inductive Step (ε : Type) where
  | act (i : Nat) (a : Action ε)
  | expire (id : Uuid)

structure World (ε : Type) where
  shared : Shared
  phase : Nat → Phase ε

/-- Nothing is stored, and no request has begun. -/
def World.init : World ε := ⟨⟨.empty, []⟩, fun _ => .idle⟩

/-- One step of the system. -/
def step (b : Backend) (x : Externals) (w : World ε) : Step ε → Option (World ε)
  | .act i a =>
    (act b x w.shared (w.phase i) a).map (fun (g, ph) => ⟨g, Function.update w.phase i ph⟩)
  | .expire id =>
    match b with
    | .redis ⟨_, some _⟩ => some { w with shared := { w.shared with store := w.shared.store.remove id } }
    | _ => none

section

variable {b : Backend} {x : Externals}

theorem step_act {w w' : World ε} {i : Nat} {a : Action ε}
    (h : step b x w (.act i a) = some w') :
    ∃ g ph, act b x w.shared (w.phase i) a = some (g, ph) ∧
      w' = ⟨g, Function.update w.phase i ph⟩ := by
  obtain ⟨⟨g, ph⟩, hact, rfl⟩ := Option.map_eq_some_iff.mp h
  exact ⟨g, ph, hact, rfl⟩

theorem step_expire {w w' : World ε} {id : Uuid} (h : step b x w (.expire id) = some w') :
    w' = { w with shared := { w.shared with store := w.shared.store.remove id } } := by
  unfold step at h
  simp only at h
  split at h
  · cases h
    rfl
  · cases h

/-- A request that has just read its session holds the value that is stored under its id, and
reading changes nothing; with Redis it has an id only if a value is stored under it. -/
theorem opened_spec {g g' : Shared} {ph : Phase ε} {a : Action ε} {s : RawSession}
    {input : Input ε} (h : act b x g ph a = some (g', .opened s input)) :
    g' = g ∧ s.ReadFrom g.store ∧
      (b = .inMemory ∨ ∀ id, s.sessionId = some id → (g.store id).isSome = true) := by
  cases ph with
  | idle =>
    cases a with
    | apply input' =>
      cases b with
      | inMemory =>
        simp only [act, Option.some.injEq, Prod.mk.injEq] at h
        obtain ⟨rfl, h⟩ := h
        rcases hr : InMemory.readValue x.text g.store input' with err | s'
        · rw [hr] at h
          cases h
        · rw [hr] at h
          cases h
          exact ⟨rfl, InMemory.readValue_spec hr, Or.inl rfl⟩
      | redis config => cases h
    | poll | handle | write | abort => cases h
  | reading f input' =>
    cases a with
    | poll =>
      simp only [act] at h
      rcases hp : f.poll g.store with err | (f' | s')
      · rw [hp] at h
        cases h
      · rw [hp] at h
        cases h
      · rw [hp] at h
        cases h
        have hspec := Redis.ReadFuture.poll_spec hp
        exact ⟨rfl, hspec.1, Or.inr hspec.2⟩
    | apply | handle | write | abort => cases h
  | opened s' input' =>
    cases a with
    | handle calls ok =>
      simp only [act, Option.some.injEq, Prod.mk.injEq] at h
      split at h <;> cases h.2
    | apply | poll | write | abort => cases h
  | handled s' input' =>
    cases a with
    | apply | poll | handle | write | abort => cases h
  | closed =>
    cases a with
    | apply | poll | handle | write | abort => cases h

/-- What one step of a request can do: it goes on reading or is closed, it has its session, its
handler has called the session, or the session is written. -/
theorem act_cases {g g' : Shared} {ph ph' : Phase ε} {a : Action ε}
    (h : act b x g ph a = some (g', ph')) :
    (g' = g ∧ ((∃ f input, ph' = .reading f input) ∨ ph' = .closed)) ∨
      (∃ s input, ph' = .opened s input) ∨
      (∃ s input calls, ph = .opened s input ∧ a = .handle calls true ∧ g' = g ∧
        ph' = .handled (s.calls calls) input) ∨
      ∃ s input new, ph = .handled s input ∧ a = .write new ∧ ph' = .closed ∧
        g' = ⟨(b.write x new s g.store input).2,
          if s.takesNewId then new :: g.generated else g.generated⟩ := by
  have hread : ∀ {g' : Shared} {p : Phase ε}, some (g, p) = some (g', ph') →
      ((∃ f input, p = .reading f input) ∨ p = .closed ∨ ∃ s input, p = .opened s input) →
      (g' = g ∧ ((∃ f input, ph' = .reading f input) ∨ ph' = .closed)) ∨
        ∃ s input, ph' = .opened s input := by
    intro g' p he hp
    cases he
    rcases hp with hp | hp | hp
    · exact Or.inl ⟨rfl, Or.inl hp⟩
    · exact Or.inl ⟨rfl, Or.inr hp⟩
    · exact Or.inr hp
  cases ph with
  | idle =>
    cases a with
    | apply input =>
      have hof : ∀ r, (Phase.ofRead input r = .closed) ∨
          ∃ s i, Phase.ofRead input r = .opened s i := by
        intro r
        rcases r with err | s
        · exact Or.inl rfl
        · exact Or.inr ⟨s, input, rfl⟩
      cases b with
      | inMemory => exact (hread h (Or.inr (hof _))).imp_right Or.inl
      | redis config => exact (hread h (Or.inl ⟨_, _, rfl⟩)).imp_right Or.inl
    | poll | handle | write | abort => cases h
  | reading f input =>
    cases a with
    | poll =>
      simp only [act] at h
      split at h
      · exact (hread h (Or.inl ⟨_, _, rfl⟩)).imp_right Or.inl
      · exact (hread h (Or.inr (Or.inr ⟨_, _, rfl⟩))).imp_right Or.inl
      · exact (hread h (Or.inr (Or.inl rfl))).imp_right Or.inl
    | abort => exact (hread h (Or.inr (Or.inl rfl))).imp_right Or.inl
    | apply | handle | write => cases h
  | opened s input =>
    cases a with
    | handle calls ok =>
      cases ok with
      | true =>
        cases h
        exact Or.inr (Or.inr (Or.inl ⟨s, input, calls, rfl, rfl, rfl, rfl⟩))
      | false => exact (hread h (Or.inr (Or.inl rfl))).imp_right Or.inl
    | abort => exact (hread h (Or.inr (Or.inl rfl))).imp_right Or.inl
    | apply | poll | write => cases h
  | handled s input =>
    cases a with
    | write new =>
      cases h
      exact Or.inr (Or.inr (Or.inr ⟨s, input, new, rfl, rfl, rfl, rfl⟩))
    | abort => exact (hread h (Or.inr (Or.inl rfl))).imp_right Or.inl
    | apply | poll | handle => cases h
  | closed =>
    cases a with
    | apply | poll | handle | write | abort => cases h

/-- A step of a handler leaves the stored values as they are. -/
theorem handle_spec {g g' : Shared} {s : RawSession} {input : Input ε} {ph : Phase ε}
    {calls : List Call} {ok : Bool}
    (h : act b x g (.opened s input) (.handle calls ok) = some (g', ph)) :
    g' = g ∧ ph = if ok then .handled (s.calls calls) input else .closed := by
  cases h
  exact ⟨rfl, rfl⟩

end

end Finchers.Session
