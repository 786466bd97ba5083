import Finchers.Session.System
import Finchers.Session.Ids

/-!
# Clients of the in-memory backend

Clients send requests one after the other, each with the session cookie that it was sent last, and
each request is handled before the next one comes.  A client sees the backend as a variable of its
own, which its handlers read and write.

* `serve` — one request: its session is read, `Session::with` runs the handler and writes the session
  if it succeeds;
* `Clients.step` — the client takes over what the response says about its session cookie;
* `leave` — the abstract machine: one value for each client;
* `Refines`, `step_refines` — the invariant that ties the cookies of the clients to the stored values;
* `session_reads_own` — **a handler reads what it set itself, or else what the last successful request
  of the same client left**, a failing one changes nothing, and a succeeding one at most the value
  under its own id.
-/

set_option autoImplicit false

namespace Finchers.Session

open Transition

/-! ## Handlers -/

/-- What a handler does with its session. -/
inductive Op where
  | get
  | call (c : Call)
  deriving DecidableEq, Repr

/-- One operation: what it returns, which is nothing for `set` and `remove`, and the session after
it. -/
def RawSession.op (s : RawSession) : Op → Option (Option Str) × RawSession
  | .get => (some s.value, s)
  | .call c => (none, s.call c)

/-- The operations of a handler, one after the other, and what each of them returned. -/
def RawSession.ops : RawSession → List Op → List (Option (Option Str)) × RawSession
  | s, [] => ([], s)
  | s, o :: os => ((s.op o).1 :: ((s.op o).2.ops os).1, ((s.op o).2.ops os).2)

/-- The value that an operation leaves, if it is not a `get`. -/
def Op.leaves : Op → Option (Option Str)
  | .get => none
  | .call (.set value) => some (some value)
  | .call .remove => some none

/-- The value after some operations: what the last `set` or `remove` among them left. -/
def valueAfter (initial : Option Str) (os : List Op) : Option Str :=
  (os.filterMap Op.leaves).getLast?.getD initial

theorem valueAfter_cons (initial : Option Str) (o : Op) (os : List Op) :
    valueAfter initial (o :: os) = valueAfter (o.leaves.getD initial) os := by
  unfold valueAfter
  rw [List.filterMap_cons]
  rcases o.leaves with _ | v
  · rfl
  · rw [List.getLast?_cons]
    rfl

namespace RawSession

variable (s : RawSession) (os : List Op)

theorem op_value (o : Op) : (s.op o).2.value = o.leaves.getD s.value := by
  rcases o with _ | (v | -) <;> rfl

theorem op_sessionId (o : Op) : (s.op o).2.sessionId = s.sessionId := by
  rcases o with _ | (v | -) <;> rfl

@[simp] theorem length_ops : (s.ops os).1.length = os.length := by
  induction os generalizing s with
  | nil => rfl
  | cons o os ih => simp [ops, ih]

theorem ops_value : (s.ops os).2.value = valueAfter s.value os := by
  induction os generalizing s with
  | nil => rfl
  | cons o os ih =>
    rw [valueAfter_cons, ← op_value]
    exact ih (s.op o).2

theorem ops_sessionId : (s.ops os).2.sessionId = s.sessionId := by
  induction os generalizing s with
  | nil => rfl
  | cons o os ih => exact (ih (s.op o).2).trans (s.op_sessionId o)

/-- A `get` returns the value that the operations before it left. -/
theorem ops_get {i : Nat} (h : os[i]? = some .get) :
    (s.ops os).1[i]? = some (some (valueAfter s.value (os.take i))) := by
  induction os generalizing s i with
  | nil => cases h
  | cons o os ih =>
    cases i with
    | zero =>
      cases h
      rfl
    | succ i =>
      rw [List.take_succ_cons, valueAfter_cons, ← op_value]
      exact ih (s.op o).2 h

end RawSession

/-! ## Requests -/

variable {Client ε : Type}

/-- A request: who sends it, what `Input::cookies` gives, what its handler does and whether what it
returns succeeds, and what `Uuid::new_v4` returns if it is called. -/
structure Visit (Client ε : Type) where
  client : Client
  input : Input ε
  ops : List Op
  ok : Bool
  new : Uuid

/-- The handling of a request. -/
structure Served (ε : Type) where
  /-- what the operations of the handler returned, if it was called -/
  results : Option (List (Option (Option Str)))
  /-- the jar of the response -/
  jar : Except (Error ε) CookieJar
  shared : Shared

/-- One request: its session is read; `Session::with` calls the handler, and writes the session if
what the handler returned succeeds. -/
def serve (x : Externals) (g : Shared) (v : Visit Client ε) : Served ε :=
  match InMemory.readValue x.text g.store v.input with
  | .error _ => ⟨none, v.input.cookies, g⟩
  | .ok s =>
    let (results, s) := s.ops v.ops
    if v.ok then
      let (jar, store) := InMemory.writeImpl x.text x.past v.new s g.store v.input
      ⟨some results, jar, ⟨store, if s.takesNewId then v.new :: g.generated else g.generated⟩⟩
    else ⟨some results, v.input.cookies, g⟩

/-- The id of the session of a request: that in its cookie, or a new one. -/
def ownId (x : Externals) (g : Shared) (v : Visit Client ε) : Uuid :=
  match InMemory.readValue x.text g.store v.input with
  | .error _ => v.new
  | .ok s => s.sessionId.getD v.new

/-- The session cookie of a client after a response: the delta of the jar may set it or expire it. -/
def takeOver (old : Option Str) : Except (Error ε) CookieJar → Option Str
  | .error _ => old
  | .ok jar =>
    match jar.delta.find? (fun c => c.name == InMemory.cookieName) with
    | none => old
    | some c => if c.maxAge = some 0 then none else some c.value

/-- The backend and its clients, each with the session cookie it was sent last. -/
structure Clients (Client : Type) where
  shared : Shared
  cookie : Client → Option Str

/-- Nothing is stored, and no client has a cookie. -/
def Clients.init : Clients Client := ⟨⟨.empty, []⟩, fun _ => none⟩

variable [DecidableEq Client] in
/-- A request is handled, and its client takes over the cookie of the response. -/
def Clients.step (x : Externals) (w : Clients Client) (v : Visit Client ε) : Option (Clients Client) :=
  let served := serve x w.shared v
  some ⟨served.shared,
    Function.update w.cookie v.client (takeOver (w.cookie v.client) served.jar)⟩

/-- The session cookie that came with a request is `cookie`, and the jar has not been changed in this
respect. -/
structure Carries (input : Input ε) (cookie : Option Str) : Prop where
  sent : ∀ jar, input.cookies = .ok jar →
    (jar.originalCookies.find? (fun c => c.name == InMemory.cookieName)).map (·.value) = cookie
  fresh : ∀ jar, input.cookies = .ok jar →
    jar.deltaCookies.find? (fun d => d.cookie.name == InMemory.cookieName) = none

/-- The request has the session cookie of its client, and `Uuid::new_v4` returns an id it has not
returned before. -/
def Visit.Legal (w : Clients Client) (v : Visit Client ε) : Prop :=
  Carries v.input (w.cookie v.client) ∧ v.new ∉ w.shared.generated

/-! ## The abstract machine -/

/-- The request succeeds: its cookies can be read, and what its handler returns succeeds. -/
def Visit.succeeds (v : Visit Client ε) : Bool := v.input.cookies.isOk && v.ok

variable [DecidableEq Client] in
/-- A successful request leaves its client the value that the handler left. -/
def leave (m : Client → Option Str) (v : Visit Client ε) : Client → Option Str := fun c =>
  if v.client = c ∧ v.succeeds then valueAfter (m c) v.ops else m c

variable [DecidableEq Client] in
/-- The value left by the last successful request of each client. -/
def left (visits : List (Visit Client ε)) : Client → Option Str := visits.foldl leave fun _ => none

/-! ## The jar -/

section

variable {jar : CookieJar} {cookie : Option Str} {input : Input ε}

theorem Carries.get (h : Carries input cookie) (hjar : input.cookies = .ok jar) :
    (jar.get InMemory.cookieName).map (·.value) = cookie := by
  rw [← h.sent jar hjar]
  unfold CookieJar.get
  rw [h.fresh jar hjar]

/-- A response that does not touch the session cookie. -/
theorem Carries.takeOver_same (h : Carries input cookie) (old : Option Str) :
    takeOver old input.cookies = old := by
  rcases hjar : input.cookies with err | jar
  · rfl
  · have hfresh : jar.delta.find? (fun c => c.name == InMemory.cookieName) = none := by
      rw [CookieJar.delta, List.find?_map, Option.map_eq_none_iff]
      exact h.fresh jar hjar
    simp only [takeOver, hfresh]

theorem find_delta_replaceDelta (jar : CookieJar) {d : DeltaCookie} {name : Str}
    (hname : d.cookie.name = name) :
    (jar.replaceDelta d).delta.find? (fun c => c.name == name) = some d.cookie := by
  subst hname
  have hothers : (jar.deltaCookies.filter (fun e => e.cookie.name != d.cookie.name)).find?
      ((fun c : Cookie => c.name == d.cookie.name) ∘ (·.cookie)) = none := by
    rw [List.find?_eq_none]
    intro e he
    have hne := (List.mem_filter.mp he).2
    simpa using hne
  rw [CookieJar.delta, CookieJar.replaceDelta, List.find?_map, List.find?_append, hothers]
  simp

theorem takeOver_replaceDelta (old : Option Str) (jar : CookieJar) {d : DeltaCookie}
    (hname : d.cookie.name = InMemory.cookieName) :
    takeOver old (.ok (jar.replaceDelta d) : Except (Error ε) CookieJar) =
      if d.cookie.maxAge = some 0 then none else some d.cookie.value := by
  have hfind := find_delta_replaceDelta jar hname
  simp only [takeOver, hfind]

theorem takeOver_add (old : Option Str) (jar : CookieJar) (value : Str) :
    takeOver old (.ok (jar.add (.new InMemory.cookieName value)) : Except (Error ε) CookieJar) =
      some value :=
  takeOver_replaceDelta old jar rfl

theorem takeOver_remove (old : Option Str) (past : Str)
    (h : (jar.originalCookies.find? (fun c => c.name == InMemory.cookieName)).isSome) :
    takeOver old (.ok (jar.remove past (.new InMemory.cookieName [])) : Except (Error ε) CookieJar) =
      none := by
  have hany : jar.originalCookies.any (fun d => d.name == InMemory.cookieName) = true := by
    rw [List.find?_isSome] at h
    rw [List.any_eq_true]
    exact h
  have hremove : jar.remove past (.new InMemory.cookieName []) = jar.replaceDelta
      ⟨{ Cookie.new InMemory.cookieName [] with maxAge := some 0, expires := some past }, true⟩ :=
    if_pos hany
  rw [hremove]
  exact takeOver_replaceDelta old jar rfl

end

/-! ## One request -/

section

variable {x : Externals} {g : Shared} {v : Visit Client ε} {jar : CookieJar}

/-- What is read for a client without a session cookie. -/
theorem readValue_none (hv : Carries v.input none) (hjar : v.input.cookies = .ok jar) :
    InMemory.readValue x.text g.store v.input = .ok ⟨none, none⟩ := by
  have hget := hv.get hjar
  rw [Option.map_eq_none_iff] at hget
  unfold InMemory.readValue
  rw [hjar]
  simp only [bind, Except.bind, hget]
  rfl

/-- What is read for a client with the session cookie of an id. -/
theorem readValue_some (htext : x.text.RoundTrips) {id : Uuid}
    (hv : Carries v.input (some (x.text.display id))) (hjar : v.input.cookies = .ok jar) :
    InMemory.readValue x.text g.store v.input = .ok ⟨some id, g.store id⟩ := by
  have hget := hv.get hjar
  obtain ⟨cookie, hget, hvalue⟩ := Option.map_eq_some_iff.mp hget
  unfold InMemory.readValue
  rw [hjar]
  simp only [bind, Except.bind, hget, hvalue, htext id]
  rfl

/-- A request whose cookies cannot be read. -/
theorem serve_unreadable {err : Error ε} (hjar : v.input.cookies = .error err) :
    serve x g v = ⟨none, v.input.cookies, g⟩ := by
  have hread : InMemory.readValue x.text g.store v.input = .error err := by
    unfold InMemory.readValue
    rw [hjar]
    rfl
  unfold serve
  rw [hread]

/-- A request whose handler fails. -/
theorem serve_failed {s : RawSession} (hread : InMemory.readValue x.text g.store v.input = .ok s)
    (hok : v.ok = false) : serve x g v = ⟨some (s.ops v.ops).1, v.input.cookies, g⟩ := by
  unfold serve
  rw [hread]
  simp [hok]

/-- A request whose handler succeeds. -/
theorem serve_ok {s s' : RawSession} (hread : InMemory.readValue x.text g.store v.input = .ok s)
    (hok : v.ok = true) (hs' : (s.ops v.ops).2 = s') :
    serve x g v = ⟨some (s.ops v.ops).1,
      (InMemory.writeImpl x.text x.past v.new s' g.store v.input).1,
      (InMemory.writeImpl x.text x.past v.new s' g.store v.input).2,
      if s'.takesNewId then v.new :: g.generated else g.generated⟩ := by
  unfold serve
  rw [hread]
  simp [hok, hs']

/-- Handling a request changes at most the value under its own id. -/
theorem serve_store_of_ne {id : Uuid} (hid : id ≠ ownId x g v) :
    (serve x g v).shared.store id = g.store id := by
  unfold ownId at hid
  unfold serve
  rcases hread : InMemory.readValue x.text g.store v.input with err | s
  · rfl
  rw [hread] at hid
  rcases hok : v.ok with - | -
  · rfl
  · have hsid := s.ops_sessionId v.ops
    have hne : id ≠ (s.ops v.ops).2.sessionId.getD v.new := by
      rw [hsid]
      exact hid
    show (Backend.write .inMemory x v.new (s.ops v.ops).2 g.store v.input).2 id = g.store id
    rcases Backend.write_spec .inMemory x v.new (s.ops v.ops).2 g.store v.input with
      hw | ⟨id', hid', -, hw⟩ | ⟨value, -, hw⟩
    · rw [hw]
    · rw [hw]
      rw [hid'] at hne
      exact Function.update_of_ne hne _ _
    · rw [hw]
      exact Function.update_of_ne hne _ _

end

/-! ## Runs -/

/-- A client with a session cookie has the id under which its value is stored; one without has no
value.  No two clients have the same id, and all ids were generated. -/
structure Refines (x : Externals) (m : Client → Option Str) (w : Clients Client) : Prop where
  known : ∀ c t, w.cookie c = some t →
    ∃ id ∈ w.shared.generated, t = x.text.display id ∧ w.shared.store id = m c
  noCookie : ∀ c, w.cookie c = none → m c = none
  distinct : ∀ c c' t, w.cookie c = some t → w.cookie c' = some t → c = c'

section

variable {x : Externals} {m : Client → Option Str} {w : Clients Client} {v : Visit Client ε}
  {jar : CookieJar}

theorem Refines.init : Refines x (fun _ : Client => none) .init where
  known c t h := by cases h
  noCookie _ _ := rfl
  distinct c c' t h := by cases h

/-- What a request reads: the value of its client, under an id if the client has a cookie. -/
theorem Refines.read (htext : x.text.RoundTrips) (h : Refines x m w) (hv : v.Legal w)
    (hjar : v.input.cookies = .ok jar) :
    ∃ s, InMemory.readValue x.text w.shared.store v.input = .ok s ∧ s.value = m v.client ∧
      s.sessionId.map x.text.display = w.cookie v.client := by
  obtain ⟨hcarries, -⟩ := hv
  rcases hc : w.cookie v.client with _ | t
  · rw [hc] at hcarries
    exact ⟨_, readValue_none hcarries hjar, (h.noCookie _ hc).symm, rfl⟩
  · obtain ⟨id, -, rfl, hstore⟩ := h.known _ t hc
    rw [hc] at hcarries
    exact ⟨_, readValue_some htext hcarries hjar, hstore, rfl⟩

theorem UuidText.RoundTrips.injective {text : UuidText} (htext : text.RoundTrips) {id id' : Uuid}
    (h : text.display id = text.display id') : id = id' := by
  have hparse := htext id
  rw [h, htext id'] at hparse
  exact (Except.ok.inj hparse).symm

/-- No other client has the id under which a session is written. -/
theorem Refines.own (htext : x.text.RoundTrips) (h : Refines x m w) (hv : v.Legal w)
    {s : RawSession} (hs : s.sessionId.map x.text.display = w.cookie v.client) {c : Client}
    (hc : c ≠ v.client) {id : Uuid} (hid : w.cookie c = some (x.text.display id)) :
    id ≠ s.sessionId.getD v.new := by
  intro heq
  rcases hsid : s.sessionId with _ | own
  · obtain ⟨id', hgen, hdisplay, -⟩ := h.known c _ hid
    obtain rfl := htext.injective hdisplay
    rw [hsid] at heq
    have hnew : id = v.new := heq
    exact hv.2 (hnew ▸ hgen)
  · rw [hsid] at heq hs
    have hown : own = id := heq.symm
    subst hown
    exact hc (h.distinct c v.client _ hid hs.symm)

/-- A change of the value of one client, and of what is stored for it. -/
theorem Refines.update [DecidableEq Client] (h : Refines x m w) {c : Client} {store : Storage}
    {generated : List Uuid} {cookie value : Option Str}
    (hgen : ∀ id ∈ w.shared.generated, id ∈ generated)
    (hothers : ∀ c' id, c' ≠ c → w.cookie c' = some (x.text.display id) →
      store id = w.shared.store id)
    (hknown : ∀ t, cookie = some t →
      (∃ id ∈ generated, t = x.text.display id ∧ store id = value) ∧
        ∀ c', c' ≠ c → w.cookie c' ≠ some t)
    (hnone : cookie = none → value = none) :
    Refines x (Function.update m c value) ⟨⟨store, generated⟩, Function.update w.cookie c cookie⟩ := by
  refine ⟨fun c' t ht => ?_, fun c' ht => ?_, fun c₁ c₂ t h₁ h₂ => ?_⟩
  · by_cases hc : c' = c
    · subst hc
      simp only [Function.update_self] at ht ⊢
      exact (hknown t ht).1
    · simp only [Function.update_of_ne hc] at ht ⊢
      obtain ⟨id, hid, rfl, hstore⟩ := h.known c' t ht
      exact ⟨id, hgen id hid, rfl, (hothers c' id hc ht).trans hstore⟩
  · by_cases hc : c' = c
    · subst hc
      simp only [Function.update_self] at ht ⊢
      exact hnone ht
    · simp only [Function.update_of_ne hc] at ht ⊢
      exact h.noCookie c' ht
  · by_cases hc₁ : c₁ = c
    · by_cases hc₂ : c₂ = c
      · exact hc₁.trans hc₂.symm
      · subst hc₁
        simp only [Function.update_self, Function.update_of_ne hc₂] at h₁ h₂
        exact absurd h₂ ((hknown t h₁).2 c₂ hc₂)
    · by_cases hc₂ : c₂ = c
      · subst hc₂
        simp only [Function.update_self, Function.update_of_ne hc₁] at h₁ h₂
        exact absurd h₁ ((hknown t h₂).2 c₁ hc₁)
      · simp only [Function.update_of_ne hc₁, Function.update_of_ne hc₂] at h₁ h₂
        exact h.distinct c₁ c₂ t h₁ h₂

end

section

variable [DecidableEq Client] {x : Externals} {m : Client → Option Str} {w w' : Clients Client}
  {v : Visit Client ε} {jar : CookieJar}

theorem leave_of_succeeds (h : v.succeeds = true) :
    leave m v = Function.update m v.client (valueAfter (m v.client) v.ops) := by
  funext c
  unfold leave
  by_cases hc : v.client = c
  · subst hc
    rw [if_pos ⟨rfl, h⟩, Function.update_self]
  · rw [if_neg fun hand => hc hand.1, Function.update_of_ne fun heq => hc heq.symm]

theorem leave_of_not (h : v.succeeds = false) : leave m v = m := by
  funext c
  unfold leave
  rw [h]
  simp

/-- What a client is left depends on its own requests only. -/
theorem left_own (visits : List (Visit Client ε)) (c : Client) :
    left visits c = left (visits.filter fun u => u.client = c) c := by
  have hfold : ∀ m m' : Client → Option Str, m c = m' c →
      visits.foldl leave m c = (visits.filter fun u => u.client = c).foldl leave m' c := by
    induction visits with
    | nil => exact fun _ _ hm => hm
    | cons v visits ih =>
      intro m m' hm
      by_cases hc : v.client = c
      · rw [List.filter_cons_of_pos (by simpa using hc)]
        exact ih _ _ (by simp only [leave, hm])
      · rw [List.filter_cons_of_neg (by simpa using hc)]
        exact ih _ _ (by rw [leave, if_neg fun hand => hc hand.1, hm])
  exact hfold _ _ rfl

/-- A request whose response leaves the session cookie as it is, and which stores nothing. -/
theorem step_unchanged (hv : v.Legal w) {results : Option (List (Option (Option Str)))}
    (hserve : serve x w.shared v = ⟨results, v.input.cookies, w.shared⟩) :
    Clients.step x w v = some w := by
  unfold Clients.step
  simp only [hserve, hv.1.takeOver_same, Function.update_eq_self]

section

variable {s : RawSession} {id : Uuid} {value : Str}

/-- A successful request that had no session and makes none. -/
theorem step_none (hread : InMemory.readValue x.text w.shared.store v.input = .ok s)
    (hok : v.ok = true) (hafter : (s.ops v.ops).2 = ⟨none, none⟩) :
    Clients.step x w v = some ⟨w.shared, Function.update w.cookie v.client
      (takeOver (w.cookie v.client) v.input.cookies)⟩ := by
  unfold Clients.step
  rw [serve_ok hread hok hafter]
  rfl

/-- A successful request that removes its session. -/
theorem step_removed (hjar : v.input.cookies = .ok jar)
    (hread : InMemory.readValue x.text w.shared.store v.input = .ok s) (hok : v.ok = true)
    (hafter : (s.ops v.ops).2 = ⟨some id, none⟩)
    (hsent : (jar.originalCookies.find? (fun c => c.name == InMemory.cookieName)).isSome) :
    Clients.step x w v = some ⟨⟨w.shared.store.remove id, w.shared.generated⟩,
      Function.update w.cookie v.client none⟩ := by
  unfold Clients.step
  rw [serve_ok hread hok hafter]
  simp only [InMemory.writeImpl, InMemory.removeValue, hjar, Except.map]
  rw [takeOver_remove _ _ hsent]
  rfl

/-- A successful request that writes its session, under its id or a new one. -/
theorem step_written (hjar : v.input.cookies = .ok jar)
    (hread : InMemory.readValue x.text w.shared.store v.input = .ok s) (hok : v.ok = true)
    {sessionId : Option Uuid} (hafter : (s.ops v.ops).2 = ⟨sessionId, some value⟩) :
    Clients.step x w v = some ⟨⟨w.shared.store.set (sessionId.getD v.new) value,
        if sessionId.isNone then v.new :: w.shared.generated else w.shared.generated⟩,
      Function.update w.cookie v.client (some (x.text.display (sessionId.getD v.new)))⟩ := by
  unfold Clients.step
  rw [serve_ok hread hok hafter]
  simp only [InMemory.writeImpl, InMemory.writeValue, hjar, Except.map]
  rw [takeOver_add]
  simp [RawSession.takesNewId]

end

/-- One request does to the backend and its clients what `leave` does to their values. -/
theorem step_refines (htext : x.text.RoundTrips) (h : Refines x m w) (hv : v.Legal w)
    (hstep : Clients.step x w v = some w') : Refines x (leave m v) w' := by
  rcases hjar : v.input.cookies with err | jar
  · rw [step_unchanged hv (serve_unreadable hjar)] at hstep
    cases hstep
    rw [leave_of_not (by rw [Visit.succeeds, hjar]; rfl)]
    exact h
  obtain ⟨s, hread, hvalue, hcookie⟩ := h.read htext hv hjar
  rcases hok : v.ok with - | -
  · rw [step_unchanged hv (serve_failed hread hok)] at hstep
    cases hstep
    rw [leave_of_not (by rw [Visit.succeeds, hok, Bool.and_false])]
    exact h
  rw [leave_of_succeeds (by rw [Visit.succeeds, hok, hjar]; rfl), ← hvalue]
  have hothers : ∀ c id, c ≠ v.client → w.cookie c = some (x.text.display id) →
      id ≠ s.sessionId.getD v.new := fun c id hc hid => h.own htext hv hcookie hc hid
  have hafter : (s.ops v.ops).2 = ⟨s.sessionId, valueAfter s.value v.ops⟩ := by
    rw [← s.ops_value, ← s.ops_sessionId]
  rcases hleft : valueAfter s.value v.ops with - | value
  · rcases hsid : s.sessionId with - | id
    · rw [hleft, hsid] at hafter
      rw [step_none hread hok hafter] at hstep
      cases hstep
      refine h.update (fun _ hid => hid) (fun _ _ _ _ => rfl) (fun t ht => ?_) fun _ => rfl
      rw [hv.1.takeOver_same, ← hcookie, hsid] at ht
      cases ht
    · have hsent : (jar.originalCookies.find? (fun c => c.name == InMemory.cookieName)).isSome := by
        have hmap := hv.1.sent jar hjar
        rw [← hcookie, hsid] at hmap
        rw [← Option.isSome_map, hmap]
        rfl
      rw [hleft, hsid] at hafter
      rw [step_removed hjar hread hok hafter hsent] at hstep
      cases hstep
      rw [hsid] at hothers
      refine h.update (fun _ hid => hid) (fun c id' hc hid' => ?_) (fun t ht => ?_) fun _ => rfl
      · exact Function.update_of_ne (hothers c id' hc hid') _ _
      · cases ht
  · rw [hleft] at hafter
    rw [step_written hjar hread hok hafter] at hstep
    cases hstep
    have hgen : ∀ id ∈ w.shared.generated, id ∈
        if s.sessionId.isNone then v.new :: w.shared.generated else w.shared.generated := by
      intro id hid
      split
      · exact List.mem_cons_of_mem _ hid
      · exact hid
    refine h.update hgen (fun c id hc hid => ?_) (fun t ht => ?_) fun hnone => by cases hnone
    · exact Function.update_of_ne (hothers c id hc hid) _ _
    · cases ht
      refine ⟨⟨s.sessionId.getD v.new, ?_, rfl, Function.update_self _ _ _⟩, fun c hc hid => ?_⟩
      · rcases hsid : s.sessionId with - | id
        · exact List.mem_cons_self
        · rw [hsid] at hcookie
          obtain ⟨id', hid', hdisplay, -⟩ := h.known _ _ hcookie.symm
          obtain rfl := htext.injective hdisplay
          exact hid'
      · exact hothers c _ hc hid rfl

/-- A run does to the backend and its clients what the abstract machine does to their values. -/
theorem run_clients_refines (htext : x.text.RoundTrips) {visits : List (Visit Client ε)}
    (hlegal : Meets (Clients.step x) Visit.Legal .init visits)
    (hrun : run (Clients.step x) .init visits = some w) : Refines x (left visits) w :=
  run_refines (R := Refines x) (C := Visit.Legal)
    (fun h hv hstep => step_refines htext h hv hstep) .init hlegal hrun

/-- **A client sees the backend as a variable of its own.**  After any run, in the next request of any
client: if its cookies can be read then its handler is called, and each `get` returns what the last
`set` or `remove` before it in the handler left, or else what the last successful request of the same
client left, and nothing if there is none.  A request that fails leaves all stored values as they are,
any other changes at most the one under its own id. -/
theorem session_reads_own (htext : x.text.RoundTrips) {visits : List (Visit Client ε)}
    (hlegal : Meets (Clients.step x) Visit.Legal .init visits)
    (hrun : run (Clients.step x) .init visits = some w) (hv : v.Legal w) :
    (v.input.cookies.isOk → ∃ results, (serve x w.shared v).results = some results ∧
        results.length = v.ops.length ∧ ∀ i, v.ops[i]? = some .get →
          results[i]? = some (some (valueAfter
            (left (visits.filter fun u => u.client = v.client) v.client) (v.ops.take i)))) ∧
      (v.succeeds = false → (serve x w.shared v).shared = w.shared) ∧
      ∀ id, id ≠ ownId x w.shared v →
        (serve x w.shared v).shared.store id = w.shared.store id := by
  have hrefines := run_clients_refines htext hlegal hrun
  refine ⟨fun hreadable => ?_, fun hfails => ?_, fun id hid => serve_store_of_ne hid⟩
  · rcases hjar : v.input.cookies with err | jar
    · rw [hjar] at hreadable
      cases hreadable
    · obtain ⟨s, hread, hvalue, -⟩ := hrefines.read htext hv hjar
      refine ⟨(s.ops v.ops).1, ?_, s.length_ops v.ops, fun i hget => ?_⟩
      · rcases hok : v.ok with - | -
        · rw [serve_failed hread hok]
        · rw [serve_ok hread hok rfl]
      · rw [s.ops_get v.ops hget, hvalue, left_own]
  · rcases hjar : v.input.cookies with err | jar
    · rw [serve_unreadable hjar]
    · obtain ⟨s, hread, -, -⟩ := hrefines.read htext hv hjar
      have hok : v.ok = false := by
        rw [Visit.succeeds, hjar] at hfails
        simpa [Except.isOk, Except.toBool] using hfails
      rw [serve_failed hread hok]

end

/-! ## Two clients -/

/-- The cookies of a request with this session cookie. -/
def inputOf (cookie : Option Str) : Input Empty :=
  ⟨.ok (match cookie with
    | none => .new
    | some t => CookieJar.new.addOriginal (.new InMemory.cookieName t))⟩

theorem carries_inputOf (cookie : Option Str) : Carries (inputOf cookie) cookie := by
  refine ⟨fun jar hjar => ?_, fun jar hjar => ?_⟩
  · cases hjar
    cases cookie <;> rfl
  · cases hjar
    cases cookie <;> rfl

/-- Two clients set values, the one `a` and the other `b`. -/
def twoClients : List (Visit Bool Empty) :=
  [⟨true, inputOf none, [.call (.set "a".toList)], true, 1⟩,
    ⟨false, inputOf none, [.call (.set "b".toList)], true, 2⟩]

/-- The first client comes back: its handler reads, removes the session and reads again. -/
def comesBack (x : Externals) : Visit Bool Empty :=
  ⟨true, inputOf (some (x.text.display 1)), [.get, .call .remove, .get], true, 3⟩

/-- The state in which it comes back. -/
def bothServed (x : Externals) : Clients Bool :=
  ⟨⟨(Storage.empty.set 1 "a".toList).set 2 "b".toList, [2, 1]⟩,
    Function.update (Function.update (fun _ => none) true (some (x.text.display 1))) false
      (some (x.text.display 2))⟩

theorem run_twoClients (x : Externals) :
    run (Clients.step x) .init twoClients = some (bothServed x) := rfl

theorem session_reads_own_two : run (Clients.step hyphenated) .init twoClients =
      some (bothServed hyphenated) ∧
    ∃ results, (serve hyphenated (bothServed hyphenated).shared (comesBack hyphenated)).results =
        some results ∧
      results[0]? = some (some (some "a".toList)) ∧ results[2]? = some (some none) := by
  have hlegal : Meets (Clients.step hyphenated) Visit.Legal .init twoClients := by
    refine .cons ⟨carries_inputOf none, List.not_mem_nil⟩ fun t ht => ?_
    cases ht
    refine .cons ⟨carries_inputOf none, ?_⟩ fun t _ => .nil
    decide
  have htext : hyphenated.text.RoundTrips := Hyphenated.roundTrips
  have hv : (comesBack hyphenated).Legal (bothServed hyphenated) :=
    ⟨carries_inputOf (some (hyphenated.text.display 1)), by decide⟩
  obtain ⟨results, hres, -, hget⟩ :=
    (session_reads_own htext hlegal (run_twoClients hyphenated) hv).1 rfl
  exact ⟨run_twoClients hyphenated, results, hres, hget 0 rfl, hget 2 rfl⟩

end Finchers.Session
