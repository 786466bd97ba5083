import Finchers.CookieHeader
import Finchers.Session.Clients
import Finchers.Lib.CookieStore

/-!
# Sessions in a cookie

The cookie backend keeps the value of a session in a cookie of the client.  It writes the cookie with
the path and the domain of its configuration, and removes it by a cookie that has only the name.

* `CookieConfig.readValue`, `writeValue`, `removeValue` — what the backend does with the jar;
* `clientStep` — a client with a cookie store: its requests, other cookies it is sent, cookies it drops;
* `session_cookie_written` — where the session cookies of a store come from;
* `gone_iff` — one request that removes its session;
* `session_gone_iff` — **the session is gone after every request of a run that removes it, if and only
  if at each of them all session cookies have the host and the default path of the request, and one
  came with it.**
-/

set_option autoImplicit false

namespace Finchers.Session

open Transition CookieStore

variable {ε : Type}

/-! ## The backend -/

/-- `jar.signed(key)` or `jar.private(key)`: values are sealed when they are added and opened when they
are read; sealing may take a nonce. -/
structure KeyedJar where
  sealValue : Nat → Str → Str → Str
  openValue : Str → Str → Option Str

namespace KeyedJar

variable (key : KeyedJar)

/-- `get`: a cookie that cannot be opened is none. -/
def get (jar : CookieJar) (name : Str) : Option Cookie :=
  (jar.get name).bind fun c => (key.openValue name c.value).map fun value => { c with value := value }

def add (jar : CookieJar) (nonce : Nat) (c : Cookie) : CookieJar :=
  jar.add { c with value := key.sealValue nonce c.name c.value }

def remove (_key : KeyedJar) (jar : CookieJar) (past : Str) (c : Cookie) : CookieJar :=
  jar.remove past c

end KeyedJar

inductive Security where
  | plain
  | signed (key : KeyedJar)
  | priv (key : KeyedJar)

structure CookieConfig where
  security : Security
  name : Str
  path : Str
  secure : Bool
  httpOnly : Bool
  domain : Option Str
  sameSite : Option SameSite
  maxAge : Option Int

/-- `CookieBackend::new`. -/
def CookieConfig.new (security : Security) : CookieConfig where
  security := security
  name := "finchers-session".toList
  path := "/".toList
  domain := none
  sameSite := none
  maxAge := none
  secure := true
  httpOnly := true

namespace CookieConfig

variable (config : CookieConfig)

/-- `CookieConfig::read_value`. -/
def readValue (input : Input ε) : Except (Error ε) (Option Str) := do
  let jar ← input.cookies
  let cookie := match config.security with
    | .plain => jar.get config.name
    | .signed key => key.get jar config.name
    | .priv key => key.get jar config.name
  return cookie.map (·.value)

/-- The cookie that `CookieConfig::write_value` builds. -/
def cookie (value : Str) : Cookie where
  name := config.name
  value := value
  path := some config.path
  secure := some config.secure
  httpOnly := some config.httpOnly
  domain := config.domain
  sameSite := config.sameSite
  maxAge := config.maxAge

/-- `CookieConfig::write_value`. -/
def writeValue (nonce : Nat) (input : Input ε) (value : Str) : Except (Error ε) CookieJar := do
  let jar ← input.cookies
  return match config.security with
    | .plain => jar.add (config.cookie value)
    | .signed key => key.add jar nonce (config.cookie value)
    | .priv key => key.add jar nonce (config.cookie value)

/-- `CookieConfig::remove_value`. -/
def removeValue (past : Str) (input : Input ε) : Except (Error ε) CookieJar := do
  let cookie := Cookie.named config.name
  let jar ← input.cookies
  return match config.security with
    | .plain => jar.remove past cookie
    | .signed key => key.remove jar past cookie
    | .priv key => key.remove jar past cookie

/-- `CookieSession::write_impl`. -/
def writeImpl (past : Str) (nonce : Nat) (value : Option Str) (input : Input ε) :
    Except (Error ε) CookieJar :=
  match value with
  | some value => config.writeValue nonce input value
  | none => config.removeValue past input

end CookieConfig

/-! ## The client -/

/-- A request of the client: where it goes; the error if its cookies cannot be read; what its handler
does and whether what it returns succeeds; a nonce. -/
structure Trip (ε : Type) where
  target : Target
  unreadable : Option (Error ε)
  ops : List Op
  ok : Bool
  nonce : Nat

/-- A cookie of the delta as the client reads it; `Max-Age` decides whether it is expired. -/
def setCookie (c : Cookie) : SetCookie where
  name := c.name
  value := c.value
  domain := c.domain
  path := c.path
  secure := c.secure = some true
  expired := match c.maxAge with
    | some n => n ≤ 0
    | none => false

/-- The jar of a request with these cookies. -/
def jarOf (cookies : List Stored) : CookieJar :=
  cookies.foldl (fun jar d => jar.addOriginal (.new d.name d.value)) .new

/-- What `Input::cookies` gives for a request of a client with this store. -/
def inputOfStore (store : List Stored) (v : Trip ε) : Input ε where
  cookies := match v.unreadable with
    | some err => .error err
    | none => .ok (jarOf (sent store v.target))

/-- One request: the session is read, and `Session::with` calls the handler and writes the session if
what the handler returned succeeds.  A `CookieSession` has no id. -/
def serveTrip (config : CookieConfig) (past : Str) (store : List Stored) (v : Trip ε) :
    Option (List (Option (Option Str))) × Except (Error ε) CookieJar :=
  let input := inputOfStore store v
  match config.readValue input with
  | .error _ => (none, input.cookies)
  | .ok value =>
    let (results, s) := (RawSession.mk none value).ops v.ops
    if v.ok then (some results, config.writeImpl past v.nonce s.value input)
    else (some results, input.cookies)

/-- The client takes over the cookies of a response. -/
def receiveAll (store : List Stored) (t : Target) : Except (Error ε) CookieJar → List Stored
  | .error _ => store
  | .ok jar => jar.delta.foldl (fun store c => receive store t (setCookie c)) store

/-- A step of the client: a request to the backend; a cookie of another name in some other response;
cookies that are dropped, because of their age or for any other reason. -/
inductive ClientStep (ε : Type) where
  | trip (v : Trip ε)
  | other (t : Target) (c : SetCookie)
  | drop (keep : Stored → Bool)

/-- One step of the client. -/
def clientStep (config : CookieConfig) (past : Str) (store : List Stored) :
    ClientStep ε → Option (List Stored)
  | .trip v => some (receiveAll store v.target (serveTrip config past store v).2)
  | .other t c => if c.name = config.name then none else some (receive store t c)
  | .drop keep => some (store.filter keep)

/-! ## The jar of a request -/

theorem jarOf_delta (cookies : List Stored) : (jarOf cookies).deltaCookies = [] := by
  unfold jarOf
  have hkeeps : ∀ jar : CookieJar, (cookies.foldl
      (fun jar d => jar.addOriginal (.new d.name d.value)) jar).deltaCookies = jar.deltaCookies := by
    induction cookies with
    | nil => exact fun _ => rfl
    | cons d ds ih => exact fun jar => ih (jar.addOriginal _)
  exact hkeeps .new

theorem jarOf_hasOriginal (cookies : List Stored) (name : Str) :
    (jarOf cookies).HasOriginal name ↔ ∃ d ∈ cookies, d.name = name := by
  have hfold : ∀ jar : CookieJar, (cookies.foldl
      (fun jar d => jar.addOriginal (.new d.name d.value)) jar).HasOriginal name ↔
        jar.HasOriginal name ∨ ∃ d ∈ cookies, d.name = name := by
    induction cookies with
    | nil => simp
    | cons d ds ih =>
      intro jar
      rw [List.foldl_cons, ih, hasOriginal_addOriginal, List.exists_mem_cons_iff, or_assoc]
      rfl
  have hnew : ¬ CookieJar.new.HasOriginal name := by
    rintro ⟨c, hc, -⟩
    cases hc
  exact (hfold .new).trans (or_iff_right hnew)

theorem hasOriginal_iff {jar : CookieJar} {name : Str} :
    jar.HasOriginal name ↔ jar.originalCookies.any (fun d => d.name == name) = true := by
  simp [CookieJar.HasOriginal]

/-- Without a cookie of the name, nothing is found. -/
theorem jarOf_get {cookies : List Stored} {name : Str} (h : ∀ d ∈ cookies, d.name ≠ name) :
    (jarOf cookies).get name = none := by
  have hnone : ¬ (jarOf cookies).HasOriginal name := by
    rw [jarOf_hasOriginal]
    rintro ⟨d, hd, hname⟩
    exact h d hd hname
  rw [hasOriginal_iff, Bool.not_eq_true, List.any_eq_false] at hnone
  unfold CookieJar.get
  rw [jarOf_delta, List.find?_nil, List.find?_eq_none]
  exact hnone

/-- What is removed from the jar of a request is sent back if it came with the request. -/
theorem delta_remove (cookies : List Stored) (past : Str) {c : Cookie} {name : Str}
    (hname : c.name = name) :
    ((jarOf cookies).remove past c).delta = if ∃ d ∈ cookies, d.name = name then
      [{ c with value := [], maxAge := some 0, expires := some past }] else [] := by
  subst hname
  have horiginal := (jarOf_hasOriginal cookies c.name).symm.trans hasOriginal_iff
  unfold CookieJar.remove
  by_cases h : ∃ d ∈ cookies, d.name = c.name
  · rw [if_pos h, if_pos (horiginal.mp h), CookieJar.replaceDelta, CookieJar.delta, jarOf_delta]
    rfl
  · rw [if_neg h, if_neg fun hany => h (horiginal.mpr hany), CookieJar.delta, jarOf_delta]
    rfl

theorem delta_add (cookies : List Stored) (c : Cookie) : ((jarOf cookies).add c).delta = [c] := by
  rw [CookieJar.add, CookieJar.replaceDelta, CookieJar.delta, jarOf_delta]
  rfl

/-! ## One request -/

section

variable {config : CookieConfig} {past : Str} {store store' : List Stored} {v : Trip ε}

/-- The request succeeds, and the last call of its handler that changes the session removes it. -/
def Trip.Removes (v : Trip ε) : Prop :=
  v.unreadable = none ∧ v.ok = true ∧ (v.ops.filterMap Op.leaves).getLast? = some none

/-- Reading a session does not fail if the cookies can be read. -/
theorem readValue_ok (config : CookieConfig) {input : Input ε} {jar : CookieJar}
    (h : input.cookies = .ok jar) : ∃ value, config.readValue input = .ok value := by
  unfold CookieConfig.readValue
  rw [h]
  exact ⟨_, rfl⟩

/-- A request whose cookies can be read. -/
theorem serveTrip_readable (config : CookieConfig) (past : Str) (store : List Stored)
    (hv : v.unreadable = none) : ∃ value, (serveTrip config past store v).2 =
      if v.ok then config.writeImpl past v.nonce (valueAfter value v.ops) (inputOfStore store v)
      else .ok (jarOf (sent store v.target)) := by
  have hcookies : (inputOfStore store v).cookies = .ok (jarOf (sent store v.target)) := by
    unfold inputOfStore
    rw [hv]
  obtain ⟨value, hread⟩ := readValue_ok config hcookies
  refine ⟨value, ?_⟩
  have hvalue := RawSession.ops_value (RawSession.mk none value) v.ops
  unfold serveTrip
  simp only [hread, hvalue, ← hcookies]
  split <;> rfl

/-- A session without a value is removed, in the same way whether or not its cookie is sealed. -/
theorem writeImpl_none (config : CookieConfig) (past : Str) (nonce : Nat) (store : List Stored)
    (hv : v.unreadable = none) : config.writeImpl past nonce none (inputOfStore store v) =
      .ok ((jarOf (sent store v.target)).remove past (.named config.name)) := by
  unfold CookieConfig.writeImpl CookieConfig.removeValue inputOfStore
  rw [hv]
  cases config.security <;> rfl

/-- The removal of the session, as the client reads it. -/
def CookieConfig.removal (config : CookieConfig) : SetCookie := ⟨config.name, [], none, none, false, true⟩

/-- Removing the session: the client gets the removal if a session cookie came with the request, and no
cookie otherwise. -/
theorem receiveAll_remove (config : CookieConfig) (past : Str) (store : List Stored) (t : Target) :
    receiveAll store t (.ok ((jarOf (sent store t)).remove past (.named config.name)) :
        Except (Error ε) CookieJar) =
      if ∃ d ∈ sent store t, d.name = config.name then receive store t config.removal else store := by
  have hdelta := delta_remove (sent store t) past
    (show (Cookie.named config.name).name = config.name from rfl)
  rw [receiveAll, hdelta]
  by_cases hsent : ∃ d ∈ sent store t, d.name = config.name
  · rw [if_pos hsent, if_pos hsent]
    rfl
  · rw [if_neg hsent, if_neg hsent]
    rfl

/-- A request that removes its session. -/
theorem clientStep_removes (h : v.Removes) : clientStep config past store (.trip v) =
    some (if ∃ d ∈ sent store v.target, d.name = config.name
      then receive store v.target config.removal else store) := by
  obtain ⟨hv, hok, hlast⟩ := h
  obtain ⟨value, hserve⟩ := serveTrip_readable config past store hv
  have hvalue : valueAfter value v.ops = none := by
    rw [valueAfter, hlast]
    rfl
  rw [hok, if_pos rfl, hvalue, writeImpl_none config past v.nonce store hv] at hserve
  simp only [clientStep, hserve, receiveAll_remove]

/-- There is no session cookie in the store, and the next request reads no session. -/
def Gone (config : CookieConfig) (store : List Stored) : Prop :=
  (∀ d ∈ store, d.name ≠ config.name) ∧
    ∀ v : Trip ε, v.unreadable = none → config.readValue (inputOfStore store v) = .ok none

/-- Every session cookie in the store has the host and the default path of the request, and a session
cookie goes with the request. -/
def Covered (config : CookieConfig) (store : List Stored) (t : Target) : Prop :=
  ∀ d ∈ store, d.name = config.name →
    (∃ e ∈ sent store t, e.name = config.name) ∧ d.domain = canonical t.host ∧
      d.path = defaultPath t.path

/-- Without a session cookie in the store, every request reads no session. -/
theorem readValue_none_of_gone (h : ∀ d ∈ store, d.name ≠ config.name)
    (hreadable : v.unreadable = none) : config.readValue (inputOfStore store v) = .ok none := by
  have hget : (jarOf (sent store v.target)).get config.name = none :=
    jarOf_get fun d hd => h d (mem_sent.mp hd).1
  unfold CookieConfig.readValue inputOfStore
  rw [hreadable]
  simp only [bind, Except.bind, KeyedJar.get, hget]
  cases config.security <;> rfl

/-- The session is gone after a request that removes it iff the request covers it. -/
theorem gone_iff (h : v.Removes) (hstep : clientStep config past store (.trip v) = some store') :
    Gone (ε := ε) config store' ↔ Covered config store v.target := by
  have hstored : config.removal.stored v.target = some ⟨config.name, [], canonical v.target.host, true,
      defaultPath v.target.path, false⟩ := stored_hostOnly rfl
  rw [clientStep_removes h] at hstep
  cases hstep
  by_cases hsent : ∃ d ∈ sent store v.target, d.name = config.name
  · rw [if_pos hsent]
    constructor
    · intro hgone d hd hname
      by_contra hnot
      have hkept : d ∈ receive store v.target config.removal := by
        rw [mem_receive_expired rfl hstored]
        refine ⟨hd, Bool.eq_false_iff.mpr fun hsame => hnot ?_⟩
        exact ⟨hsent, (same_iff.mp hsame).2⟩
      exact hgone.1 d hkept hname
    · intro hcovered
      have hnone : ∀ d ∈ receive store v.target config.removal, d.name ≠ config.name := by
        intro d hd hname
        obtain ⟨hd, hdiffers⟩ := (mem_receive_expired rfl hstored).mp hd
        have hsame : d.same ⟨config.name, [], canonical v.target.host, true,
            defaultPath v.target.path, false⟩ = true :=
          same_iff.mpr ⟨hname, (hcovered d hd hname).2⟩
        rw [hsame] at hdiffers
        cases hdiffers
      exact ⟨hnone, fun v' hv' => readValue_none_of_gone hnone hv'⟩
  · rw [if_neg hsent]
    constructor
    · exact fun hgone d hd hname => absurd hname (hgone.1 d hd)
    · intro hcovered
      have hnone : ∀ d ∈ store, d.name ≠ config.name :=
        fun d hd hname => hsent (hcovered d hd hname).1
      exact ⟨hnone, fun v' hv' => readValue_none_of_gone hnone hv'⟩

end

/-! ## Runs -/

section

variable {config : CookieConfig} {past : Str}

/-- What the client stores of a session that is written in the response to `v`. -/
def WrittenBy (config : CookieConfig) (v : Trip ε) (d : Stored) : Prop :=
  ∃ value, (setCookie (config.cookie value)).stored v.target = some d

/-- A response that changes no cookie. -/
theorem receiveAll_jarOf (store : List Stored) (t : Target) (cookies : List Stored) :
    receiveAll store t (.ok (jarOf cookies) : Except (Error ε) CookieJar) = store := by
  rw [receiveAll, CookieJar.delta, jarOf_delta]
  rfl

/-- What a response does to the store: the session cookie may be removed or written. -/
theorem receiveAll_serveTrip (config : CookieConfig) (past : Str) (store : List Stored) (v : Trip ε) :
    receiveAll store v.target (serveTrip config past store v).2 = store ∨
      receiveAll store v.target (serveTrip config past store v).2 =
        receive store v.target config.removal ∨
      ∃ value, receiveAll store v.target (serveTrip config past store v).2 =
        receive store v.target (setCookie (config.cookie value)) := by
  rcases hv : v.unreadable with - | err
  · obtain ⟨value, hserve⟩ := serveTrip_readable config past store hv
    rw [hserve]
    cases v.ok with
    | false => exact Or.inl (receiveAll_jarOf store v.target _)
    | true =>
      rw [if_pos rfl]
      rcases valueAfter value v.ops with - | value
      · rw [writeImpl_none config past v.nonce store hv, receiveAll_remove]
        split
        · exact Or.inr (Or.inl rfl)
        · exact Or.inl rfl
      · -- the session is written; `add` may seal its value
        obtain ⟨sealed, hwrite⟩ : ∃ sealed, config.writeImpl past v.nonce (some value)
            (inputOfStore store v) = .ok ((jarOf (sent store v.target)).add (config.cookie sealed)) := by
          unfold CookieConfig.writeImpl CookieConfig.writeValue inputOfStore
          rw [hv]
          cases config.security with
          | plain => exact ⟨value, rfl⟩
          | signed key => exact ⟨key.sealValue v.nonce config.name value, rfl⟩
          | priv key => exact ⟨key.sealValue v.nonce config.name value, rfl⟩
        rw [hwrite, receiveAll, delta_add]
        exact Or.inr (Or.inr ⟨sealed, rfl⟩)
  · refine Or.inl ?_
    unfold serveTrip CookieConfig.readValue inputOfStore
    rw [hv]
    rfl

/-- A session cookie in the store was there before, or is written by this request. -/
theorem written_of_step {store store' : List Stored} {st : ClientStep ε}
    (h : clientStep config past store st = some store') {d : Stored} (hd : d ∈ store')
    (hname : d.name = config.name) : d ∈ store ∨ ∃ v, st = .trip v ∧ WrittenBy config v d := by
  cases st with
  | trip v =>
    cases h
    rcases receiveAll_serveTrip config past store v with heq | heq | ⟨value, heq⟩
    · rw [heq] at hd
      exact Or.inl hd
    · rw [heq] at hd
      rcases mem_receive hd with hd | ⟨hc, -⟩
      · exact Or.inl hd
      · cases hc
    · rw [heq] at hd
      rcases mem_receive hd with hd | ⟨-, hd⟩
      · exact Or.inl hd
      · exact Or.inr ⟨v, rfl, value, hd⟩
  | other t c =>
    simp only [clientStep] at h
    split at h
    · cases h
    · next hother =>
      cases h
      rcases mem_receive hd with hd | ⟨-, hd⟩
      · exact Or.inl hd
      · exact absurd ((name_of_stored hd).symm.trans hname) hother
  | drop keep =>
    cases h
    exact Or.inl (List.mem_filter.mp hd).1

/-- **Where the session cookies of a client come from:** each of them was written in the response to a
request of the run, with the domain and the path that the configuration and this request give. -/
theorem session_cookie_written {steps : List (ClientStep ε)} {store : List Stored}
    (hrun : run (clientStep config past) [] steps = some store) {d : Stored} (hd : d ∈ store)
    (hname : d.name = config.name) : ∃ v, .trip v ∈ steps ∧ WrittenBy config v d := by
  have hwritten : ∀ {start : List Stored}, run (clientStep config past) start steps = some store →
      d ∈ start ∨ ∃ v, .trip v ∈ steps ∧ WrittenBy config v d := by
    clear hrun
    induction steps with
    | nil =>
      intro start hrun
      cases hrun
      exact Or.inl hd
    | cons st steps ih =>
      intro start hrun
      obtain ⟨next, hstep, hrun⟩ := run_cons.mp hrun
      rcases ih hrun with hnext | ⟨v, hv, hw⟩
      · rcases written_of_step hstep hnext hname with hstart | ⟨v, rfl, hw⟩
        · exact Or.inl hstart
        · exact Or.inr ⟨v, List.mem_cons_self, hw⟩
      · exact Or.inr ⟨v, List.mem_cons_of_mem st hv, hw⟩
  exact (hwritten hrun).resolve_left List.not_mem_nil

/-- **When a removed session is gone:** after every request of a run that removes the session, there is
no session cookie left and the next request reads none, if and only if each such request covers all
session cookies that the client has then. -/
theorem session_gone_iff (config : CookieConfig) (past : Str) (steps : List (ClientStep ε)) :
    Meets (clientStep config past) (fun store st => ∀ v store', st = .trip v → v.Removes →
        clientStep config past store st = some store' → Gone (ε := ε) config store') [] steps ↔
      Meets (clientStep config past) (fun store st => ∀ v, st = .trip v → v.Removes →
        Covered config store v.target) [] steps := by
  constructor
  · intro h pre st post store heq hrun v hst hremoves
    subst hst
    have hstep : clientStep config past store (.trip v) = some _ := clientStep_removes hremoves
    exact (gone_iff hremoves hstep).mp (h pre _ post store heq hrun v _ rfl hremoves hstep)
  · intro h pre st post store heq hrun v store' hst hremoves hstep
    subst hst
    exact (gone_iff hremoves hstep).mpr (h pre _ post store heq hrun v rfl hremoves)

end

/-- The host `h`, over a secure connection. -/
def atPath (path : String) : Target := ⟨"h".toList, false, path.toList, true⟩

/-- A request below `/a` sets the session, another one there removes it. -/
def setAndRemove : List (ClientStep Empty) :=
  [.trip ⟨atPath "/a/b", none, [.call (.set "x".toList)], true, 0⟩,
    .trip ⟨atPath "/a/b", none, [.call .remove], true, 0⟩]

/-- With the default configuration the session cookie has the path `/` and is not removed: the next
request still reads the session. -/
theorem session_not_gone : ∃ store,
    run (clientStep (.new .plain) []) [] setAndRemove = some store ∧
      ¬ Gone (ε := Empty) (.new .plain) store := by
  refine ⟨[⟨"finchers-session".toList, "x".toList, "h".toList, true, "/".toList, true⟩], rfl,
    fun hgone => ?_⟩
  exact hgone.1 _ List.mem_cons_self rfl

end Finchers.Session
