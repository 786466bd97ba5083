import Finchers.Action

/-!
# The WebSocket handshake

* `handshake` — what is checked of a request, and the hash that answers it;
* `WsAction` — the action that answers and hands the body over to a task;
* `handshake_ok_iff` — what a request that is accepted looks like;
* `WsAction.ready` — the action answers with the hash.
-/

set_option autoImplicit false

namespace Finchers.Tungstenite

open Resumable

def CONNECTION : HeaderName := "connection"

def UPGRADE : HeaderName := "upgrade"

def SEC_WEBSOCKET_VERSION : HeaderName := "sec-websocket-version"

def SEC_WEBSOCKET_KEY : HeaderName := "sec-websocket-key"

def SEC_WEBSOCKET_ACCEPT : HeaderName := "sec-websocket-accept"

/-- The bytes of a text. -/
def text (s : String) : HeaderValue := Utf8.bytes s.toList

def GUID : List UInt8 := text "258EAFA5-E914-47DA-95CA-C5AB0DC85B11"

/-- The base64 crate and SHA-1.  A comma is not in the alphabet of base64. -/
structure Digests where
  decode : HeaderValue → Option (List UInt8)
  encode : List UInt8 → HeaderValue
  sha1 : List UInt8 → List UInt8
  not_comma : ∀ {s d}, decode s = some d → 44 ∉ s

/-! ## `handshake` -/

/-- `HandshakeErrorKind`. -/
inductive HandshakeErrorKind where
  | missingHeader (name : String)
  | invalidHeader (name : String)
  | invalidSecWebSocketKey
  | invalidSecWebSocketVersion
  deriving DecidableEq, Repr

/-- `Display for HandshakeErrorKind`. -/
def HandshakeErrorKind.display : HandshakeErrorKind → String
  | .missingHeader name => "missing header: `" ++ name ++ "'"
  | .invalidHeader name => "The header value is invalid: `" ++ name ++ "'"
  | .invalidSecWebSocketKey => "The value of `Sec-WebSocket-Key` is invalid"
  | .invalidSecWebSocketVersion => "The value of `Sec-WebSocket-Version` must be equal to '13'"

/-- `HttpError for HandshakeError`. -/
def HandshakeErrorKind.error {ε : Type} (kind : HandshakeErrorKind) : Error ε :=
  .badRequest ("handshake error: " ++ kind.display)

structure Accept where
  hash : HeaderValue

/-- A header that has to be there. -/
def header (request : Request) (header : HeaderName) (name : String) :
    Except HandshakeErrorKind HeaderValue :=
  match request.headers.get header with
  | some h => .ok h
  | none => .error (.missingHeader name)

/-- The headers of a handshake are checked one after the other. -/
def handshake (x : Digests) (request : Request) : Except HandshakeErrorKind Accept := do
  let h ← header request CONNECTION "Connection"
  if h ≠ text "Upgrade" ∧ h ≠ text "upgrade" then .error (.invalidHeader "Connection")
  else do
    let h ← header request UPGRADE "Upgrade"
    if h ≠ text "Websocket" ∧ h ≠ text "websocket" then .error (.invalidHeader "Upgrade")
    else do
      let h ← header request SEC_WEBSOCKET_VERSION "Sec-WebSocket-Version"
      if h ≠ text "13" then .error .invalidSecWebSocketVersion
      else do
        let h ← header request SEC_WEBSOCKET_KEY "Sec-WebSocket-Key"
        match x.decode h with
        | none => .error .invalidSecWebSocketKey
        | some decoded =>
          if decoded.length ≠ 16 then .error .invalidSecWebSocketKey
          else return ⟨x.encode (x.sha1 (h ++ GUID))⟩

/-- The first lines of `Connection` and `Upgrade` are spelled as `handshake` compares them. -/
structure Spelled (request : Request) : Prop where
  connection : request.headers.get CONNECTION = some (text "Upgrade") ∨
    request.headers.get CONNECTION = some (text "upgrade")
  upgrade : request.headers.get UPGRADE = some (text "Websocket") ∨
    request.headers.get UPGRADE = some (text "websocket")

/-- The first line of `Sec-WebSocket-Version` is right, and that of `Sec-WebSocket-Key` is `key`, a
key of 16 bytes. -/
structure Keyed (x : Digests) (request : Request) (key : HeaderValue) : Prop where
  version : request.headers.get SEC_WEBSOCKET_VERSION = some (text "13")
  first : request.headers.get SEC_WEBSOCKET_KEY = some key
  length : ∃ d, x.decode key = some d ∧ d.length = 16

theorem header_eq_ok_iff {request : Request} {name : HeaderName} {shown : String}
    {h : HeaderValue} : header request name shown = .ok h ↔ request.headers.get name = some h := by
  unfold header
  cases request.headers.get name with
  | none => simp
  | some h' => simp

/-- A check between two spellings. -/
theorem spelling_iff {α : Type} {h a b : HeaderValue} {e : HandshakeErrorKind}
    {r : Except HandshakeErrorKind α} {y : α} :
    (if h ≠ a ∧ h ≠ b then .error e else r) = .ok y ↔ (h = a ∨ h = b) ∧ r = .ok y := by
  by_cases ha : h = a
  · simp [ha]
  · by_cases hb : h = b
    · simp [hb]
    · simp [ha, hb]

/-- The check of the key. -/
theorem key_iff {x : Digests} {key : HeaderValue} {accept : Accept} :
    (match x.decode key with
      | none => .error .invalidSecWebSocketKey
      | some decoded =>
        if decoded.length ≠ 16 then .error .invalidSecWebSocketKey
        else .ok ⟨x.encode (x.sha1 (key ++ GUID))⟩ : Except HandshakeErrorKind Accept) = .ok accept ↔
      (∃ d, x.decode key = some d ∧ d.length = 16) ∧
        accept.hash = x.encode (x.sha1 (key ++ GUID)) := by
  cases hd : x.decode key with
  | none => simp
  | some d =>
    obtain ⟨hash⟩ := accept
    by_cases hlen : d.length = 16
    · simp [hlen, eq_comm]
    · simp [hlen]

/-- **What a request that is accepted looks like.** -/
theorem handshake_ok_iff {x : Digests} {request : Request} {accept : Accept} :
    handshake x request = .ok accept ↔
      Spelled request ∧ ∃ key, Keyed x request key ∧ accept.hash = x.encode (x.sha1 (key ++ GUID)) := by
  unfold handshake
  simp only [bind_eq_ok_iff, spelling_iff, header_eq_ok_iff]
  constructor
  · rintro ⟨connection, hconnection, hc, upgrade, hupgrade, hu, version, hversion, h⟩
    split at h
    · cases h
    rename_i h13
    obtain ⟨key, hkey, h⟩ := bind_eq_ok_iff.mp h
    obtain ⟨hlength, hhash⟩ := key_iff.mp h
    refine ⟨⟨?_, ?_⟩, key, ⟨?_, header_eq_ok_iff.mp hkey, hlength⟩, hhash⟩
    · rw [hconnection]
      exact hc.imp (congrArg some) (congrArg some)
    · rw [hupgrade]
      exact hu.imp (congrArg some) (congrArg some)
    · rw [hversion, not_not.mp h13]
  · rintro ⟨⟨hconnection, hupgrade⟩, key, ⟨hversion, hkey, hlength⟩, hhash⟩
    have hspelled : ∀ {o : Option HeaderValue} {a b : HeaderValue}, o = some a ∨ o = some b →
        ∃ h, o = some h ∧ (h = a ∨ h = b) := by
      rintro o a b (h | h)
      · exact ⟨a, h, Or.inl rfl⟩
      · exact ⟨b, h, Or.inr rfl⟩
    obtain ⟨connection, hconnection, hc⟩ := hspelled hconnection
    obtain ⟨upgrade, hupgrade, hu⟩ := hspelled hupgrade
    refine ⟨connection, hconnection, hc, upgrade, hupgrade, hu, _, hversion, ?_⟩
    rw [if_neg (not_not_intro rfl)]
    exact bind_eq_ok_iff.mpr ⟨key, header_eq_ok_iff.mpr hkey, key_iff.mpr ⟨hlength, hhash⟩⟩

/-! ## The action -/

variable {ε Bd Env F : Type}

/-- `WsAction`; its state is `on_upgrade`, and `spawn` hands the upgraded body to a task. -/
def WsAction (x : Digests) (spawn : Bd → F → Env → Except String Unit × Env) :
    LeafAction ε Bd Env (Option F) [Response String] where
  preflight cx s := .ok (.ok .incomplete, s, cx.cursor)
  pollAction s w :=
    match handshake x w.cx.context.request with
    | .error kind => .ok (.error kind.error, s, w)
    | .ok accept =>
      match s with
      | none => .error (.user "the action has already been polled")
      | some onUpgrade =>
        match w.cx.takeBody with
        | (.error err, cx) => .ok (.error err, none, { w with cx := cx })
        | (.ok body, cx) =>
          match spawn body onUpgrade w.thread.env with
          | (.error msg, env) =>
            .ok (.error (.internalServerError msg), none,
              { cx := cx, thread := { w.thread with env := env } })
          | (.ok (), env) =>
            .ok (.ok (.ready (HList.single ⟨101,
                [(CONNECTION, text "upgrade"), (UPGRADE, text "websocket"),
                  (SEC_WEBSOCKET_ACCEPT, accept.hash)], ""⟩)), none,
              { cx := cx, thread := { w.thread with env := env } })
  keeps := by
    intro s w r s' w' h
    rcases w with ⟨⟨context, _ | body⟩, thread⟩
    · split at h
      · cases h
        exact ⟨rfl, rfl⟩
      · cases s with
        | none => cases h
        | some onUpgrade =>
          cases h
          exact ⟨rfl, rfl⟩
    · split at h
      · cases h
        exact ⟨rfl, rfl⟩
      · cases s with
        | none => cases h
        | some onUpgrade =>
          dsimp only [ActionContext.takeBody] at h
          split at h <;> cases h <;> exact ⟨rfl, rfl⟩
  notPutBack := by
    intro s w r s' w' h hbody
    rcases w with ⟨⟨context, _ | body⟩, thread⟩
    · split at h
      · cases h
        exact hbody
      · cases s with
        | none => cases h
        | some onUpgrade =>
          cases h
          exact hbody
    · rfl

/-- **The action answers with the hash of an accepted request**, and with nothing else. -/
theorem WsAction.ready {x : Digests} {spawn : Bd → F → Env → Except String Unit × Env}
    {s s' : Option F} {w w' : World Bd Env} {response : HList [Response String]}
    (h : (WsAction (ε := ε) x spawn).pollAction s w = .ok (.ok (.ready response), s', w')) :
    ∃ accept, handshake x w.cx.context.request = .ok accept ∧
      response.head.status = 101 ∧
      response.head.headers.get SEC_WEBSOCKET_ACCEPT = some accept.hash := by
  unfold WsAction at h
  dsimp only at h
  cases hok : handshake x w.cx.context.request with
  | error kind =>
    rw [hok] at h
    cases h
  | ok accept =>
    rw [hok] at h
    refine ⟨accept, rfl, ?_⟩
    rcases w with ⟨⟨context, _ | body⟩, thread⟩
    · cases s with
      | none => cases h
      | some onUpgrade => cases h
    · cases s with
      | none => cases h
      | some onUpgrade =>
        dsimp only [ActionContext.takeBody] at h
        split at h
        · cases h
        · cases h
          exact ⟨rfl, rfl⟩

end Finchers.Tungstenite
