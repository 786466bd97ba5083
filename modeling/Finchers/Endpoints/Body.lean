import Finchers.Endpoint.Encoded
import Finchers.Action

/-!
# Endpoints that read the request body

A body is a stream of buffers, whose answers to `poll_buf` come one after the other; each buffer
shows its bytes a piece at a time.

* `Buf`, `BodyStream` — a buffer with the piece it shows, a stream with its answers;
* `ReceiveAllState`, `pollReceiveAll` — the state machine that receives the whole body;
* `RawAction` — the action that takes the body as it is;
* `ReceiveAllAction`, `TextAction`, `JsonAction`, `UrlencodedAction` — the actions that read what has
  been received.
-/

set_option autoImplicit false

namespace Finchers

open Resumable

/-! ## Streams -/

/-- A `Buf`: the bytes that `bytes` shows, and those after them.  Nothing is shown only if nothing
is left. -/
structure Buf where
  bytes : List UInt8
  rest : List UInt8
  shows : bytes = [] → rest = []

/-- All bytes that are left, `remaining` of them. -/
def Buf.contents (d : Buf) : List UInt8 := d.bytes ++ d.rest

/-- The bytes are all in one piece. -/
def Buf.Contiguous (d : Buf) : Prop := d.bytes.length = d.contents.length

/-- An answer of `poll_buf`; an error is known by its text. -/
inductive Answer where
  | item (data : Buf)
  | notReady
  | error (msg : String)

/-- A `BufStream`, by the answers it will give; it has ended when there are no more. -/
abbrev BodyStream := List Answer

/-! ## `receive_all` -/

/-- The state of `ReceiveAllAction`. -/
inductive ReceiveAllState where
  | start
  | receiving (body : BodyStream) (buf : List UInt8)

variable {ε Env T : Type}

/-- The inner loop of `ReceiveAllAction::poll_action`. -/
def receiveData : BodyStream → List UInt8 → Poll (Error ε) (List UInt8) × ReceiveAllState
  | [], buf => (.ok (.ready buf), .receiving [] [])
  | .item data :: body, buf => receiveData body (buf ++ data.bytes)
  | .notReady :: body, buf => (.ok .notReady, .receiving body buf)
  -- a `failure::Error` has the status of an internal error
  | .error msg :: body, buf => (.error (.internalServerError msg), .receiving body buf)

/-- `ReceiveAllAction::poll_action`. -/
def pollReceiveAll (s : ReceiveAllState) (cx : ActionContext BodyStream) :
    Poll (Error ε) (List UInt8) × ReceiveAllState × ActionContext BodyStream :=
  match s with
  | .start =>
    match cx.takeBody with
    | (.ok payload, cx) =>
      let (r, s) := receiveData payload []
      (r, s, cx)
    | (.error err, cx) => (.error err, .start, cx)
  | .receiving body buf =>
    let (r, s) := receiveData body buf
    (r, s, cx)

theorem pollReceiveAll_context (s : ReceiveAllState) (cx : ActionContext BodyStream) :
    (pollReceiveAll (ε := ε) s cx).2.2.context = cx.context := by
  cases s with
  | start =>
    rcases cx with ⟨context, _ | body⟩
    · rfl
    · rfl
  | receiving body buf => rfl

theorem pollReceiveAll_notPutBack (s : ReceiveAllState) (cx : ActionContext BodyStream) :
    (pollReceiveAll (ε := ε) s cx).2.2.body.isSome = true → cx.body.isSome = true := by
  cases s with
  | start =>
    rcases cx with ⟨context, _ | body⟩
    · exact id
    · exact fun _ => rfl
  | receiving body buf => exact id

/-! ## The actions -/

/-- The answer of `poll_action`, from what `receive_all` answers: not before everything has been
received is it read. -/
def readPoll (read : List UInt8 → Except (Error ε) T) :
    Poll (Error ε) (List UInt8) → Poll (Error ε) (HList [T])
  | .ok (.ready data) => .ofResult ((read data).map HList.single)
  | .ok .notReady => .ok .notReady
  | .error err => .error err

/-- An action that checks the request, and reads its body when that has been received. -/
def bodyAction (check : Request → Except (Error ε) Unit)
    (read : List UInt8 → Except (Error ε) T) :
    LeafAction ε BodyStream Env ReceiveAllState [T] where
  preflight cx s := .ok ((check cx.context.request).map fun _ => .incomplete, s, cx.cursor)
  pollAction s w :=
    let (r, s', cx) := pollReceiveAll s w.cx
    .ok (readPoll read r, s', { w with cx := cx })
  keeps := by
    intro s w r s' w' h
    cases h
    exact ⟨rfl, congrArg Context.addr (pollReceiveAll_context s w.cx)⟩
  notPutBack := by
    intro s w r s' w' h
    cases h
    exact pollReceiveAll_notPutBack s w.cx

/-- `RawAction`: the body itself is the output, whatever it is. -/
def RawAction (Bd : Type) : LeafAction ε Bd Env Unit [Bd] where
  preflight cx s := .ok (.ok .incomplete, s, cx.cursor)
  pollAction s w :=
    let (r, cx) := w.cx.takeBody
    .ok (.ofResult (r.map HList.single), s, { w with cx := cx })
  keeps := by
    intro s w r s' w' h
    cases h
    rcases w with ⟨⟨context, _ | body⟩, thread⟩
    · exact ⟨rfl, rfl⟩
    · exact ⟨rfl, rfl⟩
  notPutBack := by
    intro s w r s' w' h
    cases h
    rcases w with ⟨⟨context, _ | body⟩, thread⟩
    · exact id
    · exact fun _ => rfl

/-- `ReceiveAllAction`: there is nothing to do in `preflight`. -/
def ReceiveAllAction : LeafAction ε BodyStream Env ReceiveAllState [List UInt8] :=
  bodyAction (fun _ => .ok ()) .ok

/-- What other libraries do: `HeaderValue::to_str`, the media types of the mime crate, and the
deserializers of serde for values of `J` and `Q`. -/
structure BodyReaders (J Q : Type) where
  toStr : HeaderValue → Except String Str
  Mime : Type
  parseMime : Str → Except String Mime
  /-- The parameter of a media type, compared with a text. -/
  paramEq : Mime → String → Option (String → Bool)
  isJson : Mime → Bool
  isForm : Mime → Bool
  fromJsonSlice : List UInt8 → Except String J
  fromQueryStr : Str → Except String Q

section

variable {J Q : Type} (x : BodyReaders J Q)

/-- `content_type`. -/
def contentType (request : Request) : Except (Error ε) (Option x.Mime) :=
  match request.headers.get CONTENT_TYPE with
  | some h => do
    let s ← (x.toStr h).mapError .badRequest
    let mime ← (x.parseMime s).mapError .badRequest
    return some mime
  | none => return none

/-- `TextAction::preflight`. -/
def checkCharset (request : Request) : Except (Error ε) Unit := do
  match (← contentType x request).bind fun m => x.paramEq m "charset" with
  | some param =>
    if ¬ param "utf-8" then throw (.badRequest "Only the UTF-8 charset is supported.")
    return ()
  | none => return ()

/-- The check of a media type that has to be there. -/
def checkMime (expected : x.Mime → Bool) (msg : String) (request : Request) :
    Except (Error ε) Unit := do
  match ← contentType x request with
  | none => throw (.badRequest "missing content type")
  | some mime => if ¬ expected mime then throw (.badRequest msg)

/-- `TextAction`. -/
def TextAction : LeafAction ε BodyStream Env ReceiveAllState [Str] :=
  bodyAction (checkCharset x) fun data =>
    (Utf8.decode data).mapError fun err => .badRequest (displayUtf8Error err)

/-- `JsonAction`. -/
def JsonAction : LeafAction ε BodyStream Env ReceiveAllState [J] :=
  bodyAction (checkMime x x.isJson "The value of `Content-type` must be `application/json`.")
    fun data => (x.fromJsonSlice data).mapError .badRequest

/-- `UrlencodedAction`. -/
def UrlencodedAction : LeafAction ε BodyStream Env ReceiveAllState [Q] :=
  bodyAction
    (checkMime x x.isForm
      "The value of `Content-type` must be `application-x-www-form-urlencoded`.")
    fun data => do
      let s ← (Utf8.decode data).mapError fun err => .badRequest (displayUtf8Error err)
      (x.fromQueryStr s).mapError .badRequest

end

end Finchers
