import Finchers.Endpoint.Tree
import Finchers.Lib.FixedBuf

/-!
# Handling a request

`AppFuture` drives the action of an endpoint for one request: `pollApply` runs `preflight` at the
first poll and `poll_action` from then on, `poll` turns the result into a response and adds the
`Set-Cookie` headers and the supplemental headers of the context.

`drive` is a run: `pollApply` is called again and again until it is ready or fails, and before
each call the thread may have been used for something else.
-/

set_option autoImplicit false

namespace Finchers

open Resumable

variable {ε Bd Env σ : Type} {ts : List Type}

inductive AppFutureState (σ : Type) where
  | start (action : Option σ)
  | inFlight (action : σ)

structure AppFuture (σ Bd : Type) where
  state : AppFutureState σ
  context : Context
  body : Option Bd

namespace AppFuture

/-- `AppService::dispatch`; `addr` is where the context of the new future lies. -/
def dispatch (e : Endpoint ε Bd Env ts) (addr : Nat) (request : Request) (body : Bd) :
    AppFuture e.Action Bd :=
  ⟨.start (some e.spawn), .new addr request, some body⟩

/-- What `poll_action` works on. -/
def world (fut : AppFuture σ Bd) (th : Thread Env) : World Bd Env := ⟨⟨fut.context, fut.body⟩, th⟩

/-- The `InFlight` branch of `poll_apply`. -/
def pollInFlight (f : EndpointAction ε Bd Env σ ts) (fut : AppFuture σ Bd) (action : σ)
    (th : Thread Env) :
    Traced Panic Event (Poll (Error ε) (HList ts) × AppFuture σ Bd × Thread Env) := do
  let (r, action, w) ← f.pollAction action (fut.world th)
  return (r, ⟨.inFlight action, w.cx.context, w.cx.body⟩, w.thread)

/-- `AppFuture::poll_apply`. -/
def pollApply (f : EndpointAction ε Bd Env σ ts) :
    PollFn Panic Event (Error ε) (AppFuture σ Bd) (Thread Env) (HList ts) := fun fut th =>
  match fut.state with
  | .start none => panicAt .appFutureStart
  | .start (some action) => do
    let (r, action, _) ← f.preflight (.new fut.context) action
    match r with
    | .error e => return (.error e, { fut with state := .start none }, th)
    | .ok (.completed output) => return (.ok (.ready output), { fut with state := .start none }, th)
    | .ok .incomplete => pollInFlight f fut action th
  | .inFlight action => pollInFlight f fut action th

/-- Poll until there is a result, at most once for each element of `gs`; before each poll the
thread is changed by it. -/
def drive (f : EndpointAction ε Bd Env σ ts) : List (Thread Env → Thread Env) → AppFuture σ Bd →
    Thread Env →
    Traced Panic Event (Option (Except (Error ε) (HList ts)) × AppFuture σ Bd × Thread Env)
  | [], fut, th => return (none, fut, th)
  | g :: gs, fut, th => do
    let (r, fut, th) ← pollApply f fut (g th)
    match r with
    | .ok (.ready x) => return (some (.ok x), fut, th)
    | .error e => return (some (.error e), fut, th)
    | .ok .notReady => drive f gs fut th

/-- A run whose `preflight` is incomplete goes on as a run in flight. -/
theorem drive_incomplete {f : EndpointAction ε Bd Env σ ts} {s s' : σ} {context : Context}
    {l : List Event} {c : CursorInner}
    (h : f.preflight (.new context) s = ⟨l, .ok (.ok .incomplete, s', c)⟩)
    (body : Option Bd) (g : Thread Env → Thread Env) (gs : List (Thread Env → Thread Env))
    (th : Thread Env) :
    drive f (g :: gs) ⟨.start (some s), context, body⟩ th =
      (drive f (g :: gs) ⟨.inFlight s', context, body⟩ th).prepend l := by
  simp only [drive, pollApply, h, Traced.mk_ok_bind]
  show (pollInFlight f ⟨.inFlight s', context, body⟩ s' (g th)).prepend l >>= _ = _
  rcases (pollInFlight f ⟨.inFlight s', context, body⟩ s' (g th)).eq_ok_or_error with
    ⟨l', x, hx⟩ | ⟨l', p, hx⟩
  · rw [hx, Traced.prepend_mk, Traced.mk_ok_bind, Traced.mk_ok_bind, Traced.prepend_prepend]
  · rw [hx, Traced.prepend_mk, Traced.mk_error_bind, Traced.mk_error_bind, Traced.prepend_mk]

theorem drive_completed {f : EndpointAction ε Bd Env σ ts} {s s' : σ} {context : Context}
    {l : List Event} {c : CursorInner} {x : HList ts}
    (h : f.preflight (.new context) s = ⟨l, .ok (.ok (.completed x), s', c)⟩)
    (body : Option Bd) (g : Thread Env → Thread Env) (gs : List (Thread Env → Thread Env))
    (th : Thread Env) :
    drive f (g :: gs) ⟨.start (some s), context, body⟩ th =
      ⟨l, .ok (some (.ok x), ⟨.start none, context, body⟩, g th)⟩ := by
  simp [drive, pollApply, h]

theorem drive_failed {f : EndpointAction ε Bd Env σ ts} {s s' : σ} {context : Context}
    {l : List Event} {c : CursorInner} {e : Error ε}
    (h : f.preflight (.new context) s = ⟨l, .ok (.error e, s', c)⟩)
    (body : Option Bd) (g : Thread Env → Thread Env) (gs : List (Thread Env → Thread Env))
    (th : Thread Env) :
    drive f (g :: gs) ⟨.start (some s), context, body⟩ th =
      ⟨l, .ok (some (.error e), ⟨.start none, context, body⟩, g th)⟩ := by
  simp [drive, pollApply, h]

theorem drive_panics {f : EndpointAction ε Bd Env σ ts} {s : σ} {context : Context}
    {l : List Event} {p : Panic}
    (h : f.preflight (.new context) s = ⟨l, .error p⟩)
    (body : Option Bd) (g : Thread Env → Thread Env) (gs : List (Thread Env → Thread Env))
    (th : Thread Env) :
    drive f (g :: gs) ⟨.start (some s), context, body⟩ th = ⟨l, .error p⟩ := by
  simp [drive, pollApply, h]

end AppFuture

/-! ## Responses -/

/-- `encode_cookie`. -/
def encodeCookie (display : CookieDisplay) (cookie : Cookie) : HeaderValue :=
  let estimatedCapacity := Utf8.len cookie.name + Utf8.len cookie.value + 1
  -- `BytesMut` keeps up to 31 bytes inline, so a smaller capacity is rounded up to that
  let value := FixedBuf.empty (if estimatedCapacity ≤ 31 then 31 else estimatedCapacity)
  (value.writeFmt (display.encodedPieces cookie)).2.data

/-- `AppFuture::poll`: one `Set-Cookie` header for each cookie of the delta. -/
def appendCookies (display : CookieDisplay) (context : Context) (headers : HeaderMap) :
    HeaderMap :=
  match context.cookies with
  | some cookies =>
    cookies.delta.foldl
      (fun h cookie => h.append SET_COOKIE (encodeCookie display cookie)) headers
  | none => headers

/-- `AppFuture::poll`: the supplemental headers of the context. -/
def appendResponseHeaders (context : Context) (headers : HeaderMap) : HeaderMap :=
  match context.responseHeaders with
  | some hdrs =>
    hdrs.drain.foldl (fun h e => h.extend (e.2.map (fun value => (e.1, value)))) headers
  | none => headers

def finishHeaders (display : CookieDisplay) (context : Context) (headers : HeaderMap) :
    HeaderMap :=
  appendResponseHeaders context (appendCookies display context headers)

variable [HttpError ε] {B : Type}

/-- The response of the output, or of the error; `intoResponse` is the `IntoResponse` instance of
the output. -/
def baseResponse (intoResponse : HList ts → Request → Response B)
    (r : Except (Error ε) (HList ts)) (request : Request) : Response (String ⊕ B) :=
  match r with
  | .ok output => (intoResponse output request).map .inr
  | .error err => (err.intoResponse request).map .inl

namespace AppFuture

/-- The end of `AppFuture::poll`; the supplemental headers are taken out of the context. -/
def respond (display : CookieDisplay) (intoResponse : HList ts → Request → Response B)
    (r : Except (Error ε) (HList ts)) (fut : AppFuture σ Bd) : Response (String ⊕ B) × AppFuture σ Bd :=
  let response := baseResponse intoResponse r fut.context.request
  ({ response with headers := finishHeaders display fut.context response.headers },
    { fut with context := { fut.context with responseHeaders := none } })

/-- `AppFuture::poll`. -/
def poll (display : CookieDisplay) (intoResponse : HList ts → Request → Response B)
    (f : EndpointAction ε Bd Env σ ts) (fut : AppFuture σ Bd) (th : Thread Env) :
    Traced Panic Event (Async (Response (String ⊕ B)) × AppFuture σ Bd × Thread Env) := do
  let (r, fut, th) ← pollApply f fut th
  match r with
  | .ok .notReady => return (.notReady, fut, th)
  | .ok (.ready output) =>
    let (response, fut) := respond display intoResponse (.ok output : Except (Error ε) (HList ts)) fut
    return (.ready response, fut, th)
  | .error err =>
    let (response, fut) := respond display intoResponse (.error err : Except (Error ε) (HList ts)) fut
    return (.ready response, fut, th)

/-- A run of `AppFuture` up to its response, with the schedule of `drive`. -/
def serve (display : CookieDisplay) (intoResponse : HList ts → Request → Response B)
    (f : EndpointAction ε Bd Env σ ts) :
    List (Thread Env → Thread Env) → AppFuture σ Bd → Thread Env →
    Traced Panic Event (Option (Response (String ⊕ B)) × AppFuture σ Bd × Thread Env)
  | [], fut, th => return (none, fut, th)
  | g :: gs, fut, th => do
    let (r, fut, th) ← poll display intoResponse f fut (g th)
    match r with
    | .ready response => return (some response, fut, th)
    | .notReady => serve display intoResponse f gs fut th

end AppFuture

end Finchers
