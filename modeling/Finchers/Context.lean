import Finchers.Cookie
import Finchers.Error

/-!
# The request context and the thread it is handled on

`Context` holds what the handling of one request works on.  While a future of the application
is polled, a thread-local slot can give it access to the context; `Thread` is the state of a
thread: that slot, and everything else (`env`) that polled code may touch.

A context moves into the slot for the time of a `Context.set` and out of it again, as the
mutable reference behind the slot does.  `addr` is the address of the context, which does not
change while its request is handled: it tells one context from another.
-/

set_option autoImplicit false

namespace Finchers

structure Context where
  addr : Nat
  request : Request
  cookies : Option CookieJar
  responseHeaders : Option HeaderMap

/-- `Context::new`. -/
def Context.new (addr : Nat) (request : Request) : Context := ⟨addr, request, none, none⟩

structure Thread (Env : Type) where
  tlsCx : Option Context
  env : Env

/-- The address in the thread-local slot. -/
def Thread.slot {Env : Type} (th : Thread Env) : Option Nat := th.tlsCx.map (·.addr)

/-- `Context::set` (`set_task_cx`): run `f` with the context in the slot, then put back what the
slot held before. -/
def Context.set {Env R : Type} (cx : Context) (th : Thread Env)
    (f : Thread Env → R × Thread Env) : R × Context × Thread Env :=
  let (r, th') := f { th with tlsCx := some cx }
  (r, th'.tlsCx.getD cx, { th' with tlsCx := th.tlsCx })

end Finchers
