import Finchers.Action

/-!
# Endpoints that read the request headers

`header::parse`, `optional`, `matches` and `raw` look at the first value of a header; none of them
looks at the path.
-/

set_option autoImplicit false

namespace Finchers

/-- `FromHeaderValue`; an error is known by its text. -/
class FromHeaderValue (T : Type) where
  fromHeaderValue : HeaderValue → Except String T

/-- `FromHeaderValue for HeaderValue`. -/
instance : FromHeaderValue HeaderValue where
  fromHeaderValue := .ok

namespace Header

variable {ε : Type}

/-- The request header with the name. -/
def get (cx : PreflightContext) (name : HeaderName) : Option HeaderValue :=
  cx.context.request.headers.get name

/-- `ParseAction`; its state is the name. -/
def ParseAction (T : Type) [FromHeaderValue T] : OneshotAction ε HeaderName [T] where
  preflight name cx :=
    match get cx name with
    | none => .ok (.error (.badRequest ("missing header: `" ++ name ++ "'")), cx.cursor)
    | some h =>
      .ok (((FromHeaderValue.fromHeaderValue h).map HList.single).mapError .badRequest, cx.cursor)

/-- `OptionalAction`. -/
def OptionalAction (T : Type) [FromHeaderValue T] : OneshotAction ε HeaderName [Option T] where
  preflight name cx :=
    match get cx name with
    | some h =>
      .ok (((FromHeaderValue.fromHeaderValue h).map fun x => HList.single (some x)).mapError
        .badRequest, cx.cursor)
    | none => .ok (.ok (.single none), cx.cursor)

/-- `MatchesAction`; `eq` is `PartialEq<HeaderValue>` for the type of the value. -/
def MatchesAction {V : Type} (eq : V → HeaderValue → Bool) :
    OneshotAction ε (HeaderName × V) [] where
  preflight self cx :=
    match get cx self.1 with
    | some v =>
      if eq self.2 v then .ok (.ok (), cx.cursor)
      else .ok (.error (.notFound "invalid header"), cx.cursor)
    | none => .ok (.error (.notFound "invalid header"), cx.cursor)

/-- `RawAction`. -/
def RawAction : OneshotAction ε HeaderName [Option HeaderValue] where
  preflight name cx := .ok (.ok (.single (get cx name)), cx.cursor)

end Header

end Finchers
