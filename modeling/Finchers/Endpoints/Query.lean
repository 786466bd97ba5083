import Finchers.Action

/-!
# Endpoints that read the query string

`query::required` and `optional` deserialize the query of the request target, `raw` hands it out;
none of them looks at the path.  `fromStr` stands for `serde_qs::from_str`.
-/

set_option autoImplicit false

namespace Finchers.Query

variable {ε T : Type}

/-- `RequiredAction`. -/
def RequiredAction (fromStr : Str → Except String T) : OneshotAction ε Unit [T] where
  preflight _ cx :=
    match cx.context.request.uri.query with
    | none => .ok (.error (.badRequest "missing query"), cx.cursor)
    | some query => .ok (((fromStr query).map HList.single).mapError .badRequest, cx.cursor)

/-- `OptionalAction`. -/
def OptionalAction (fromStr : Str → Except String T) : OneshotAction ε Unit [Option T] where
  preflight _ cx :=
    match cx.context.request.uri.query with
    | some query =>
      .ok (((fromStr query).map fun x => HList.single (some x)).mapError .badRequest, cx.cursor)
    | none => .ok (.ok (.single none), cx.cursor)

/-- `RawAction`. -/
def RawAction : OneshotAction ε Unit [Option Str] where
  preflight _ cx := .ok (.ok (.single cx.context.request.uri.query), cx.cursor)

end Finchers.Query
