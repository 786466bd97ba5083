import Finchers.Cursor
import Finchers.Endpoint.Encoded

/-!
# Endpoints that match the path

`segment(s)` compares the next segment with a constant, `param()` converts it, `remains()`
converts everything that is left of the path, and `eos()` checks that nothing is left.
-/

set_option autoImplicit false

namespace Finchers

variable {ε : Type}

/-- `crate::error::not_found("not matched")`. -/
def notMatched : Error ε := .notFound "not matched"

/-- `UnitAction`. -/
def UnitAction : OneshotAction ε Unit [] where
  preflight _ cx := .ok (.ok (), cx.cursor)

/-- `ValueAction`, of `value(x)`; its state is the value. -/
def ValueAction (T : Type) : OneshotAction ε T [T] where
  preflight x cx := .ok (.ok (.single x), cx.cursor)

/-! ## `eos` -/

/-- `MatchEosAction`: it pops a segment if there is one left. -/
def MatchEosAction : OneshotAction ε Unit [] where
  preflight _ cx := do
    let (s, c) ← Cursor.nextSegment cx.path cx.cursor
    match s with
    | none => return (.ok (), c)
    | some _ => return (.error notMatched, c)

/-! ## `segment` -/

/-- The encode set of `MatchSegment`. -/
def SEGMENT_ENCODE_SET : Percent.EncodeSet := Percent.defaultEncodeSet.with ['/']

/-- `MatchSegment`, and the state of `MatchSegmentAction`: the bytes of the encoded constant. -/
structure MatchSegment where
  encoded : List UInt8

/-- `segment(s)`. -/
def segment (s : Str) : MatchSegment :=
  ⟨Percent.encode SEGMENT_ENCODE_SET (Utf8.bytes s)⟩

/-- `MatchSegmentAction`.  An `EncodedStr` is compared with a `String` byte by byte. -/
def MatchSegmentAction : OneshotAction ε MatchSegment [] where
  preflight self cx := do
    let (s, c) ← Cursor.nextSegment cx.path cx.cursor
    match s with
    | none => return (.error notMatched, c)
    | some s =>
      if Utf8.bytes s = self.encoded then return (.ok (), c)
      else return (.error notMatched, c)

/-! ## `param` and `remains` -/

/-- `ParamAction`. -/
def ParamAction (T : Type) [FromEncodedStr ε T] : OneshotAction ε Unit [T] where
  preflight _ cx := do
    let (s, c) ← Cursor.nextSegment cx.path cx.cursor
    match s with
    | none => return (.error notMatched, c)
    | some s => return ((FromEncodedStr.fromEncodedStr s).map HList.single, c)

/-- `RemainsAction`: the rest of the path is popped whether the conversion succeeds or not. -/
def RemainsAction (T : Type) [FromEncodedStr ε T] : OneshotAction ε Unit [T] where
  preflight _ cx := do
    let remaining ← Cursor.remainingPath cx.path cx.cursor
    let result : Except (Error ε) T := FromEncodedStr.fromEncodedStr remaining
    let (_, c) ← Cursor.count cx.path cx.cursor
    return (result.map HList.single, c)

/-! ## One segment -/

variable {cx : PreflightContext} {raw : Str} {c : CursorInner}

/-- `segment` on a segment that is there. -/
theorem MatchSegmentAction.preflight_eq (m : MatchSegment)
    (h : Cursor.nextSegment cx.path cx.cursor = .ok (some raw, c)) :
    (MatchSegmentAction (ε := ε)).preflight m cx =
      .ok (if Utf8.bytes raw = m.encoded then .ok () else .error notMatched, c) := by
  simp only [MatchSegmentAction, h, bind, Except.bind]
  split <;> rfl

theorem ParamAction.preflight_eq (T : Type) [FromEncodedStr ε T]
    (h : Cursor.nextSegment cx.path cx.cursor = .ok (some raw, c)) :
    (ParamAction (ε := ε) T).preflight () cx =
      .ok ((FromEncodedStr.fromEncodedStr raw).map HList.single, c) := by
  simp only [ParamAction, h, bind, Except.bind]
  rfl

end Finchers
