import Finchers.Endpoint.Syntax
import Finchers.Endpoint.Tree

/-!
# `ExtractPath`

The derive macro parses a path literal into components and generates one `extract` for all of
them; the same components can be matched by a chain of `segment`, `param` and `remains`.

* `parsePath` — `parse_path`; `parsePath_ok` — what an accepted literal looks like;
* `extract` — the code that is generated, and `path` the endpoint that calls it;
* `chain` — the endpoints of the components, joined by `and`.
-/

set_option autoImplicit false

namespace Finchers

variable {ε : Type}

/-- The types that may stand in a path literal: how `syn` reads them, and how their values are made
of percent-encoded strings. -/
structure PathTypes (ε : Type) where
  Ty : Type
  parseStr : Str → Except String Ty
  Value : Ty → Type
  fromEncodedStr : (ty : Ty) → Str → Except (Error ε) (Value ty)

instance (T : PathTypes ε) (ty : T.Ty) : FromEncodedStr ε (T.Value ty) where
  fromEncodedStr := T.fromEncodedStr ty

inductive Component (Ty : Type) where
  | static (s : Str)
  | singleParam (ty : Ty)
  | catchAllParam (ty : Ty)

/-! ## `parse_path` -/

/-- The loop of `parse_path`, over the segments of the literal. -/
def parseSegments (T : PathTypes ε) : List Str → Except String (List (Component T.Ty))
  | [] => .ok []
  | segment :: rest =>
    if segment = [] then
      if rest ≠ [] then .error "a path segment must not be empty" else .ok []
    else if segment.head? = some '<' then
      if segment.getLast? ≠ some '>' then
        .error "a segment that extracts a parameter must be end with '>'"
      else if ¬ segment.all (fun c => c.toNat < 128) then
        .error "non-ascii character(s) in the parameter position"
      else
        let tyStr := segment.tail.dropLast
        if ['.', '.'].isPrefixOf tyStr then
          match T.parseStr (tyStr.drop 2) with
          | .error e => .error e
          | .ok ty =>
            if rest ≠ [] then .error "the catch-all parameter must be at the end of path"
            else .ok [.catchAllParam ty]
        else
          match T.parseStr tyStr with
          | .error e => .error e
          | .ok ty => (parseSegments T rest).map (.singleParam ty :: ·)
    else (parseSegments T rest).map (.static segment :: ·)

/-- `parse_path`. -/
def parsePath (T : PathTypes ε) (s : Str) : Except String (List (Component T.Ty)) :=
  let s := s.trim
  if s = [] then .error "the path literal must not be empty"
  else if s.head? ≠ some '/' then .error "the path literal must start with a slash"
  else if s = ['/'] then .ok []
  else parseSegments T ((s.splitOn '/').drop 1)

/-! ## Outputs -/

namespace Component

variable {T : PathTypes ε}

/-- The types of the values that a component extracts. -/
def outputs : Component T.Ty → List Type
  | .static _ => []
  | .singleParam ty => [T.Value ty]
  | .catchAllParam ty => [T.Value ty]

/-- The types of the values, after those that have been extracted already. -/
def outputTypes : List Type → List (Component T.Ty) → List Type
  | ts, [] => ts
  | ts, c :: cs => outputTypes (ts ++ c.outputs) cs

end Component

open Component

/-! ## The generated `extract` -/

/-- The statements that are generated for the components; `xs` are the values bound so far. -/
def extractFrom (T : PathTypes ε) : {ts : List Type} → HList ts → (cs : List (Component T.Ty)) →
    PreflightContext →
    Except ActionPanic (Except (Error ε) (HList (outputTypes ts cs)) × CursorInner)
  | _, xs, [], cx => .ok (.ok xs, cx.cursor)
  | _, xs, .static t :: cs, cx => do
    let (s, c) ← Cursor.nextSegment cx.path cx.cursor
    match s with
    | some s =>
      if Utf8.bytes s = Utf8.bytes t then
        extractFrom T (xs.combine HList.nil) cs { cx with cursor := c }
      else return (.error notMatched, c)
    | none => return (.error notMatched, c)
  | _, xs, .singleParam ty :: cs, cx => do
    let (s, c) ← Cursor.nextSegment cx.path cx.cursor
    match s with
    | some s =>
      match T.fromEncodedStr ty s with
      | .ok x => extractFrom T (xs.combine (HList.single x)) cs { cx with cursor := c }
      | .error e => return (.error e, c)
    | none => return (.error notMatched, c)
  | _, xs, .catchAllParam ty :: cs, cx => do
    let remaining ← Cursor.remainingPath cx.path cx.cursor
    let result := T.fromEncodedStr ty remaining
    let (_, c) ← Cursor.count cx.path cx.cursor
    match result with
    | .ok x => extractFrom T (xs.combine (HList.single x)) cs { cx with cursor := c }
    | .error e => return (.error e, c)

/-- `ExtractPath::extract`. -/
def extract (T : PathTypes ε) (cs : List (Component T.Ty)) (cx : PreflightContext) :
    Except ActionPanic (Except (Error ε) (HList (outputTypes [] cs)) × CursorInner) :=
  extractFrom T HList.nil cs cx

/-- `PathAction`. -/
def PathAction (T : PathTypes ε) (cs : List (Component T.Ty)) :
    OneshotAction ε Unit (outputTypes [] cs) where
  preflight _ cx := extract T cs cx

/-! ## Endpoints -/

variable {Bd Env : Type}

/-- `path::<T>()`, for the `T` derived from the components. -/
def path (T : PathTypes ε) (cs : List (Component T.Ty)) : Endpoint ε Bd Env (outputTypes [] cs) :=
  .oneshot Unit (PathAction T cs) ()

/-- The endpoint of a component. -/
def Component.endpoint {T : PathTypes ε} : (c : Component T.Ty) → Endpoint ε Bd Env c.outputs
  | .static t => .oneshot MatchSegment MatchSegmentAction (segment t)
  | .singleParam ty => .oneshot Unit (ParamAction (T.Value ty)) ()
  | .catchAllParam ty => .oneshot Unit (RemainsAction (T.Value ty)) ()

/-- `e.and(c1).and(c2)…`. -/
def chainFrom {T : PathTypes ε} : {ts : List Type} → Endpoint ε Bd Env ts →
    (cs : List (Component T.Ty)) → Endpoint ε Bd Env (outputTypes ts cs)
  | _, e, [] => e
  | _, e, c :: cs => chainFrom (.and e c.endpoint) cs

/-- The `and` chain of the components; `unit()` if there is none. -/
def chain (T : PathTypes ε) : (cs : List (Component T.Ty)) →
    Endpoint ε Bd Env (outputTypes [] cs)
  | [] => .oneshot Unit UnitAction ()
  | c :: cs => chainFrom c.endpoint cs

/-! ## Accepted literals -/

/-- What `parse_path` accepts: static components that are not empty and do not begin like a
parameter, and a catch-all parameter at the end only. -/
def Component.Accepted {T : PathTypes ε} : List (Component T.Ty) → Prop
  | [] => True
  | .static s :: cs => s ≠ [] ∧ s.head? ≠ some '<' ∧ Accepted cs
  | .singleParam _ :: cs => Accepted cs
  | .catchAllParam _ :: cs => cs = []

theorem map_cons_eq_ok {α : Type} {r : Except String (List α)} {x : α} {xs : List α}
    (h : r.map (x :: ·) = .ok xs) : ∃ ys, r = .ok ys ∧ xs = x :: ys := by
  cases r with
  | error e => cases h
  | ok ys => exact ⟨ys, rfl, (Except.ok.inj h).symm⟩

theorem parseSegments_ok {T : PathTypes ε} {segments : List Str} {cs : List (Component T.Ty)}
    (h : parseSegments T segments = .ok cs) : Accepted cs := by
  induction segments generalizing cs with
  | nil =>
    cases h
    trivial
  | cons segment rest ih =>
    rw [parseSegments] at h
    split at h
    · split at h
      · cases h
      · cases h
        trivial
    · rename_i hne
      split at h
      · split at h
        · cases h
        · split at h
          · cases h
          · dsimp only at h
            split at h
            · split at h
              · cases h
              · split at h
                · cases h
                · cases h
                  exact rfl
            · split at h
              · cases h
              · obtain ⟨cs', hrest, rfl⟩ := map_cons_eq_ok h
                show Accepted cs'
                exact ih hrest
      · rename_i hhead
        obtain ⟨cs', hrest, rfl⟩ := map_cons_eq_ok h
        exact ⟨hne, hhead, ih hrest⟩

theorem parsePath_ok {T : PathTypes ε} {s : Str} {cs : List (Component T.Ty)}
    (h : parsePath T s = .ok cs) : Accepted cs := by
  unfold parsePath at h
  dsimp only at h
  split at h
  · cases h
  · split at h
    · cases h
    · split at h
      · cases h
        trivial
      · exact parseSegments_ok h

end Finchers
