import Finchers.Endpoint.ExtractPath
import Finchers.Endpoint.Preflight
import Finchers.SegmentMatch

/-!
# The path macro against the `and` chain

The code that the macro generates and the `and` chain of its components walk along the path in the
same way, except that the former compares a static component with the raw segment, and the latter
its encoding.

* `Endpoint.Gives` — what an endpoint comes to; `Gives.and_*` — what an `and` comes to;
* `walk` — one walk along the path, over how static components are compared; `extract` is the walk
  that compares them as they are, the chain the one that compares encodings;
* `extract_agrees_at_iff` — **the two agree at a request and a cursor, iff on the way along its path
  no static component sees a difference**;
* `extract_agrees_iff` — **they agree at every request and cursor, iff no static component that can
  be reached has a character that is encoded**.
-/

set_option autoImplicit false

namespace Finchers

open Component

variable {ε Bd Env : Type} {ts us : List Type}

/-! ## Outcomes -/

/-- The values of an endpoint, or its failure, and where it leaves the cursor. -/
abbrev Outcome (ts : List Type) := Except Panic (Option (HList ts) × CursorInner)

/-- What a new action of the endpoint comes to: a panic, a failure in `preflight`, or values that
are there after `preflight` or after the first poll. -/
def Endpoint.Gives (e : Endpoint ε Bd Env ts) (cx : PreflightContext) : Outcome ts → Prop
  | .error p => (e.preflight cx).res = .error p
  | .ok (none, c) => ∃ err s, (e.preflight cx).res = .ok (.error err, s, c)
  | .ok (some x, c) => ∃ y s, (e.preflight cx).res = .ok (.ok y, s, c) ∧
      (y = .completed x ∨
        y = .incomplete ∧ ∀ w, ∃ s', (e.pollAction s w).res = .ok (.ok (.ready x), s', w))

/-- Two endpoints come to the same. -/
def Endpoint.Agrees (e e' : Endpoint ε Bd Env ts) (cx : PreflightContext) : Prop :=
  ∃ r, e.Gives cx r ∧ e'.Gives cx r

/-- An endpoint leaves the cursor in one place only, and either fails or does not. -/
theorem Endpoint.Gives.unique {e : Endpoint ε Bd Env ts} {cx : PreflightContext}
    {o : Option (HList ts)} {c : CursorInner} {r : Outcome ts} (h : e.Gives cx (.ok (o, c)))
    (h' : e.Gives cx r) : ∃ o', r = .ok (o', c) ∧ (o = none ↔ o' = none) := by
  have hres : ∃ y s, (e.preflight cx).res = .ok (y, s, c) ∧ (o = none ↔ ∃ err, y = .error err) := by
    cases o with
    | none =>
      obtain ⟨err, s, hp⟩ := h
      exact ⟨_, s, hp, fun _ => ⟨err, rfl⟩, fun _ => rfl⟩
    | some x =>
      obtain ⟨y, s, hp, -⟩ := h
      exact ⟨_, s, hp, by simp⟩
  obtain ⟨y, s, hp, ho⟩ := hres
  rcases r with p | ⟨_ | x, c'⟩
  · cases hp.symm.trans h'
  · obtain ⟨err, s', hp'⟩ := h'
    cases hp.symm.trans hp'
    exact ⟨none, rfl, by simp [ho]⟩
  · obtain ⟨y', s', hp', -⟩ := h'
    cases hp.symm.trans hp'
    exact ⟨some x, rfl, by simp [ho]⟩

/-! ## `and` -/

section

variable {e1 : Endpoint ε Bd Env ts} {e2 : Endpoint ε Bd Env us} {cx : PreflightContext}

/-- A component whose output is there, or comes with the first poll. -/
theorem MaybeDone.poll_next {σ : Type} {e : EndpointAction ε Bd Env σ ts} {x : HList ts}
    {y : Preflight (HList ts)} {s : σ}
    (h : y = .completed x ∨
      y = .incomplete ∧ ∀ w, ∃ s', (e.pollAction s w).res = .ok (.ok (.ready x), s', w))
    (w : World Bd Env) :
    ∃ l, (MaybeDone.action e).pollAction (.next y s) w =
      ⟨l, .ok (.ok (.ready ()), .ready x, w)⟩ := by
  rcases h with rfl | ⟨rfl, hpoll⟩
  · exact ⟨[], rfl⟩
  · obtain ⟨s', hs'⟩ := hpoll w
    refine ⟨(e.pollAction s w).log, ?_⟩
    have hp : e.pollAction s w = ⟨(e.pollAction s w).log, .ok (.ok (.ready x), s', w)⟩ :=
      Resumable.Traced.ext rfl hs'
    simp only [MaybeDone.action, MaybeDone.next]
    rw [hp]
    simp

/-- The `preflight` of an endpoint as a whole, from its result. -/
theorem preflight_eq_mk {e : Endpoint ε Bd Env ts}
    {r : Except Panic (Except (Error ε) (Preflight (HList ts)) × e.Action × CursorInner)}
    (h : (e.preflight cx).res = r) : e.preflight cx = ⟨(e.preflight cx).log, r⟩ :=
  Resumable.Traced.ext rfl h

namespace Endpoint.Gives

theorem and_panic {p : Panic} (h : e1.Gives cx (.error p)) : (e1.and e2).Gives cx (.error p) := by
  have hand : (e1.and e2).preflight cx = _ := AndAction.preflight_panic_left (preflight_eq_mk h)
  exact congrArg Resumable.Traced.res hand

theorem and_failed {c : CursorInner} (h : e1.Gives cx (.ok (none, c))) :
    (e1.and e2).Gives cx (.ok (none, c)) := by
  obtain ⟨err, s, hp⟩ := h
  have hand : (e1.and e2).preflight cx = _ :=
    AndAction.preflight_failed_left (preflight_eq_mk hp)
  exact ⟨err, _, congrArg Resumable.Traced.res hand⟩

theorem and_panic_right {x : HList ts} {c : CursorInner} {p : Panic}
    (h : e1.Gives cx (.ok (some x, c))) (h2 : e2.Gives { cx with cursor := c } (.error p)) :
    (e1.and e2).Gives cx (.error p) := by
  obtain ⟨y, s, hp, -⟩ := h
  have hand := AndAction.preflight_panic_right (preflight_eq_mk hp) (preflight_eq_mk h2)
  exact congrArg Resumable.Traced.res hand

theorem and_failed_right {x : HList ts} {c c' : CursorInner}
    (h : e1.Gives cx (.ok (some x, c))) (h2 : e2.Gives { cx with cursor := c } (.ok (none, c'))) :
    (e1.and e2).Gives cx (.ok (none, c')) := by
  obtain ⟨y, s, hp, -⟩ := h
  obtain ⟨err, s2, hp2⟩ := h2
  have hand := AndAction.preflight_failed_right (preflight_eq_mk hp) (preflight_eq_mk hp2)
  exact ⟨err, _, congrArg Resumable.Traced.res hand⟩

theorem and_ok {x : HList ts} {y : HList us} {c c' : CursorInner}
    (h : e1.Gives cx (.ok (some x, c)))
    (h2 : e2.Gives { cx with cursor := c } (.ok (some y, c'))) :
    (e1.and e2).Gives cx (.ok (some (x.combine y), c')) := by
  obtain ⟨x', s1, hp1, hx⟩ := h
  obtain ⟨y', s2, hp2, hy⟩ := h2
  have hand := AndAction.preflight_ok (preflight_eq_mk hp1) (preflight_eq_mk hp2)
  refine ⟨.incomplete, _, congrArg Resumable.Traced.res hand, Or.inr ⟨rfl, fun w => ?_⟩⟩
  obtain ⟨l1, hpoll1⟩ := MaybeDone.poll_next hx w
  obtain ⟨l2, hpoll2⟩ := MaybeDone.poll_next hy w
  refine ⟨⟨.gone, .gone⟩, ?_⟩
  show ((AndAction.action e1.impl e2.impl).pollAction ⟨.next x' s1, .next y' s2⟩ w).res = _
  simp only [AndAction.action, under]
  rw [hpoll1]
  simp only [Resumable.Traced.mapLog_mk, Resumable.Traced.mk_ok_bind]
  rw [hpoll2]
  rfl

end Endpoint.Gives

end

/-! ## One walk along the path -/

section

variable {T : PathTypes ε}

/-- The values of a component, or its failure, and where it leaves the cursor; a static component
`t` accepts the segments `s` with `accepts t s`. -/
def Component.step (accepts : Str → Str → Bool) : (c : Component T.Ty) → PreflightContext →
    Except ActionPanic (Option (HList c.outputs) × CursorInner)
  | .static t, cx => do
    let (s, c) ← Cursor.nextSegment cx.path cx.cursor
    return (s.bind (fun s => if accepts t s then some HList.nil else none), c)
  | .singleParam ty, cx => do
    let (s, c) ← Cursor.nextSegment cx.path cx.cursor
    return (s.bind (fun s => (T.fromEncodedStr ty s).toOption.map HList.single), c)
  | .catchAllParam ty, cx => do
    let remaining ← Cursor.remainingPath cx.path cx.cursor
    let (_, c) ← Cursor.count cx.path cx.cursor
    return ((T.fromEncodedStr ty remaining).toOption.map HList.single, c)

/-- The components one after the other, each from where the last one left the cursor. -/
def walk (accepts : Str → Str → Bool) : {ts : List Type} → HList ts →
    (cs : List (Component T.Ty)) → PreflightContext →
    Except ActionPanic (Option (HList (outputTypes ts cs)) × CursorInner)
  | _, xs, [], cx => .ok (some xs, cx.cursor)
  | _, xs, c :: cs, cx =>
    match c.step accepts cx with
    | .error p => .error p
    | .ok (none, cursor) => .ok (none, cursor)
    | .ok (some x, cursor) => walk accepts (xs.combine x) cs { cx with cursor := cursor }

/-- A static component as the generated code compares it. -/
def acceptsRaw (t s : Str) : Bool := decide (Utf8.bytes s = Utf8.bytes t)

/-- A static component as `segment` compares it. -/
def acceptsEncoded (t s : Str) : Bool :=
  decide (Utf8.bytes s = Percent.encode SEGMENT_ENCODE_SET (Utf8.bytes t))

/-- The outcome of a walk as one of an endpoint. -/
def outcome (r : Except ActionPanic (Option (HList ts) × CursorInner)) : Outcome ts :=
  r.mapError .action

/-! ## The generated code walks along the path -/

theorem extractFrom_eq_walk (xs : HList ts) (cs : List (Component T.Ty)) (cx : PreflightContext) :
    (extractFrom T xs cs cx).map (fun r => (r.1.toOption, r.2)) = walk acceptsRaw xs cs cx := by
  induction cs generalizing ts cx with
  | nil => rfl
  | cons c cs ih =>
    cases c with
    | static t =>
      rw [extractFrom, walk, step]
      rcases Cursor.nextSegment cx.path cx.cursor with p | ⟨_ | s, cursor⟩
      · rfl
      · rfl
      · simp only [bind, Except.bind, Option.bind, acceptsRaw]
        by_cases h : Utf8.bytes s = Utf8.bytes t
        · simp only [h, if_true, decide_true]
          exact ih _ _
        · simp only [h, decide_false]
          rfl
    | singleParam ty =>
      rw [extractFrom, walk, step]
      rcases Cursor.nextSegment cx.path cx.cursor with p | ⟨_ | s, cursor⟩
      · rfl
      · rfl
      · simp only [bind, Except.bind, Option.bind]
        cases T.fromEncodedStr ty s with
        | error e => rfl
        | ok x => exact ih _ _
    | catchAllParam ty =>
      rw [extractFrom, walk, step]
      rcases Cursor.remainingPath cx.path cx.cursor with p | remaining
      · rfl
      · rcases Cursor.count cx.path cx.cursor with p | ⟨n, cursor⟩
        · rfl
        · simp only [bind, Except.bind]
          cases T.fromEncodedStr ty remaining with
          | error e => rfl
          | ok x => exact ih _ _

variable (Bd Env) in
/-- The endpoint of a one-shot action. -/
theorem Endpoint.gives_oneshot {σ : Type} (a : OneshotAction ε σ ts) (s : σ)
    (cx : PreflightContext) :
    (Endpoint.oneshot σ a s : Endpoint ε Bd Env ts).Gives cx
      (outcome ((a.preflight s cx).map fun r => (r.1.toOption, r.2))) := by
  have hp : (Endpoint.oneshot σ a s : Endpoint ε Bd Env ts).preflight cx =
      a.action.preflight cx (some s) := rfl
  simp only [OneshotAction.action] at hp
  rcases hr : a.preflight s cx with p | ⟨err | x, c⟩
  · rw [hr] at hp
    exact congrArg (·.res) hp
  · rw [hr] at hp
    exact ⟨err, none, congrArg (·.res) hp⟩
  · rw [hr] at hp
    exact ⟨.completed x, none, congrArg (·.res) hp, Or.inl rfl⟩

variable (Bd Env) in
theorem path_gives (cs : List (Component T.Ty)) (cx : PreflightContext) :
    (path T cs : Endpoint ε Bd Env _).Gives cx (outcome (walk acceptsRaw HList.nil cs cx)) := by
  have h := Endpoint.gives_oneshot Bd Env (PathAction T cs) () cx
  rwa [show (PathAction T cs).preflight () cx = extractFrom T HList.nil cs cx from rfl,
    extractFrom_eq_walk] at h

/-! ## So does the chain, with encoded constants -/

theorem MatchSegmentAction.map_preflight (t : Str) (cx : PreflightContext) :
    ((MatchSegmentAction (ε := ε)).preflight (segment t) cx).map
        (fun r => (r.1.toOption, r.2)) =
      (Component.static t : Component T.Ty).step acceptsEncoded cx := by
  simp only [MatchSegmentAction, Component.step, segment]
  rcases Cursor.nextSegment cx.path cx.cursor with p | ⟨_ | s, cursor⟩
  · rfl
  · rfl
  · simp only [bind, Except.bind, Option.bind]
    by_cases h : Utf8.bytes s = Percent.encode SEGMENT_ENCODE_SET (Utf8.bytes t)
    · have hacc : acceptsEncoded t s = true := decide_eq_true h
      rw [if_pos h, if_pos hacc]
      rfl
    · have hacc : ¬ acceptsEncoded t s = true := Bool.eq_false_iff.mp (decide_eq_false h)
      rw [if_neg h, if_neg hacc]
      rfl

theorem ParamAction.map_preflight (ty : T.Ty) (cx : PreflightContext) :
    ((ParamAction (ε := ε) (T.Value ty)).preflight () cx).map (fun r => (r.1.toOption, r.2)) =
      (Component.singleParam ty : Component T.Ty).step acceptsEncoded cx := by
  simp only [ParamAction, Component.step]
  rcases Cursor.nextSegment cx.path cx.cursor with p | ⟨_ | s, cursor⟩
  · rfl
  · rfl
  · simp only [bind, Except.bind, Option.bind, FromEncodedStr.fromEncodedStr]
    rcases T.fromEncodedStr ty s with e | x
    · rfl
    · rfl

theorem RemainsAction.map_preflight (ty : T.Ty) (cx : PreflightContext) :
    ((RemainsAction (ε := ε) (T.Value ty)).preflight () cx).map (fun r => (r.1.toOption, r.2)) =
      (Component.catchAllParam ty : Component T.Ty).step acceptsEncoded cx := by
  simp only [RemainsAction, Component.step]
  rcases Cursor.remainingPath cx.path cx.cursor with p | remaining
  · rfl
  · rcases Cursor.count cx.path cx.cursor with p | ⟨n, cursor⟩
    · rfl
    · simp only [bind, Except.bind, FromEncodedStr.fromEncodedStr]
      rcases T.fromEncodedStr ty remaining with e | x
      · rfl
      · rfl

variable (Bd Env) in
theorem Component.endpoint_gives (c : Component T.Ty) (cx : PreflightContext) :
    (c.endpoint : Endpoint ε Bd Env _).Gives cx (outcome (c.step acceptsEncoded cx)) := by
  cases c with
  | static t =>
    have h := Endpoint.gives_oneshot Bd Env (MatchSegmentAction (ε := ε))
      (segment t) cx
    rwa [MatchSegmentAction.map_preflight] at h
  | singleParam ty =>
    have h := Endpoint.gives_oneshot Bd Env (ParamAction (ε := ε) (T.Value ty)) () cx
    rwa [ParamAction.map_preflight] at h
  | catchAllParam ty =>
    have h := Endpoint.gives_oneshot Bd Env (RemainsAction (ε := ε) (T.Value ty))
      () cx
    rwa [RemainsAction.map_preflight] at h

/-- Walk on from what has been reached. -/
def walkOn (accepts : Str → Str → Bool)
    (r : Except ActionPanic (Option (HList ts) × CursorInner)) (cs : List (Component T.Ty))
    (cx : PreflightContext) :
    Except ActionPanic (Option (HList (outputTypes ts cs)) × CursorInner) :=
  match r with
  | .error p => .error p
  | .ok (none, cursor) => .ok (none, cursor)
  | .ok (some xs, cursor) => walk accepts xs cs { cx with cursor := cursor }

/-- A walk, and one component more. -/
def stepOn (accepts : Str → Str → Bool)
    (r : Except ActionPanic (Option (HList ts) × CursorInner)) (c : Component T.Ty)
    (cx : PreflightContext) :
    Except ActionPanic (Option (HList (ts ++ c.outputs)) × CursorInner) :=
  match r with
  | .error p => .error p
  | .ok (none, cursor) => .ok (none, cursor)
  | .ok (some xs, cursor) =>
    (c.step accepts { cx with cursor := cursor }).map fun r => (r.1.map xs.combine, r.2)

theorem walkOn_cons (accepts : Str → Str → Bool)
    (r : Except ActionPanic (Option (HList ts) × CursorInner)) (c : Component T.Ty)
    (cs : List (Component T.Ty)) (cx : PreflightContext) :
    walkOn accepts r (c :: cs) cx = walkOn accepts (stepOn accepts r c cx) cs cx := by
  rcases r with p | ⟨_ | xs, cursor⟩
  · rfl
  · rfl
  · simp only [walkOn, stepOn, walk]
    rcases c.step accepts { cx with cursor := cursor } with p | ⟨_ | x, cursor'⟩
    · rfl
    · rfl
    · rfl

/-- One more component in the chain. -/
theorem and_gives {e : Endpoint ε Bd Env ts}
    {r : Except ActionPanic (Option (HList ts) × CursorInner)} {cx : PreflightContext}
    (h : e.Gives cx (outcome r)) (c : Component T.Ty) :
    (e.and c.endpoint).Gives cx (outcome (stepOn acceptsEncoded r c cx)) := by
  rcases r with p | ⟨_ | xs, cursor⟩
  · exact h.and_panic
  · exact h.and_failed
  · have hc := c.endpoint_gives Bd Env { cx with cursor := cursor }
    simp only [stepOn]
    rcases hs : c.step acceptsEncoded { cx with cursor := cursor } with p | ⟨_ | x, cursor'⟩
    · rw [hs] at hc
      exact h.and_panic_right hc
    · rw [hs] at hc
      exact h.and_failed_right hc
    · rw [hs] at hc
      exact h.and_ok hc

theorem chainFrom_gives {e : Endpoint ε Bd Env ts}
    {r : Except ActionPanic (Option (HList ts) × CursorInner)} {cx : PreflightContext}
    (h : e.Gives cx (outcome r)) (cs : List (Component T.Ty)) :
    (chainFrom e cs).Gives cx (outcome (walkOn acceptsEncoded r cs cx)) := by
  induction cs generalizing ts with
  | nil =>
    rcases r with p | ⟨_ | xs, cursor⟩
    · exact h
    · exact h
    · exact h
  | cons c cs ih =>
    rw [walkOn_cons]
    exact ih (and_gives h c)

variable (Bd Env) in
theorem chain_gives (cs : List (Component T.Ty)) (cx : PreflightContext) :
    (chain T cs : Endpoint ε Bd Env _).Gives cx
      (outcome (walk acceptsEncoded HList.nil cs cx)) := by
  cases cs with
  | nil => exact Endpoint.gives_oneshot Bd Env UnitAction () cx
  | cons c cs =>
    have h := chainFrom_gives (c.endpoint_gives Bd Env cx) cs
    have hwalk : walkOn acceptsEncoded (c.step acceptsEncoded cx) cs cx =
        walk acceptsEncoded HList.nil (c :: cs) cx := by
      rw [walk]
      rcases c.step acceptsEncoded cx with p | ⟨_ | x, cursor⟩
      · rfl
      · rfl
      · rfl
    rw [hwalk] at h
    exact h

/-! ## Where the two walks differ -/

/-- No character of the text is escaped in a segment. -/
def Unencoded (t : Str) : Prop := ∀ b ∈ Utf8.bytes t, SEGMENT_ENCODE_SET b = false

theorem unencoded_of_all {t : Str} (h : (Utf8.bytes t).all (fun b => !SEGMENT_ENCODE_SET b) = true) :
    Unencoded t := by
  intro b hb
  simpa using List.all_eq_true.mp h b hb

/-- No static component has a character that is escaped, as far as it can be reached: all
parameters before it can be extracted from some segment. -/
def Component.Plain : List (Component T.Ty) → Prop
  | [] => True
  | .static t :: cs => Unencoded t ∧ Plain cs
  | .singleParam ty :: cs => (∃ s x, '/' ∉ s ∧ T.fromEncodedStr ty s = .ok x) → Plain cs
  | .catchAllParam _ :: _ => True

/-- The components fail at the end of a path. -/
def Component.Unfinished : List (Component T.Ty) → Prop
  | [] => False
  | .static _ :: _ => True
  | .singleParam _ :: _ => True
  | .catchAllParam ty :: cs => (∃ x, T.fromEncodedStr ty [] = .ok x) → Unfinished cs

/-- On the way along the path from the cursor each static component either accepts the segment as
it is and as an encoding or in neither way, or the segment is the last one and more components are
to come. -/
def Component.PlainAt (path : Str) : List (Component T.Ty) → CursorInner → Prop
  | [], _ => True
  | .static t :: cs, inner => ∀ s inner', Cursor.nextSegment path inner = .ok (some s, inner') →
      (acceptsRaw t s = true ∧ acceptsEncoded t s = true → PlainAt path cs inner') ∧
      (acceptsRaw t s ≠ acceptsEncoded t s → inner'.pos = Utf8.len path ∧ Unfinished cs)
  | .singleParam ty :: cs, inner => ∀ s x inner',
      Cursor.nextSegment path inner = .ok (some s, inner') → T.fromEncodedStr ty s = .ok x →
      PlainAt path cs inner'
  | .catchAllParam _ :: _, _ => True

/-- At the end of the path nothing is accepted that is compared, and the cursor stays. -/
theorem walk_end (accepts accepts' : Str → Str → Bool) (xs : HList ts)
    (cs : List (Component T.Ty)) (cx : PreflightContext) {a : Str}
    (h : Cursor.At cx.path a [] cx.cursor) :
    walk accepts xs cs cx = walk accepts' xs cs cx ∧
      ∃ o, walk accepts xs cs cx = .ok (o, cx.cursor) ∧ (o = none ↔ Unfinished cs) := by
  induction cs generalizing ts with
  | nil => exact ⟨rfl, some xs, rfl, by simp [Unfinished]⟩
  | cons c cs ih =>
    have hnext := Cursor.nextSegment_end h
    cases c with
    | static t =>
      simp only [walk, Component.step, hnext, bind, Except.bind]
      exact ⟨rfl, none, rfl, by simp [Unfinished]⟩
    | singleParam ty =>
      simp only [walk, Component.step, hnext, bind, Except.bind]
      exact ⟨rfl, none, rfl, by simp [Unfinished]⟩
    | catchAllParam ty =>
      have hrest : Cursor.remainingPath cx.path cx.cursor = .ok [] := by
        rw [Cursor.remainingPath, h.sliceFrom]
        rfl
      simp only [walk, Component.step, hrest, Cursor.count_end h, bind, Except.bind]
      cases hx : T.fromEncodedStr ty [] with
      | error e => exact ⟨rfl, none, rfl, by simp [Unfinished, hx]⟩
      | ok x =>
        obtain ⟨heq, o, hw, ho⟩ := ih (xs.combine (HList.single x))
        refine ⟨heq, o, hw, Iff.trans ho ?_⟩
        constructor
        · exact fun hunfinished _ => hunfinished
        · exact fun hunfinished => hunfinished ⟨x, hx⟩

/-- The cursor is not taken back, and each component takes it on if it is not at the end. -/
theorem walk_forward (accepts : Str → Str → Bool) (xs : HList ts) (cs : List (Component T.Ty))
    (cx : PreflightContext) {a b : Str} (h : Cursor.At cx.path a b cx.cursor) :
    ∃ o inner, walk accepts xs cs cx = .ok (o, inner) ∧ cx.cursor.pos ≤ inner.pos ∧
      (b ≠ [] → cs ≠ [] → cx.cursor.pos < inner.pos) := by
  induction cs generalizing ts cx a b with
  | nil => exact ⟨some xs, cx.cursor, rfl, Nat.le_refl _, fun _ hne => absurd rfl hne⟩
  | cons c cs ih =>
    -- a component that takes the cursor on to `inner`
    have hgo : ∀ {o : Option (HList c.outputs)} {inner : CursorInner} {a' b' : Str},
        c.step accepts cx = .ok (o, inner) → Cursor.At cx.path a' b' inner →
        cx.cursor.pos < inner.pos → ∃ o' inner', walk accepts xs (c :: cs) cx = .ok (o', inner') ∧
          cx.cursor.pos < inner'.pos := by
      intro o inner a' b' hstep hat hlt
      cases o with
      | none => exact ⟨none, inner, by rw [walk, hstep], hlt⟩
      | some x =>
        obtain ⟨o', inner', hw, hle, -⟩ := ih (xs.combine x) { cx with cursor := inner } hat
        exact ⟨o', inner', by rw [walk, hstep]; exact hw, Nat.lt_of_lt_of_le hlt hle⟩
    have hmoves : b ≠ [] → ∃ o' inner', walk accepts xs (c :: cs) cx = .ok (o', inner') ∧
        cx.cursor.pos < inner'.pos := by
      intro hne
      rcases Cursor.nextSegment_at h with ⟨hnil, -⟩ | ⟨s, a', b', inner, hnext, hat, hlt⟩
      · exact absurd hnil hne
      cases c with
      | static t => exact hgo (by simp only [Component.step, hnext]; rfl) hat hlt
      | singleParam ty => exact hgo (by simp only [Component.step, hnext]; rfl) hat hlt
      | catchAllParam ty =>
        obtain ⟨n, inner', hc, hend⟩ := Cursor.count_at h
        have hrest : Cursor.remainingPath cx.path cx.cursor = .ok b := by
          rw [Cursor.remainingPath, h.sliceFrom]
          rfl
        have hpos : cx.cursor.pos < inner'.pos := by
          have hle := hat.pos_le
          rw [hend.pos_eq_iff.mpr rfl]
          exact Nat.lt_of_lt_of_le hlt hle
        exact hgo (by simp only [Component.step, hrest, hc]; rfl) hend hpos
    by_cases hne : b = []
    · subst hne
      obtain ⟨-, o, hw, -⟩ := walk_end accepts accepts xs (c :: cs) cx h
      exact ⟨o, cx.cursor, hw, Nat.le_refl _, fun hb => absurd rfl hb⟩
    · obtain ⟨o, inner, hw, hlt⟩ := hmoves hne
      exact ⟨o, inner, hw, Nat.le_of_lt hlt, fun _ _ => hlt⟩

theorem acceptsRaw_eq_acceptsEncoded {t : Str} (h : Unencoded t) (s : Str) :
    acceptsRaw t s = acceptsEncoded t s := by
  unfold acceptsRaw acceptsEncoded
  rw [(Percent.encode_eq_self_iff _).mpr h]

/-- A static component at a segment. -/
theorem walk_static (accepts : Str → Str → Bool) (xs : HList ts) {t s : Str}
    {cs : List (Component T.Ty)} {cx : PreflightContext} {cursor : CursorInner}
    (hn : Cursor.nextSegment cx.path cx.cursor = .ok (some s, cursor)) :
    walk accepts xs (.static t :: cs) cx =
      if accepts t s = true then walk accepts (xs.combine HList.nil) cs { cx with cursor := cursor }
      else .ok (none, cursor) := by
  simp only [walk, Component.step, hn, bind, Except.bind, Option.bind]
  by_cases h : accepts t s = true
  · rw [if_pos h, if_pos h]
    rfl
  · rw [if_neg h, if_neg h]
    rfl

/-- A catch-all parameter goes to the end of the path. -/
theorem walk_catchAll (accepts accepts' : Str → Str → Bool) (xs : HList ts) (ty : T.Ty)
    (cs : List (Component T.Ty)) (cx : PreflightContext) :
    walk accepts xs (.catchAllParam ty :: cs) cx = walk accepts' xs (.catchAllParam ty :: cs) cx := by
  simp only [walk, Component.step, bind, Except.bind]
  rcases hr : Cursor.remainingPath cx.path cx.cursor with p | remaining
  · rfl
  · have hslice : Utf8.sliceFrom cx.path cx.cursor.pos = some remaining := by
      unfold Cursor.remainingPath at hr
      cases hs : Utf8.sliceFrom cx.path cx.cursor.pos with
      | none =>
        rw [hs] at hr
        cases hr
      | some b =>
        rw [hs] at hr
        cases hr
        rfl
    obtain ⟨a, hat⟩ := Cursor.at_of_sliceFrom hslice
    obtain ⟨n, cursor, hc, hend⟩ := Cursor.count_at hat
    simp only [hc]
    cases T.fromEncodedStr ty remaining with
    | error e => rfl
    | ok x => exact (walk_end accepts accepts' _ cs _ hend).1

/-- Components that fail at the end of the path fail where the cursor is. -/
theorem walk_unfinished (accepts : Str → Str → Bool) (xs : HList ts) {cs : List (Component T.Ty)}
    {cx : PreflightContext} {a b : Str} (hat : Cursor.At cx.path a b cx.cursor)
    (hpos : cx.cursor.pos = Utf8.len cx.path) (h : Unfinished cs) :
    walk accepts xs cs cx = .ok (none, cx.cursor) := by
  rw [hat.pos_eq_iff.mp hpos] at hat
  obtain ⟨-, o, hw, ho⟩ := walk_end accepts accepts xs cs cx hat
  rw [hw, ho.mpr h]

/-- The two walks are the same as long as they see no difference. -/
theorem walk_eq_of_plainAt (xs : HList ts) {cs : List (Component T.Ty)} {cx : PreflightContext}
    (h : PlainAt cx.path cs cx.cursor) :
    walk acceptsRaw xs cs cx = walk acceptsEncoded xs cs cx := by
  induction cs generalizing ts cx with
  | nil => rfl
  | cons c cs ih =>
    cases c with
    | static t =>
      rcases hn : Cursor.nextSegment cx.path cx.cursor with p | ⟨_ | s, cursor⟩
      · simp only [walk, Component.step, hn, bind, Except.bind]
      · simp only [walk, Component.step, hn, bind, Except.bind]
        rfl
      obtain ⟨hboth, hone⟩ := h s cursor hn
      obtain ⟨a, b, hat⟩ := Cursor.at_of_nextSegment hn
      obtain ⟨a', b', hat'⟩ := hat.next hn
      rw [walk_static _ _ hn, walk_static _ _ hn]
      by_cases heq : acceptsRaw t s = acceptsEncoded t s
      · by_cases henc : acceptsEncoded t s = true
        · rw [if_pos (heq.trans henc), if_pos henc]
          exact ih _ (hboth ⟨heq.trans henc, henc⟩)
        · rw [if_neg (fun hraw => henc (heq.symm.trans hraw)), if_neg henc]
      · -- one of them goes on, and fails where the other one fails
        obtain ⟨hpos, hunfinished⟩ := hone heq
        rw [walk_unfinished _ _ hat' hpos hunfinished, walk_unfinished _ _ hat' hpos hunfinished,
          ite_self, ite_self]
    | singleParam ty =>
      simp only [walk, Component.step, bind, Except.bind]
      rcases hn : Cursor.nextSegment cx.path cx.cursor with p | ⟨_ | s, cursor⟩
      · rfl
      · rfl
      · cases hx : T.fromEncodedStr ty s with
        | error e =>
          simp only [Option.bind, hx]
          rfl
        | ok x =>
          simp only [Option.bind, hx]
          exact ih _ (h s x cursor hn hx)
    | catchAllParam ty => exact walk_catchAll acceptsRaw acceptsEncoded xs ty cs cx

/-- Two walks that do not come to the same: they leave the cursor in different places, or only one
of them fails. -/
def Differ (r r' : Except ActionPanic (Option (HList ts) × CursorInner)) : Prop :=
  ∃ o o' c c', r = .ok (o, c) ∧ r' = .ok (o', c') ∧ (c ≠ c' ∨ ¬ (o = none ↔ o' = none))

theorem Differ.not_agrees {cs : List (Component T.Ty)} {cx : PreflightContext}
    (h : Differ (walk acceptsRaw HList.nil cs cx) (walk acceptsEncoded HList.nil cs cx)) :
    ¬ (path T cs : Endpoint ε Bd Env _).Agrees (chain T cs) cx := by
  rintro ⟨r, hpath, hchain⟩
  obtain ⟨o, o', c, c', hw, hw', hne⟩ := h
  have h1 := path_gives Bd Env cs cx
  have h2 := chain_gives Bd Env cs cx
  rw [hw] at h1
  rw [hw'] at h2
  obtain ⟨o1, rfl, ho1⟩ := h1.unique hpath
  obtain ⟨o2, heq, ho2⟩ := h2.unique hchain
  cases heq
  rcases hne with hne | hne
  · exact hne rfl
  · exact hne (ho1.trans ho2.symm)

/-- Going on with the components is not the same as failing where the cursor is, except at the end
of the path. -/
theorem walk_goes_on (accepts : Str → Str → Bool) (xs : HList ts) {cs : List (Component T.Ty)}
    {cx : PreflightContext} {a b : Str} (hat : Cursor.At cx.path a b cx.cursor)
    (hend : ¬ (cx.cursor.pos = Utf8.len cx.path ∧ Unfinished cs)) :
    ∃ o inner, walk accepts xs cs cx = .ok (o, inner) ∧ (inner ≠ cx.cursor ∨ o ≠ none) := by
  by_cases hb : b = []
  · subst hb
    obtain ⟨-, o, hw, ho⟩ := walk_end accepts accepts xs cs cx hat
    exact ⟨o, cx.cursor, hw, Or.inr fun hnone => hend ⟨hat.pos_eq_iff.mpr rfl, ho.mp hnone⟩⟩
  · by_cases hcs : cs = []
    · subst hcs
      exact ⟨some xs, cx.cursor, rfl, Or.inr (Option.some_ne_none xs)⟩
    · obtain ⟨o, inner, hw, -, hlt⟩ := walk_forward accepts xs cs cx hat
      refine ⟨o, inner, hw, Or.inl fun heq => ?_⟩
      have hpos := hlt hb hcs
      rw [heq] at hpos
      exact Nat.lt_irrefl _ hpos

/-- The two walks differ where they see a difference. -/
theorem differ_of_not_plainAt (xs : HList ts) {cs : List (Component T.Ty)} {cx : PreflightContext}
    (h : ¬ PlainAt cx.path cs cx.cursor) :
    Differ (walk acceptsRaw xs cs cx) (walk acceptsEncoded xs cs cx) := by
  induction cs generalizing ts cx with
  | nil => exact absurd trivial h
  | cons c cs ih =>
    cases c with
    | static t =>
      simp only [PlainAt, not_forall] at h
      obtain ⟨s, cursor, hn, hnot⟩ := h
      obtain ⟨a, b, hat⟩ := Cursor.at_of_nextSegment hn
      obtain ⟨a', b', hat'⟩ := hat.next hn
      rw [walk_static _ _ hn, walk_static _ _ hn]
      by_cases heq : acceptsRaw t s = acceptsEncoded t s
      · by_cases henc : acceptsEncoded t s = true
        · rw [if_pos (heq.trans henc), if_pos henc]
          exact ih _ fun hplain => hnot ⟨fun _ => hplain, fun hne => absurd heq hne⟩
        · exact absurd ⟨fun hboth => absurd hboth.2 henc, fun hne => absurd heq hne⟩ hnot
      · -- one of them goes on, the other one fails where the cursor is
        have hend : ¬ (cursor.pos = Utf8.len cx.path ∧ Unfinished cs) := fun hend =>
          hnot ⟨fun hboth => absurd (hboth.1.trans hboth.2.symm) heq, fun _ => hend⟩
        have hgo : ∀ accepts : Str → Str → Bool, ∃ o inner,
            walk accepts (xs.combine HList.nil) cs { cx with cursor := cursor } = .ok (o, inner) ∧
              (inner ≠ cursor ∨ o ≠ none) :=
          fun accepts => walk_goes_on accepts (xs.combine HList.nil) hat' hend
        by_cases hraw : acceptsRaw t s = true
        · have henc : ¬ acceptsEncoded t s = true := fun henc => heq (hraw.trans henc.symm)
          obtain ⟨o, inner, hw, hne⟩ := hgo acceptsRaw
          rw [if_pos hraw, if_neg henc]
          refine ⟨o, none, inner, cursor, hw, rfl, ?_⟩
          rcases hne with hne | hne
          · exact Or.inl hne
          · exact Or.inr fun hiff => hne (hiff.mpr rfl)
        · have henc : acceptsEncoded t s = true := by
            rw [Bool.not_eq_true] at hraw
            cases henc : acceptsEncoded t s with
            | true => rfl
            | false => exact absurd (hraw.trans henc.symm) heq
          obtain ⟨o, inner, hw, hne⟩ := hgo acceptsEncoded
          rw [if_neg hraw, if_pos henc]
          refine ⟨none, o, cursor, inner, rfl, hw, ?_⟩
          rcases hne with hne | hne
          · exact Or.inl hne.symm
          · exact Or.inr fun hiff => hne (hiff.mp rfl)
    | singleParam ty =>
      simp only [PlainAt, not_forall] at h
      obtain ⟨s, x, cursor, hn, hx, hnot⟩ := h
      simp only [walk, Component.step, hn, bind, Except.bind, Option.bind, hx]
      exact ih _ hnot
    | catchAllParam ty => exact absurd trivial h

variable (Bd Env) in
/-- **The macro agrees with the `and` chain at a request and a cursor** iff they see no difference
on the way along the path. -/
theorem extract_agrees_at_iff (cs : List (Component T.Ty)) (cx : PreflightContext) :
    (path T cs : Endpoint ε Bd Env _).Agrees (chain T cs) cx ↔ PlainAt cx.path cs cx.cursor := by
  constructor
  · intro hagree
    by_contra hplain
    exact (differ_of_not_plainAt HList.nil hplain).not_agrees hagree
  · intro hplain
    refine ⟨_, path_gives Bd Env cs cx, ?_⟩
    rw [walk_eq_of_plainAt HList.nil hplain]
    exact chain_gives Bd Env cs cx

/-! ## All requests -/

/-- The encoding of a text as the text of a segment. -/
theorem exists_encoded (t : Str) :
    ∃ raw, Utf8.bytes raw = Percent.encode SEGMENT_ENCODE_SET (Utf8.bytes t) ∧ '/' ∉ raw := by
  have hascii : ∀ b ∈ Percent.encode SEGMENT_ENCODE_SET (Utf8.bytes t), b < 128 := by
    intro b hb
    by_contra hge
    have hset : ∀ b, ¬ b < 128 → SEGMENT_ENCODE_SET b = true :=
      UInt8.forall_of_lt (by decide +kernel)
    refine Percent.not_mem_encode (hset b hge) ?_ ?_ _ hb
    · rintro rfl
      exact hge (by decide)
    · rintro n hn rfl
      have hall : ∀ n, n < 16 → Percent.hexDigit n < 128 := by decide
      exact hge (hall n hn)
  obtain ⟨raw, hraw⟩ := Utf8.exists_bytes_eq hascii
  refine ⟨raw, hraw, fun hslash => ?_⟩
  have hmem := Utf8.mem_bytes (by decide) hslash
  rw [hraw] at hmem
  exact Percent.not_mem_encode (by decide) (by decide) (by decide) _ hmem

/-- A text that needs no encoding has no slash in it. -/
theorem Unencoded.not_mem_slash {t : Str} (h : Unencoded t) : '/' ∉ t := by
  intro hslash
  have hset := h _ (Utf8.mem_bytes (by decide) hslash)
  cases hset.symm.trans (by decide : SEGMENT_ENCODE_SET (UInt8.ofNat '/'.toNat) = true)

/-- Without escaped characters there is no difference anywhere. -/
theorem plainAt_of_plain {cs : List (Component T.Ty)} (h : Plain cs) (path : Str)
    (inner : CursorInner) : PlainAt path cs inner := by
  induction cs generalizing inner with
  | nil => trivial
  | cons c cs ih =>
    cases c with
    | static t =>
      intro s inner' hn
      refine ⟨fun _ => ih h.2 inner', fun hne => ?_⟩
      exact absurd (acceptsRaw_eq_acceptsEncoded h.1 s) hne
    | singleParam ty =>
      intro s x inner' hn hx
      exact ih (h ⟨s, x, Cursor.not_mem_of_nextSegment hn, hx⟩) inner'
    | catchAllParam ty => trivial

/-- Where a static component is escaped, there is a path on which a difference is seen: up to it the
path satisfies both, then comes its encoding, and then one more segment. -/
theorem exists_not_plainAt {cs : List (Component T.Ty)} (h : ¬ Plain cs) :
    ∃ b, ∀ {path a : Str} {inner : CursorInner}, Cursor.At path a b inner →
      ¬ PlainAt path cs inner := by
  induction cs with
  | nil => exact absurd trivial h
  | cons c cs ih =>
    cases c with
    | static t =>
      by_cases ht : Unencoded t
      · obtain ⟨b, hb⟩ := ih fun hplain => h ⟨ht, hplain⟩
        refine ⟨t ++ '/' :: b, fun hat hplain => ?_⟩
        have hraw : acceptsRaw t t = true := decide_eq_true rfl
        have henc : acceptsEncoded t t = true := by
          rw [← acceptsRaw_eq_acceptsEncoded ht]
          exact hraw
        have hnext := Cursor.nextSegment_slash hat ht.not_mem_slash
        exact hb (hat.slash _) ((hplain t _ hnext).1 ⟨hraw, henc⟩)
      · obtain ⟨raw, hraw, hslash⟩ := exists_encoded t
        refine ⟨raw ++ '/' :: ['x'], fun {path a inner} hat hplain => ?_⟩
        have hno : acceptsRaw t raw = false := by
          refine decide_eq_false fun heq => ht ?_
          rw [hraw] at heq
          exact (Percent.encode_eq_self_iff _).mp heq
        have hyes : acceptsEncoded t raw = true := decide_eq_true hraw
        have hnext := Cursor.nextSegment_slash hat hslash
        obtain ⟨hpos, -⟩ :=
          (hplain raw _ hnext).2 (by rw [hno, hyes]; exact Bool.false_ne_true)
        have hnil := (hat.slash (inner.popped + 1)).pos_eq_iff.mp hpos
        cases hnil
    | singleParam ty =>
      have hex : (∃ s x, '/' ∉ s ∧ T.fromEncodedStr ty s = .ok x) ∧ ¬ Plain cs := by
        by_contra hno
        refine h fun hs => ?_
        by_contra hcs
        exact hno ⟨hs, hcs⟩
      obtain ⟨⟨s, x, hs, hx⟩, hcs⟩ := hex
      obtain ⟨b, hb⟩ := ih hcs
      refine ⟨s ++ '/' :: b, fun hat hplain => ?_⟩
      have hnext := Cursor.nextSegment_slash hat hs
      exact hb (hat.slash _) (hplain s x _ hnext hx)
    | catchAllParam ty => exact absurd trivial h

end

/-! ## The two endpoints -/

/-- **When the macro agrees with the `and` chain.**  For every literal that `parse_path` accepts,
the generated code and the chain come to the same on every request and from every cursor, iff no
static component that can be reached has a character that is encoded in a segment. -/
theorem extract_agrees_iff (T : PathTypes ε) (lit : Str) :
    ∀ cs, parsePath T lit = .ok cs →
      ((∀ (addr : Nat) (request : Request) (cursor : CursorInner),
        (path T cs : Endpoint ε Bd Env _).Agrees (chain T cs) ⟨.new addr request, cursor⟩) ↔
      Plain cs) := by
  intro cs _
  constructor
  · intro hagree
    by_contra hplain
    obtain ⟨b, hb⟩ := exists_not_plainAt hplain
    let request : Request := ⟨.get, .origin ⟨'/' :: b, none, rfl⟩, []⟩
    have hat : Cursor.At request.uri.path ['/'] b ⟨1, 0⟩ := ⟨rfl, rfl⟩
    exact hb hat ((extract_agrees_at_iff Bd Env cs _).mp (hagree 0 request ⟨1, 0⟩))
  · intro hplain addr request cursor
    exact (extract_agrees_at_iff Bd Env cs _).mpr (plainAt_of_plain hplain _ _)

/-! ## A literal with a space -/

/-- No types. -/
def noTypes : PathTypes Empty :=
  ⟨Empty, fun _ => .error "unsupported type", Empty.elim, fun ty => ty.elim⟩

/-- `path!("/foo/bar")` on `GET /foo/bar`. -/
theorem extract_agrees_iff_plain :
    (path noTypes [.static "foo".toList, .static "bar".toList] : Endpoint Empty Unit Unit []).Agrees
      (chain noTypes [.static "foo".toList, .static "bar".toList])
      ⟨.new 0 ⟨.get, .origin ⟨"/foo/bar".toList, none, rfl⟩, []⟩, ⟨1, 0⟩⟩ :=
  (extract_agrees_iff noTypes "/foo/bar".toList _ rfl).mpr
    ⟨unencoded_of_all (by decide), unencoded_of_all (by decide), trivial⟩ _ _ _

/-- `path!("/a b")` on `GET /a%20b`: the generated code fails, `segment("a b")` does not. -/
theorem extract_disagrees_space :
    parsePath noTypes "/a b".toList = .ok [.static "a b".toList] ∧
    ¬ (path noTypes [.static "a b".toList] : Endpoint Empty Unit Unit []).Agrees
      (chain noTypes [.static "a b".toList])
      (.new (.new 0 ⟨.get, .origin ⟨"/a%20b".toList, none, rfl⟩, []⟩)) := by
  refine ⟨rfl, Differ.not_agrees ⟨none, some HList.nil, ⟨6, 1⟩, ⟨6, 1⟩, rfl, rfl, Or.inr ?_⟩⟩
  simp

end Finchers
