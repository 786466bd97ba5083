import Finchers.PathMacro
import Finchers.StrictTree
import Finchers.Endpoint.Verb
import Finchers.Selected
import Mathlib.Data.List.TakeWhile

/-!
# A table of routes

What an application writes: for each route a method, a path, `eos()` and a handler, all routes
joined by `or_strict`.  `Route.answer` says what that is for, on the text of the path alone, without
cursors, actions and polls: the first route that matches calls its handler, and the future of the
handler is polled until it has the response.

* `headSegment`, `matchPath` — the components against a text; `walk_text` — the walk along the path
  does this;
* `Route.endpoint`, `Route.gives` — the endpoint of a route matches iff the route does;
* `Endpoint.Gives.run_andThen` — a run of an `and_then` whose input is there is a run of the future;
* `routes_dispatch` — **a tree of `or_strict`s over the routes answers as the table does**.
-/

set_option autoImplicit false

namespace Finchers

open Resumable Component

variable {ε Bd Env Out : Type} {ts : List Type} {T : PathTypes ε}

/-! ## Components against a text -/

/-- The text before the first slash, and the text behind it; nothing if there is no text. -/
def headSegment (b : Str) : Option (Str × Str) :=
  if b = [] then none else some (b.takeWhile (· ≠ '/'), (b.dropWhile (· ≠ '/')).drop 1)

@[simp] theorem headSegment_nil : headSegment [] = none := rfl

theorem headSegment_slash {s : Str} (hs : '/' ∉ s) (t : Str) :
    headSegment (s ++ '/' :: t) = some (s, t) := by
  have hall : ∀ c ∈ s, decide (c ≠ '/') = true := by
    intro c hc
    rw [decide_eq_true_eq]
    intro heq
    rw [heq] at hc
    exact hs hc
  have hne : s ++ '/' :: t ≠ [] := by simp
  rw [headSegment, if_neg hne, List.takeWhile_append_of_pos hall, List.dropWhile_append_of_pos hall]
  simp

theorem headSegment_last {b : Str} (hne : b ≠ []) (hb : '/' ∉ b) :
    headSegment b = some (b, []) := by
  have hall : ∀ c ∈ b, decide (c ≠ '/') = true := by
    intro c hc
    rw [decide_eq_true_eq]
    intro heq
    rw [heq] at hc
    exact hb hc
  rw [headSegment, if_neg hne, List.takeWhile_eq_self_iff.mpr hall,
    List.dropWhile_eq_nil_iff.mpr hall]
  rfl

/-- `next_segment` takes the first segment of the text it stands before. -/
theorem nextSegment_head {path a b : Str} {inner : CursorInner} (h : Cursor.At path a b inner) :
    (headSegment b = none ∧ b = [] ∧ Cursor.nextSegment path inner = .ok (none, inner)) ∨
    ∃ s t a' inner', headSegment b = some (s, t) ∧
      Cursor.nextSegment path inner = .ok (some s, inner') ∧ Cursor.At path a' t inner' := by
  rcases hf : Utf8.find '/' b with _ | n
  · by_cases hne : b = []
    · subst hne
      exact Or.inl ⟨rfl, rfl, Cursor.nextSegment_end h⟩
    · have hb := Utf8.find_eq_none_iff.mp hf
      exact Or.inr ⟨b, [], _, _, headSegment_last hne hb, Cursor.nextSegment_last h hne hb,
        h.end _⟩
  · obtain ⟨s, t, rfl, hs, -⟩ := Utf8.find_eq_some_iff.mp hf
    exact Or.inr ⟨s, t, _, _, headSegment_slash hs t, Cursor.nextSegment_slash h hs, h.slash _⟩

/-- A component against a text: its values, and the text behind what it takes. -/
def Component.matchText (accepts : Str → Str → Bool) :
    (c : Component T.Ty) → Str → Option (HList c.outputs × Str)
  | .static t, b =>
    (headSegment b).bind fun r => if accepts t r.1 then some (.nil, r.2) else none
  | .singleParam ty, b =>
    (headSegment b).bind fun r =>
      (T.fromEncodedStr ty r.1).toOption.map fun x => (HList.single x, r.2)
  | .catchAllParam ty, b => (T.fromEncodedStr ty b).toOption.map fun x => (HList.single x, [])

/-- The components one after the other, each on what the last one left. -/
def matchPath (accepts : Str → Str → Bool) : {ts : List Type} → HList ts →
    (cs : List (Component T.Ty)) → Str → Option (HList (outputTypes ts cs) × Str)
  | _, xs, [], b => some (xs, b)
  | _, xs, c :: cs, b =>
    (c.matchText accepts b).bind fun r => matchPath accepts (xs.combine r.1) cs r.2

/-- What a walk comes to, against the text `b` it starts before. -/
def WalksAs {α : Type} (path : Str) (r : Except ActionPanic (Option α × CursorInner))
    (spec : Option (α × Str)) : Prop :=
  (∃ c, r = .ok (none, c) ∧ spec = none) ∨
    ∃ x rest a c, r = .ok (some x, c) ∧ spec = some (x, rest) ∧ Cursor.At path a rest c

theorem Component.step_text (accepts : Str → Str → Bool) (c : Component T.Ty)
    {cx : PreflightContext} {a b : Str} (h : Cursor.At cx.path a b cx.cursor) :
    WalksAs cx.path (c.step accepts cx) (c.matchText accepts b) := by
  cases c with
  | static t =>
    rcases nextSegment_head h with ⟨hhead, -, hnext⟩ | ⟨s, rest, a', inner', hhead, hnext, hat⟩
    · exact Or.inl ⟨cx.cursor, by rw [step, hnext]; rfl, by rw [matchText, hhead]; rfl⟩
    · by_cases hacc : accepts t s = true
      · refine Or.inr ⟨.nil, rest, a', inner', ?_, ?_, hat⟩
        · rw [step, hnext]
          simp [bind, Except.bind, hacc]
          rfl
        · simp [matchText, hhead, hacc]
      · refine Or.inl ⟨inner', ?_, ?_⟩
        · rw [step, hnext]
          simp [bind, Except.bind, hacc]
          rfl
        · simp [matchText, hhead, hacc]
  | singleParam ty =>
    rcases nextSegment_head h with ⟨hhead, -, hnext⟩ | ⟨s, rest, a', inner', hhead, hnext, hat⟩
    · exact Or.inl ⟨cx.cursor, by rw [step, hnext]; rfl, by rw [matchText, hhead]; rfl⟩
    · rcases hx : T.fromEncodedStr ty s with err | x
      · refine Or.inl ⟨inner', ?_, ?_⟩
        · rw [step, hnext]
          simp [bind, Except.bind, hx, Except.toOption]
          rfl
        · simp [matchText, hhead, hx, Except.toOption]
      · refine Or.inr ⟨.single x, rest, a', inner', ?_, ?_, hat⟩
        · rw [step, hnext]
          simp [bind, Except.bind, hx, Except.toOption]
          rfl
        · simp [matchText, hhead, hx, Except.toOption]
  | catchAllParam ty =>
    have hrest : Cursor.remainingPath cx.path cx.cursor = .ok b := by
      rw [Cursor.remainingPath, h.sliceFrom]
      rfl
    obtain ⟨n, inner', hcount, hend⟩ := Cursor.count_at h
    rcases hx : T.fromEncodedStr ty b with err | x
    · refine Or.inl ⟨inner', ?_, ?_⟩
      · rw [step, hrest]
        simp [bind, Except.bind, hcount, hx, Except.toOption]
        rfl
      · simp [matchText, hx, Except.toOption]
    · refine Or.inr ⟨.single x, [], _, inner', ?_, ?_, hend⟩
      · rw [step, hrest]
        simp [bind, Except.bind, hcount, hx, Except.toOption]
        rfl
      · simp [matchText, hx, Except.toOption]

/-- **The walk along the path matches the text that is left of it.** -/
theorem walk_text (accepts : Str → Str → Bool) (cs : List (Component T.Ty)) (xs : HList ts)
    {cx : PreflightContext} {a b : Str} (h : Cursor.At cx.path a b cx.cursor) :
    WalksAs cx.path (walk accepts xs cs cx) (matchPath accepts xs cs b) := by
  induction cs generalizing ts cx a b with
  | nil => exact Or.inr ⟨xs, b, a, cx.cursor, rfl, rfl, h⟩
  | cons c cs ih =>
    rcases c.step_text accepts h with ⟨inner, hstep, hspec⟩ |
      ⟨x, rest, a', inner, hstep, hspec, hat⟩
    · exact Or.inl ⟨inner, by rw [walk, hstep], by rw [matchPath, hspec]; rfl⟩
    · have hnext : Cursor.At ({ cx with cursor := inner } : PreflightContext).path a' rest
          ({ cx with cursor := inner } : PreflightContext).cursor := hat
      rw [walk, hstep, matchPath, hspec]
      exact ih (xs.combine x) hnext

/-! ## Routes -/

/-- How the path of a route is written: with the `path!` macro, or as an `and` chain. -/
inductive PathSyntax where
  | generated
  | chained

/-- How a static component is compared. -/
def PathSyntax.accepts : PathSyntax → Str → Str → Bool
  | .generated => acceptsRaw
  | .chained => acceptsEncoded

/-- A route of an application, and the future of its handler. -/
structure Route (T : PathTypes ε) (Env Out : Type) where
  method : Method
  written : PathSyntax
  components : List (Component T.Ty)
  Fut : Type
  fut : FutureAction ε Env Fut Out
  handler : HList (outputTypes [] components ++ []) → Fut

namespace Route

def path (r : Route T Env Out) : Endpoint ε Bd Env (outputTypes [] r.components) :=
  match r.written with
  | .generated => Finchers.path T r.components
  | .chained => chain T r.components

/-- What is matched before the handler is called. -/
def guard (r : Route T Env Out) : Endpoint ε Bd Env (outputTypes [] r.components ++ []) :=
  .and (.and (.oneshot Unit (MatchVerbAction r.method) ()) r.path)
    (.oneshot Unit MatchEosAction ())

/-- `method().and(path).and(eos()).and_then(handler)`. -/
def endpoint (r : Route T Env Out) : Endpoint ε Bd Env [Out] :=
  .andThen r.Fut r.guard r.fut r.handler

/-- The future that the handler returns for a request that the route matches. -/
def target (r : Route T Env Out) (request : Request) : Option r.Fut :=
  if request.method = r.method then
    match matchPath r.written.accepts HList.nil r.components (request.uri.path.drop 1) with
    | some (xs, []) => some (r.handler (xs.combine HList.nil))
    | _ => none
  else none

end Route

/-- Poll the future of a handler until it has its result, with the schedule of `drive`. -/
def runFuture {Fut : Type} (fut : FutureAction ε Env Fut Out) :
    List (Thread Env → Thread Env) → Fut → Thread Env →
      Option (Except (Error ε) Out) × Thread Env
  | [], _, th => (none, th)
  | g :: gs, s, th =>
    match fut.poll s (g th) with
    | (.ok (.ready x), _, th) => (some (.ok x), th)
    | (.ok .notReady, s, th) => runFuture fut gs s th
    | (.error err, _, th) => (some (.error err), th)

/-- **The table of the routes:** the first route that matches answers. -/
def Route.answer (request : Request) (gs : List (Thread Env → Thread Env)) (th : Thread Env)
    (routes : List (Route T Env Out)) : Option (Option (Except (Error ε) Out) × Thread Env) :=
  routes.findSome? fun r => (r.target request).map fun s => runFuture r.fut gs s th

/-! ## A run of an `and_then` -/

open AppFuture

/-- A poll of an `and_then` with a future in flight. -/
theorem poll_inFlight_eq {Fut : Type} (e : Endpoint ε Bd Env ts) (fut : FutureAction ε Env Fut Out)
    (f : HList ts → Fut) (a : e.Action) {s s' : Fut} {th th' : Thread Env} {r : Poll (Error ε) Out}
    (cx : ActionContext Bd) (h : fut.poll s th = (r, s', th')) :
    (e.andThen Fut fut f).impl.pollAction ⟨a, some s⟩ ⟨cx, th⟩ =
      ⟨[⟨[], .pollFuture th.slot (.of r)⟩],
        .ok (r.map HList.single, ⟨a, some s'⟩, ⟨cx, th'⟩)⟩ := by
  show pollInFlight fut a s ⟨cx, th⟩ = _
  simp only [pollInFlight, FutureAction.pollInFlight, h]
  rfl

/-- A future in flight is polled as `runFuture` does. -/
theorem run_inFlight {Fut : Type} (e : Endpoint ε Bd Env ts) (fut : FutureAction ε Env Fut Out)
    (f : HList ts → Fut) (gs : List (Thread Env → Thread Env)) (a : e.Action) (s : Fut)
    (context : Context) (body : Option Bd) (th : Thread Env) :
    (observe (drive (e.andThen Fut fut f).impl gs ⟨.inFlight ⟨a, some s⟩, context, body⟩ th)).res =
      .ok ((runFuture fut gs s th).1.map (Except.map HList.single), context, body,
        (runFuture fut gs s th).2) := by
  induction gs generalizing s th with
  | nil => rfl
  | cons g gs ih =>
    rcases hfut : fut.poll s (g th) with ⟨r, s', th'⟩
    have hpoll := poll_inFlight_eq e fut f a ⟨context, body⟩ hfut
    simp only [drive, pollApply, AppFuture.pollInFlight, world, hpoll, runFuture, hfut]
    rcases r with err | (x | -)
    · rfl
    · rfl
    · simp only [Traced.mk_ok_bind, Traced.pure_def, Traced.prepend_mk, List.append_nil, Poll.map]
      rw [observe_prepend]
      exact ih s' th'

/-- Two states that are polled alike, but for what is recorded first, run alike. -/
theorem drive_prepend_poll {σ : Type} {f : EndpointAction ε Bd Env σ ts} {s s' : σ} {l : List Event}
    {context : Context} {body : Option Bd} {g : Thread Env → Thread Env} {th : Thread Env}
    (h : f.pollAction s ⟨⟨context, body⟩, g th⟩ =
      (f.pollAction s' ⟨⟨context, body⟩, g th⟩).prepend l)
    (gs : List (Thread Env → Thread Env)) :
    drive f (g :: gs) ⟨.inFlight s, context, body⟩ th =
      (drive f (g :: gs) ⟨.inFlight s', context, body⟩ th).prepend l := by
  simp only [drive, pollApply, AppFuture.pollInFlight, world, h]
  rcases (f.pollAction s' ⟨⟨context, body⟩, g th⟩).eq_ok_or_error with ⟨l', x, hx⟩ | ⟨l', p, hx⟩
  · rw [hx]
    simp [Traced.prepend_prepend]
  · rw [hx]
    simp

/-- **A run of an `and_then` whose input is there is a run of the future.** -/
theorem Endpoint.Gives.run_andThen {Fut : Type} {e : Endpoint ε Bd Env ts} {context : Context}
    {x : HList ts} {c : CursorInner} (h : e.Gives (.new context) (.ok (some x, c)))
    (fut : FutureAction ε Env Fut Out) (f : HList ts → Fut) (body : Option Bd)
    (g : Thread Env → Thread Env) (gs : List (Thread Env → Thread Env)) (th : Thread Env) :
    (observe (drive (e.andThen Fut fut f).impl (g :: gs)
      ⟨.start (some (e.andThen Fut fut f).spawn), context, body⟩ th)).res =
      .ok ((runFuture fut (g :: gs) (f x) th).1.map (Except.map HList.single), context, body,
        (runFuture fut (g :: gs) (f x) th).2) := by
  obtain ⟨y, s, hp, hy⟩ := h
  have hpre := preflight_eq_mk hp
  rcases hy with rfl | ⟨rfl, hpoll⟩
  · -- the closure is called in `preflight`
    have hthen : (e.andThen Fut fut f).preflight (.new context) = _ :=
      AndThenAction.preflight_completed hpre
    have hrun := drive_incomplete hthen body g gs th
    rw [hrun, observe_prepend]
    exact run_inFlight e fut f (g :: gs) s (f x) context body th
  · -- the closure is called in the first poll, which goes on with its future
    have hthen : (e.andThen Fut fut f).preflight (.new context) = _ :=
      AndThenAction.preflight_incomplete hpre
    have hrun := drive_incomplete hthen body g gs th
    rw [hrun, observe_prepend]
    obtain ⟨s', hs'⟩ := hpoll ⟨⟨context, body⟩, g th⟩
    have hinner : e.pollAction s ⟨⟨context, body⟩, g th⟩ = ⟨_, .ok (.ok (.ready x), s', _)⟩ :=
      Traced.ext rfl hs'
    have hnext : (e.andThen Fut fut f).impl.pollAction ⟨s, none⟩ ⟨⟨context, body⟩, g th⟩ =
        ((e.andThen Fut fut f).impl.pollAction ⟨s', some (f x)⟩ ⟨⟨context, body⟩, g th⟩).prepend
          ((e.pollAction s ⟨⟨context, body⟩, g th⟩).log.map (Event.under .inner) ++
            [⟨[], .call⟩]) := by
      show under .inner (e.pollAction s ⟨⟨context, body⟩, g th⟩) >>= _ = _
      rw [hinner]
      simp only [under, Traced.mapLog_mk, Traced.mk_ok_bind]
      rw [← Traced.prepend_prepend]
      rfl
    have hgo := drive_prepend_poll hnext gs
    rw [hgo, observe_prepend]
    exact run_inFlight e fut f (g :: gs) s' (f x) context body th

/-! ## One route -/

namespace Route

variable (Bd) in
theorem path_gives (r : Route T Env Out) (cx : PreflightContext) :
    (r.path : Endpoint ε Bd Env _).Gives cx
      (outcome (walk r.written.accepts HList.nil r.components cx)) := by
  unfold path
  cases r.written with
  | generated => exact Finchers.path_gives Bd Env r.components cx
  | chained => exact chain_gives Bd Env r.components cx

variable (Bd) in
/-- What the endpoint of a route comes to is what the route says, on the text that is left. -/
theorem gives (r : Route T Env Out) {cx : PreflightContext} {a : Str}
    (h : Cursor.At cx.path a (cx.path.drop 1) cx.cursor) :
    (r.target cx.context.request = none ∧
      ∃ c, (r.guard : Endpoint ε Bd Env _).Gives cx (.ok (none, c))) ∨
    ∃ xs c, r.target cx.context.request = some (r.handler xs) ∧
      (r.guard : Endpoint ε Bd Env _).Gives cx (.ok (some xs, c)) := by
  have hverb := Endpoint.gives_oneshot Bd Env (MatchVerbAction (ε := ε) r.method) () cx
  simp only [MatchVerbAction] at hverb
  by_cases hmethod : cx.context.request.method = r.method
  · rw [if_pos hmethod] at hverb
    have hpath := r.path_gives Bd cx
    rcases walk_text r.written.accepts r.components HList.nil h with ⟨c, hwalk, hspec⟩ |
      ⟨xs, rest, a', c, hwalk, hspec, hat⟩
    · rw [hwalk] at hpath
      refine Or.inl ⟨?_, c, (hverb.and_failed_right hpath).and_failed⟩
      have hspec : matchPath _ _ _ (cx.context.request.uri.path.drop 1) = none := hspec
      rw [target, if_pos hmethod, hspec]
    · rw [hwalk] at hpath
      have hboth := hverb.and_ok hpath
      have heos :=
        Endpoint.gives_oneshot Bd Env (MatchEosAction (ε := ε)) () { cx with cursor := c }
      simp only [MatchEosAction] at heos
      rcases nextSegment_head hat with ⟨-, rfl, hnext⟩ | ⟨s, t, a'', c', hhead, hnext, -⟩
      · have hspec : matchPath _ _ _ (cx.context.request.uri.path.drop 1) = some (xs, []) := hspec
        simp only [PreflightContext.path] at hnext heos
        rw [hnext] at heos
        refine Or.inr ⟨_, _, ?_, hboth.and_ok heos⟩
        rw [target, if_pos hmethod, hspec]
        rfl
      · have hspec : matchPath _ _ _ (cx.context.request.uri.path.drop 1) = some (xs, rest) := hspec
        simp only [PreflightContext.path] at hnext heos
        rw [hnext] at heos
        refine Or.inl ⟨?_, c', hboth.and_failed_right heos⟩
        rw [target, if_pos hmethod, hspec]
        cases rest with
        | nil => cases hhead
        | cons => rfl
  · rw [if_neg hmethod] at hverb
    refine Or.inl ⟨by rw [target, if_neg hmethod], cx.cursor, ?_⟩
    exact Endpoint.Gives.and_failed (Endpoint.Gives.and_failed hverb)

/-- A route that does not match fails, and one that matches does not. -/
theorem fails_iff (r : Route T Env Out) {cx : PreflightContext} {a : Str}
    (h : Cursor.At cx.path a (cx.path.drop 1) cx.cursor) (p : Place) :
    (∃ err, (⟨r.endpoint, p⟩ : Leaf ε Bd Env [Out]).Fails cx err) ↔
      r.target cx.context.request = none := by
  rcases r.gives Bd h with ⟨hnone, c, err, s, hp⟩ | ⟨xs, c, hsome, y, s, hp, -⟩
  · have hthen : (r.endpoint : Endpoint ε Bd Env _).preflight cx = _ :=
      AndThenAction.preflight_failed (preflight_eq_mk hp)
    exact ⟨fun _ => hnone, fun _ => ⟨err, _, c, congrArg Traced.res hthen⟩⟩
  · rw [hsome]
    refine ⟨fun hfail => ?_, fun hsome => by cases hsome⟩
    obtain ⟨err, s', c', hfail⟩ := hfail
    have hthen : ∃ s', ((r.endpoint : Endpoint ε Bd Env _).preflight cx).res =
        .ok (.ok .incomplete, s', c) := by
      cases y with
      | completed x =>
        have hthen : (r.endpoint : Endpoint ε Bd Env _).preflight cx = _ :=
          AndThenAction.preflight_completed (preflight_eq_mk hp)
        exact ⟨_, congrArg Traced.res hthen⟩
      | incomplete =>
        have hthen : (r.endpoint : Endpoint ε Bd Env _).preflight cx = _ :=
          AndThenAction.preflight_incomplete (preflight_eq_mk hp)
        exact ⟨_, congrArg Traced.res hthen⟩
    obtain ⟨s'', hok⟩ := hthen
    cases hok.symm.trans hfail

end Route

/-! ## The table -/

theorem StrictTree.Nested.statusCode [HttpError ε] {t : StrictTree ε Bd Env ts}
    {errs : List (Error ε)} {err : Error ε} (h : t.Nested errs err) (hlen : 1 < t.leaves.length) :
    err.statusCode = 404 := by
  cases h with
  | leaf =>
    have hone : (1 : Nat) < 1 := hlen
    omega
  | orStrict => rfl

/-- The first cursor stands behind the first character of the path. -/
theorem cursor_start {request : Request} (hform : request.uri.isAuthorityForm = false)
    (addr : Nat) :
    ∃ a, Cursor.At (PreflightContext.new (.new addr request)).path a
      ((PreflightContext.new (.new addr request)).path.drop 1) ⟨1, 0⟩ := by
  obtain ⟨a, b, h⟩ := Cursor.within_start hform 0
  have hone : ∃ c, a = [c] := by
    have hlen : Utf8.len a = 1 := h.pos
    cases a with
    | nil => cases hlen
    | cons c a =>
      have hpos := c.utf8Size_pos
      rw [Utf8.len_cons] at hlen
      have hrest : Utf8.len a = 0 := by omega
      exact ⟨c, by rw [Utf8.len_eq_zero_iff.mp hrest]⟩
  obtain ⟨c, rfl⟩ := hone
  show ∃ a, Cursor.At request.uri.path a (request.uri.path.drop 1) ⟨1, 0⟩
  rw [h.split]
  exact ⟨[c], rfl, h.pos⟩

/-- Routes that do not match are passed over. -/
theorem Route.answer_append {request : Request} {gs : List (Thread Env → Thread Env)}
    {th : Thread Env} {before after : List (Route T Env Out)}
    (h : ∀ r ∈ before, r.target request = none) :
    Route.answer request gs th (before ++ after) = Route.answer request gs th after := by
  have hnone : Route.answer request gs th before = none := by
    refine List.findSome?_eq_none_iff.mpr fun r hr => ?_
    rw [h r hr]
    rfl
  unfold Route.answer at hnone ⊢
  rw [List.findSome?_append, hnone]
  rfl

/-- **A tree of `or_strict`s over routes answers as their table does.**  Whatever the association of
the tree: if a route matches the method and the whole path of the request, then the run is the run
of the future that the handler of the first such route returns for the values of its path, and the
context and the body are left as they came.  If none does, the run fails at its first poll, with
`404 Not Found` unless there is only one route. -/
theorem routes_dispatch [HttpError ε] (t : StrictTree ε Bd Env [Out])
    (routes : List (Route T Env Out))
    (ht : t.leaves.map Leaf.endpoint = routes.map Route.endpoint) (addr : Nat) (request : Request)
    (hform : request.uri.isAuthorityForm = false) (body : Bd) (g : Thread Env → Thread Env)
    (gs : List (Thread Env → Thread Env)) (th : Thread Env) :
    let run := observe (drive t.endpoint.impl (g :: gs) (.dispatch t.endpoint addr request body) th)
    (∀ r th', Route.answer request (g :: gs) th routes = some (r, th') →
      run.res = .ok (r.map (Except.map HList.single), .new addr request, some body, th')) ∧
    (Route.answer request (g :: gs) th routes = none →
      ∃ err, run.res = .ok (some (.error err), .new addr request, some body, g th) ∧
        (1 < routes.length → err.statusCode = 404)) := by
  intro run
  obtain ⟨a0, hat⟩ := cursor_start hform addr
  have hlen : t.leaves.length = routes.length := by
    have h := congrArg List.length ht
    rwa [List.length_map, List.length_map] at h
  -- a leaf fails iff its route does not match
  have hfails : ∀ (r : Route T Env Out) (b : Leaf ε Bd Env [Out]), b.endpoint = r.endpoint →
      ((∃ err, b.Fails (.new (.new addr request)) err) ↔ r.target request = none) := by
    intro r b hb
    obtain ⟨e, p⟩ := b
    have he : e = r.endpoint := hb
    subst he
    exact r.fails_iff hat p
  rcases t.decides (.new (.new addr request)) with ⟨before, a, after, hmost, hgoes⟩ |
    ⟨errs, hall, err, s, c, hnested, hp⟩
  · rw [hmost.split, List.map_append, List.map_cons] at ht
    obtain ⟨routes1, rest, rfl, hbefore, hrest⟩ := List.map_eq_append_iff.mp ht.symm
    obtain ⟨r, routes2, rfl, hr, -⟩ := List.map_eq_cons_iff.mp hrest
    have hskip : ∀ r' ∈ routes1, r'.target request = none := by
      intro r' hr'
      have hmem := List.mem_map_of_mem (f := (Route.endpoint : _ → Endpoint ε Bd Env _)) hr'
      rw [hbefore] at hmem
      obtain ⟨b, hb, heq⟩ := List.mem_map.mp hmem
      exact (hfails r' b heq).mp (hmost.failed b hb)
    have hstays : r.target request ≠ none := by
      intro hnone
      obtain ⟨err, herr⟩ := (hfails r a hr.symm).mpr hnone
      exact hmost.stays err herr
    rcases r.gives Bd hat with ⟨hnone, -⟩ | ⟨xs, c, htarget, hgives⟩
    · exact absurd hnone hstays
    · have htarget : r.target request = some (r.handler xs) := htarget
      have hans : Route.answer request (g :: gs) th (routes1 ++ r :: routes2) =
          some (runFuture r.fut (g :: gs) (r.handler xs) th) := by
        rw [Route.answer_append hskip, Route.answer, List.findSome?_cons, htarget]
        rfl
      have hrun := hgoes.run (some body) g gs th
      have hres : run.res = .ok ((runFuture r.fut (g :: gs) (r.handler xs) th).1.map
          (Except.map HList.single), .new addr request, some body,
          (runFuture r.fut (g :: gs) (r.handler xs) th).2) := by
        obtain ⟨e, p⟩ := a
        have he : e = r.endpoint := hr.symm
        subst he
        exact (congrArg Traced.res hrun).trans
          (hgives.run_andThen r.fut r.handler (some body) g gs th)
      rw [hans]
      refine ⟨fun x th' hx => ?_, fun hx => by cases hx⟩
      rw [hres, Option.some.inj hx]
  · have hrun := drive_failed hp (some body) g gs th
    have hnone : Route.answer request (g :: gs) th routes = none := by
      refine List.findSome?_eq_none_iff.mpr fun r hr => ?_
      have hmem := List.mem_map_of_mem (f := (Route.endpoint : _ → Endpoint ε Bd Env _)) hr
      rw [← ht] at hmem
      obtain ⟨b, hb, heq⟩ := List.mem_map.mp hmem
      rw [(hfails r b heq).mp (StrictTree.exists_fails hall b hb)]
      rfl
    refine ⟨fun x th' hx => ?_, fun _ => ⟨err, ?_, fun hlong => ?_⟩⟩
    · rw [hnone] at hx
      cases hx
    · exact (congrArg (fun m => (observe m).res) hrun).trans rfl
    · exact hnested.statusCode (hlen ▸ hlong)

/-- `get().and(path!("/…")).and(eos()).and_then(…)`, with a path of one static segment. -/
def routeOf (s : String) (written : PathSyntax) (n : Nat) : Route noTypes Unit Nat :=
  ⟨.get, written, [.static s.toList], Nat, readyFuture, fun _ => n⟩

/-- Two routes, and `GET /a`. -/
theorem routes_dispatch_second :
    (observe (drive (StrictTree.orStrict (.leaf (routeOf "b" .generated 1).endpoint)
      (.leaf (routeOf "a" .chained 2).endpoint)).endpoint.impl [id]
      (.dispatch (StrictTree.orStrict (.leaf (routeOf "b" .generated 1).endpoint)
        (.leaf (routeOf "a" .chained 2).endpoint)).endpoint 0 getA ()) ⟨none, ()⟩)).res =
      .ok (some (.ok (.single 2)), .new 0 getA, some (), ⟨none, ()⟩) :=
  (routes_dispatch (.orStrict (.leaf (routeOf "b" .generated 1).endpoint)
    (.leaf (routeOf "a" .chained 2).endpoint)) [routeOf "b" .generated 1, routeOf "a" .chained 2]
    rfl 0 getA rfl () id [] ⟨none, ()⟩).1 (some (.ok 2)) ⟨none, ()⟩ rfl

end Finchers
