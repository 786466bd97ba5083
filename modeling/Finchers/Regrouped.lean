import Finchers.Endpoint.Poll
import Finchers.Endpoint.Preflight
import Finchers.Endpoint.Syntax
import Finchers.Passing
import Finchers.Tuples

/-!
# Regrouping `and`

`and(and(a, b), c)` keeps the outputs of `a` and `b` in cells of its left component until both are
there, `and(a, and(b, c))` keeps that of `a` in a cell of its own.

* `regroup` — a place in the one as a place in the other;
* `Regrouped` — the states that both are in at the same time, and `regrouped_bisim`: polls from such
  states answer alike;
* `Outputs` — the outputs of an action; `AndAction.outputs` — those of an `and` are combinations;
* `and_regroups` — **both groupings route and run alike, and yield the outputs of `a`, `b` and `c` in a
  row; `unit()` is neutral for the result**.
-/

set_option autoImplicit false

namespace Finchers

open Resumable

variable {ε Bd Env σ τ ρ : Type} {ts us vs : List Type}

/-! ## Places -/

/-- Where a place of `and(and(a, b), c)` is in `and(a, and(b, c))`. -/
def regroup : Place → Place
  | .left :: .left :: p => .left :: p
  | .left :: .right :: p => .right :: .left :: p
  | .right :: p => .right :: .right :: p
  | p => p

def Event.regroup (e : Event) : Event := ⟨Finchers.regroup e.place, e.what⟩

theorem regroup_first (l : List Event) :
    ((l.map (Event.under .left)).map (Event.under .left)).map Event.regroup =
      l.map (Event.under .left) := by
  simp [Event.under, Event.regroup, regroup, Function.comp_def]

theorem regroup_second (l : List Event) :
    ((l.map (Event.under .right)).map (Event.under .left)).map Event.regroup =
      (l.map (Event.under .left)).map (Event.under .right) := by
  simp [Event.under, Event.regroup, regroup, Function.comp_def]

theorem regroup_third (l : List Event) :
    (l.map (Event.under .right)).map Event.regroup =
      (l.map (Event.under .right)).map (Event.under .right) := by
  simp [Event.under, Event.regroup, regroup, Function.comp_def]

/-- The events of `a` and `b`. -/
theorem regroup_two (la lb : List Event) :
    ((la.map (Event.under .left) ++ lb.map (Event.under .right)).map (Event.under .left)).map
        Event.regroup =
      la.map (Event.under .left) ++ (lb.map (Event.under .left)).map (Event.under .right) := by
  rw [List.map_append, List.map_append, regroup_first, regroup_second]

/-- The events of `a`, `b` and `c`. -/
theorem regroup_three (la lb lc : List Event) :
    ((la.map (Event.under .left) ++ lb.map (Event.under .right)).map (Event.under .left) ++
        lc.map (Event.under .right)).map Event.regroup =
      la.map (Event.under .left) ++
        (lb.map (Event.under .left) ++ lc.map (Event.under .right)).map (Event.under .right) := by
  rw [List.map_append, regroup_two, regroup_third, List.map_append, List.append_assoc]

/-! ## One poll -/

section

variable (a : EndpointAction ε Bd Env σ ts) (b : EndpointAction ε Bd Env τ us)
  (c : EndpointAction ε Bd Env ρ vs)

/-- `and(and(a, b), c)`. -/
def andLeft : EndpointAction ε Bd Env (AndAction (AndAction σ τ ts us) ρ (ts ++ us) vs)
    (ts ++ us ++ vs) := AndAction.action (AndAction.action a b) c

/-- `and(a, and(b, c))`. -/
def andRight : EndpointAction ε Bd Env (AndAction σ (AndAction τ ρ us vs) ts (us ++ vs))
    (ts ++ (us ++ vs)) := AndAction.action a (AndAction.action b c)

/-- The states that both groupings are in at the same time: as long as `a` or `b` is not ready, each
holds the same three cells; from then on the one holds the outputs of `a` and `b` combined. -/
inductive Regrouped :
    AndAction (AndAction σ τ ts us) ρ (ts ++ us) vs →
      AndAction σ (AndAction τ ρ us vs) ts (us ++ vs) → Prop
  | flying {fa : MaybeDone σ (HList ts)} {fb : MaybeDone τ (HList us)} {fc : MaybeDone ρ (HList vs)} :
      Regrouped ⟨.inFlight ⟨fa, fb⟩, fc⟩ ⟨fa, .inFlight ⟨fb, fc⟩⟩
  | joined {va : HList ts} {vb : HList us} {fc : MaybeDone ρ (HList vs)} :
      Regrouped ⟨.ready (va.combine vb), fc⟩ ⟨.ready va, .inFlight ⟨.ready vb, fc⟩⟩

/-- The output of the one grouping as one of the other. -/
def reassoc : HList (ts ++ us ++ vs) → HList (ts ++ (us ++ vs)) :=
  HList.retype (List.append_assoc ts us vs)

variable {a b c}

/-- Both groupings poll `c`, with the outputs of `a` and `b` there. -/
theorem poll_third (va : HList ts) (vb : HList us) (fc : MaybeDone ρ (HList vs))
    (w : World Bd Env) :
    AlikeOn Event.regroup reassoc Regrouped
      ((andLeft a b c).pollAction ⟨.ready (va.combine vb), fc⟩ w)
      ((andRight a b c).pollAction ⟨.ready va, .inFlight ⟨.ready vb, fc⟩⟩ w) := by
  unfold andLeft andRight AndAction.action under
  simp only [MaybeDone.poll_ready, MaybeDone.poll_inFlight, Traced.mapLog_mk, List.map_nil,
    Traced.mk_ok_bind, Traced.prepend_nil]
  rcases MaybeDone.poll_cases c fc w with ⟨l, p, h⟩ | ⟨l, fc', w', h⟩ | ⟨l, err, fc', w', h⟩ |
    ⟨l, vc, w', h⟩
  · simp only [h, Traced.mapLog_mk, Traced.mk_error_bind]
    exact .panic (regroup_third l)
  · simp only [h, Traced.mapLog_mk, Traced.mk_ok_bind, Traced.pure_def, Traced.prepend_mk,
      List.append_nil]
    exact .notReady (regroup_third l) .joined
  · simp only [h, Traced.mapLog_mk, Traced.mk_ok_bind, Traced.pure_def, Traced.prepend_mk,
      List.append_nil]
    exact .err (regroup_third l)
  · simp only [h, Traced.mapLog_mk, Traced.mk_ok_bind, AndAction.takeItem, MaybeDone.takeItem,
      Traced.pure_def, Traced.prepend_mk, List.append_nil, ← HList.combine_assoc]
    exact .ready (regroup_third l)

/-- Both groupings poll `b`, with the output of `a` there. -/
theorem poll_second (va : HList ts) (fb : MaybeDone τ (HList us)) (fc : MaybeDone ρ (HList vs))
    (w : World Bd Env) :
    AlikeOn Event.regroup reassoc Regrouped
      ((andLeft a b c).pollAction ⟨.inFlight ⟨.ready va, fb⟩, fc⟩ w)
      ((andRight a b c).pollAction ⟨.ready va, .inFlight ⟨fb, fc⟩⟩ w) := by
  rcases MaybeDone.poll_cases b fb w with ⟨l, p, h⟩ | ⟨l, fb', w', h⟩ | ⟨l, err, fb', w', h⟩ |
    ⟨l, vb, w', h⟩
  case inr.inr.inr =>
    -- the first grouping combines both outputs before it goes on with `c`
    have hcell := MaybeDone.poll_now_ready h
    have hpair := AndAction.poll_right_goes_on a va hcell
    rw [AndAction.poll_both_ready, Traced.prepend_mk, List.append_nil] at hpair
    have hjoined : (MaybeDone.action (AndAction.action a b)).pollAction (.inFlight ⟨.ready va, fb⟩) w =
        ⟨l.map (Event.under .right), .ok (.ok (.ready ()), .ready (va.combine vb), w')⟩ := by
      simp only [MaybeDone.poll_inFlight, hpair, Traced.mk_ok_bind, Traced.pure_def,
        Traced.prepend_mk, List.append_nil]
    have hleft := AndAction.poll_left_goes_on c (MaybeDone.poll_now_ready hjoined) fc
    have hright := AndAction.poll_right_goes_on a va
      (MaybeDone.poll_goes_on (AndAction.poll_left_goes_on c hcell fc))
    have hrest := (poll_third (a := a) (b := b) (c := c) va vb fc w').prepend (regroup_second l)
    unfold andLeft andRight at hrest ⊢
    rw [hleft, hright]
    exact hrest
  all_goals
    unfold andLeft andRight AndAction.action under
    simp only [MaybeDone.poll_ready, MaybeDone.poll_inFlight, Traced.mapLog_mk, List.map_nil,
      Traced.mk_ok_bind, h, Traced.mk_error_bind, Traced.pure_def, Traced.prepend_mk,
      List.append_nil, List.nil_append]
  · exact .panic (regroup_second l)
  · exact .notReady (regroup_second l) .flying
  · exact .err (regroup_second l)

/-- **Polls of both groupings from related states answer alike.** -/
theorem regrouped_bisim :
    Bisim Event.regroup reassoc Regrouped (andLeft a b c).pollAction (andRight a b c).pollAction := by
  intro s m h w
  cases h with
  | @joined va vb fc => exact poll_third va vb fc w
  | @flying fa fb fc =>
    rcases MaybeDone.poll_cases a fa w with ⟨l, p, h⟩ | ⟨l, fa', w', h⟩ | ⟨l, err, fa', w', h⟩ |
      ⟨l, va, w', h⟩
    case inr.inr.inr =>
      have hcell := MaybeDone.poll_now_ready h
      have hleft := AndAction.poll_left_goes_on c
        (MaybeDone.poll_goes_on (AndAction.poll_left_goes_on b hcell fb)) fc
      have hright := AndAction.poll_left_goes_on (AndAction.action b c) hcell
        (.inFlight ⟨fb, fc⟩)
      have hrest := (poll_second (a := a) (b := b) (c := c) va fb fc w').prepend (regroup_first l)
      unfold andLeft andRight at hrest ⊢
      rw [hleft, hright]
      exact hrest
    all_goals
      unfold andLeft andRight AndAction.action under
      simp only [MaybeDone.poll_inFlight, Traced.mapLog_mk, Traced.mk_ok_bind, h,
        Traced.mk_error_bind, Traced.pure_def, Traced.prepend_mk, List.append_nil]
    · exact .panic (regroup_first l)
    · exact .notReady (regroup_first l) .flying
    · exact .err (regroup_first l)

/-! ## Routing -/

variable (sa : σ) (sb : τ) (sc : ρ)

/-- New actions, grouped to the left. -/
def newLeft : AndAction (AndAction σ τ ts us) ρ (ts ++ us) vs :=
  ⟨.init (some ⟨.init (some sa), .init (some sb)⟩), .init (some sc)⟩

/-- New actions, grouped to the right. -/
def newRight : AndAction σ (AndAction τ ρ us vs) ts (us ++ vs) :=
  ⟨.init (some sa), .init (some ⟨.init (some sb), .init (some sc)⟩)⟩

/-- Two outcomes of `preflight`, the second with the events of the first under another name: both
panic, both fail with one error, or both are incomplete in related states; the cursors are the same. -/
inductive RoutedAlike :
    Traced Panic Event (Except (Error ε) (Preflight (HList (ts ++ us ++ vs))) ×
      AndAction (AndAction σ τ ts us) ρ (ts ++ us) vs × CursorInner) →
    Traced Panic Event (Except (Error ε) (Preflight (HList (ts ++ (us ++ vs)))) ×
      AndAction σ (AndAction τ ρ us vs) ts (us ++ vs) × CursorInner) → Prop
  | panic {l l' : List Event} {p : Panic} (hl : l.map Event.regroup = l') :
      RoutedAlike ⟨l, .error p⟩ ⟨l', .error p⟩
  | failed {l l' : List Event} {err : Error ε} {s : AndAction (AndAction σ τ ts us) ρ (ts ++ us) vs}
      {m : AndAction σ (AndAction τ ρ us vs) ts (us ++ vs)} {cur : CursorInner}
      (hl : l.map Event.regroup = l') :
      RoutedAlike ⟨l, .ok (.error err, s, cur)⟩ ⟨l', .ok (.error err, m, cur)⟩
  | incomplete {l l' : List Event} {s : AndAction (AndAction σ τ ts us) ρ (ts ++ us) vs}
      {m : AndAction σ (AndAction τ ρ us vs) ts (us ++ vs)} {cur : CursorInner}
      (hl : l.map Event.regroup = l') (h : Regrouped s m) :
      RoutedAlike ⟨l, .ok (.ok .incomplete, s, cur)⟩ ⟨l', .ok (.ok .incomplete, m, cur)⟩

/-- **Both groupings route alike.** -/
theorem routed_alike (a : EndpointAction ε Bd Env σ ts) (b : EndpointAction ε Bd Env τ us)
    (c : EndpointAction ε Bd Env ρ vs) (cx : PreflightContext) :
    RoutedAlike ((andLeft a b c).preflight cx (newLeft sa sb sc))
      ((andRight a b c).preflight cx (newRight sa sb sc)) := by
  unfold andLeft andRight newLeft newRight
  rcases (a.preflight cx sa).eq_ok_or_error with ⟨la, ⟨ra, sa', c1⟩, ha⟩ | ⟨la, p, ha⟩
  swap
  · rw [AndAction.preflight_panic_left (AndAction.preflight_panic_left ha),
      AndAction.preflight_panic_left ha]
    exact .panic (regroup_first la)
  rcases ra with err | x
  · rw [AndAction.preflight_failed_left (AndAction.preflight_failed_left ha),
      AndAction.preflight_failed_left ha]
    exact .failed (regroup_first la)
  rcases (b.preflight { cx with cursor := c1 } sb).eq_ok_or_error with
    ⟨lb, ⟨rb, sb', c2⟩, hb⟩ | ⟨lb, p, hb⟩
  swap
  · rw [AndAction.preflight_panic_left (AndAction.preflight_panic_right ha hb),
      AndAction.preflight_panic_right ha (AndAction.preflight_panic_left hb)]
    exact .panic (regroup_two la lb)
  rcases rb with err | y
  · rw [AndAction.preflight_failed_left (AndAction.preflight_failed_right ha hb),
      AndAction.preflight_failed_right ha (AndAction.preflight_failed_left hb)]
    exact .failed (regroup_two la lb)
  have hab := AndAction.preflight_ok ha hb
  rcases (c.preflight { cx with cursor := c2 } sc).eq_ok_or_error with
    ⟨lc, ⟨rc, sc', c3⟩, hc⟩ | ⟨lc, p, hc⟩
  swap
  · rw [AndAction.preflight_panic_right hab hc,
      AndAction.preflight_panic_right ha (AndAction.preflight_panic_right hb hc)]
    exact .panic (regroup_three la lb lc)
  rcases rc with err | z
  · rw [AndAction.preflight_failed_right hab hc,
      AndAction.preflight_failed_right ha (AndAction.preflight_failed_right hb hc)]
    exact .failed (regroup_three la lb lc)
  · rw [AndAction.preflight_ok hab hc, AndAction.preflight_ok ha (AndAction.preflight_ok hb hc)]
    exact .incomplete (regroup_three la lb lc) .flying

/-! ## Runs -/

open AppFuture in
/-- **Both groupings run alike.** -/
theorem runs_alike (a : EndpointAction ε Bd Env σ ts) (b : EndpointAction ε Bd Env τ us)
    (c : EndpointAction ε Bd Env ρ vs) (gs : List (Thread Env → Thread Env)) (context : Context)
    (body : Option Bd) (th : Thread Env) :
    observe (drive (andRight a b c) gs ⟨.start (some (newRight sa sb sc)), context, body⟩ th) =
      passed Event.regroup reassoc
        (drive (andLeft a b c) gs ⟨.start (some (newLeft sa sb sc)), context, body⟩ th) := by
  cases gs with
  | nil => rfl
  | cons g gs =>
    have h := routed_alike sa sb sc a b c (.new context)
    generalize hL : (andLeft a b c).preflight (.new context) (newLeft sa sb sc) = tL at h
    generalize hR : (andRight a b c).preflight (.new context) (newRight sa sb sc) = tR at h
    cases h with
    | panic hl =>
      subst hl
      rw [drive_panics hL, drive_panics hR]
      rfl
    | failed hl =>
      subst hl
      rw [drive_failed hL, drive_failed hR]
      simp [observe, passed, Except.map]
    | incomplete hl h =>
      subst hl
      rw [drive_incomplete hL, drive_incomplete hR, observe_prepend, passed_prepend,
        drive_bisim regrouped_bisim _ h]

end

/-! ## Outputs -/

/-- Polled from state `s` on, in whatever worlds, the action may answer with `x`. -/
inductive EndpointAction.Gives (f : EndpointAction ε Bd Env σ ts) : σ → HList ts → Prop
  | ready {s s' : σ} {w w' : World Bd Env} {l : List Event} {x : HList ts}
      (h : f.pollAction s w = ⟨l, .ok (.ok (.ready x), s', w')⟩) : Gives f s x
  | later {s s' : σ} {w w' : World Bd Env} {l : List Event} {x : HList ts}
      (h : f.pollAction s w = ⟨l, .ok (.ok .notReady, s', w')⟩) (hx : Gives f s' x) : Gives f s x

/-- A new action `s` may come to the output `x`: its `preflight` completes with it, or is incomplete
and a poll after it answers with it. -/
def EndpointAction.Outputs (f : EndpointAction ε Bd Env σ ts) (s : σ) (x : HList ts) : Prop :=
  ∃ cx l s' cur, f.preflight cx s = ⟨l, .ok (.ok (.completed x), s', cur)⟩ ∨
    (f.preflight cx s = ⟨l, .ok (.ok .incomplete, s', cur)⟩ ∧ f.Gives s' x)

/-- A component of an `and` has its output, or may come to it. -/
def MaybeDone.Gives (e : EndpointAction ε Bd Env σ ts) : MaybeDone σ (HList ts) → HList ts → Prop
  | .inFlight s, x => e.Gives s x
  | .ready v, x => x = v
  | _, _ => False

section

variable {e1 : EndpointAction ε Bd Env σ ts} {e2 : EndpointAction ε Bd Env τ us}

/-- What a component gives after a poll, it gave before. -/
theorem MaybeDone.gives_of_poll {m m' : MaybeDone σ (HList ts)} {l : List Event}
    {r : Poll (Error ε) (HList [])} {w w' : World Bd Env}
    (h : (MaybeDone.action e1).pollAction m w = ⟨l, .ok (r, m', w')⟩) (hr : ∀ err, r ≠ .error err)
    {x : HList ts} (hx : m'.Gives e1 x) : m.Gives e1 x := by
  cases m with
  | init action => cases congrArg Traced.res h
  | gone => cases congrArg Traced.res h
  | ready v =>
    cases congrArg Traced.res h
    exact hx
  | inFlight s =>
    rw [poll_inFlight] at h
    rcases hp : e1.pollAction s w with ⟨l₁, p | ⟨r₁, s₁, w₁⟩⟩
    · rw [hp] at h
      cases congrArg Traced.res h
    · rw [hp] at h
      match r₁ with
      | .ok .notReady =>
        cases congrArg Traced.res h
        exact .later hp hx
      | .error err =>
        cases congrArg Traced.res h
        exact absurd rfl (hr err)
      | .ok (.ready v) =>
        cases congrArg Traced.res h
        cases hx
        exact .ready hp

/-- **What an `and` gives is a combination of what its components give.** -/
theorem AndAction.gives {s : AndAction σ τ ts us} {x : HList (ts ++ us)}
    (h : (AndAction.action e1 e2).Gives s x) :
    ∃ v1 v2, x = v1.combine v2 ∧ s.f1.Gives e1 v1 ∧ s.f2.Gives e2 v2 := by
  induction h with
  | @ready s s' w w' l x h =>
    rcases poll_inv h with ⟨_, _, _, ⟨⟩, _⟩ | ⟨_, v1, _, h1, ⟨_, _, _, ⟨⟩, _⟩ | ⟨_, v2, h2, hx⟩⟩ |
      ⟨_, ⟨⟩⟩
    cases hx
    exact ⟨v1, v2, rfl, MaybeDone.gives_of_poll h1 (by rintro err ⟨⟩) rfl,
      MaybeDone.gives_of_poll h2 (by rintro err ⟨⟩) rfl⟩
  | @later s s' w w' l x h hx ih =>
    obtain ⟨v1, v2, rfl, hg1, hg2⟩ := ih
    refine ⟨v1, v2, rfl, ?_⟩
    rcases poll_inv h with ⟨_, _, h1, _, rfl⟩ | ⟨_, _, _, h1, ⟨_, _, h2, _, rfl⟩ | ⟨_, _, _, ⟨⟩⟩⟩ |
      ⟨_, ⟨⟩⟩
    · exact ⟨MaybeDone.gives_of_poll h1 (by rintro err ⟨⟩) hg1, hg2⟩
    · exact ⟨MaybeDone.gives_of_poll h1 (by rintro err ⟨⟩) hg1,
        MaybeDone.gives_of_poll h2 (by rintro err ⟨⟩) hg2⟩

/-- A component of an `and` after its `preflight`. -/
theorem outputs_of_next {f : EndpointAction ε Bd Env σ ts} {cx : PreflightContext} {s s' : σ}
    {l : List Event} {y : Preflight (HList ts)} {cur : CursorInner}
    (h : f.preflight cx s = ⟨l, .ok (.ok y, s', cur)⟩) {x : HList ts}
    (hx : (MaybeDone.next y s').Gives f x) : f.Outputs s x := by
  cases y with
  | completed v =>
    have hv : x = v := hx
    rw [hv]
    exact ⟨cx, l, s', cur, Or.inl h⟩
  | incomplete => exact ⟨cx, l, s', cur, Or.inr ⟨h, hx⟩⟩

/-- **An output of an `and` is a combination of outputs of its components.** -/
theorem AndAction.outputs {left : σ} {right : τ} {x : HList (ts ++ us)}
    (h : (AndAction.action e1 e2).Outputs ⟨.init (some left), .init (some right)⟩ x) :
    ∃ v1 v2, x = v1.combine v2 ∧ e1.Outputs left v1 ∧ e2.Outputs right v2 := by
  obtain ⟨cx, l, s', cur, h | ⟨h, hx⟩⟩ := h
  · cases (preflight_inv h).1
  · obtain ⟨-, l1, y1, s1, c1, l2, y2, s2, h1, h2⟩ := preflight_inv h
    rw [preflight_ok h1 h2] at h
    cases congrArg Traced.res h
    obtain ⟨v1, v2, hv, hg1, hg2⟩ := AndAction.gives hx
    exact ⟨v1, v2, hv, outputs_of_next h1 hg1, outputs_of_next h2 hg2⟩

end

namespace AppFuture

/-- A run in flight that succeeds has an output that the action gives. -/
theorem gives_of_drive {f : EndpointAction ε Bd Env σ ts} {gs : List (Thread Env → Thread Env)}
    {s : σ} {context : Context} {body : Option Bd} {th th' : Thread Env} {x : HList ts}
    {fut : AppFuture σ Bd}
    (h : (drive f gs ⟨.inFlight s, context, body⟩ th).res = .ok (some (.ok x), fut, th')) :
    f.Gives s x := by
  induction gs generalizing s context body th with
  | nil => cases h
  | cons g gs ih =>
    simp only [drive, pollApply, pollInFlight, world] at h
    rcases hp : f.pollAction s ⟨⟨context, body⟩, g th⟩ with ⟨l, p | ⟨r, s', w⟩⟩
    · rw [hp] at h
      cases h
    · rw [hp] at h
      rcases r with err | v | _
      · cases h
      · cases h
        exact .ready hp
      · exact .later hp (ih h)

/-- **A run that succeeds yields an output of its action.** -/
theorem outputs_of_drive {f : EndpointAction ε Bd Env σ ts} {gs : List (Thread Env → Thread Env)}
    {s : σ} {context : Context} {body : Option Bd} {th th' : Thread Env} {x : HList ts}
    {fut : AppFuture σ Bd}
    (h : (drive f gs ⟨.start (some s), context, body⟩ th).res = .ok (some (.ok x), fut, th')) :
    f.Outputs s x := by
  cases gs with
  | nil => cases h
  | cons g gs =>
    rcases hp : f.preflight (.new context) s with ⟨l, p | ⟨err | y, s', cur⟩⟩
    · rw [drive_panics hp] at h
      cases h
    · rw [drive_failed hp] at h
      cases h
    · cases y with
      | completed v =>
        rw [drive_completed hp] at h
        cases h
        exact ⟨_, l, s', cur, Or.inl hp⟩
      | incomplete =>
        rw [drive_incomplete hp] at h
        exact ⟨_, l, s', cur, Or.inr ⟨hp, gives_of_drive h⟩⟩

/-! ## Results -/

/-- The final result of a run, with its output under another type. -/
def result (f : HList ts → HList us)
    (m : Traced Panic Event
      (Option (Except (Error ε) (HList ts)) × AppFuture σ Bd × Thread Env)) :
    Except Panic (Option (Except (Error ε) (HList us)) × Context × Option Bd × Thread Env) :=
  (passed id f m).res

theorem result_prepend (f : HList ts → HList us) (l : List Event)
    (m : Traced Panic Event
      (Option (Except (Error ε) (HList ts)) × AppFuture σ Bd × Thread Env)) :
    result f (m.prepend l) = result f m := by
  unfold result
  rw [passed_prepend]
  rfl

/-- Runs that are alike have the same result. -/
theorem result_of_alike {φ : Event → Event} {inj : HList ts → HList us} {back : HList us → HList ts}
    (hback : ∀ x, back (inj x) = x)
    {m : Traced Panic Event (Option (Except (Error ε) (HList ts)) × AppFuture σ Bd × Thread Env)}
    {m' : Traced Panic Event (Option (Except (Error ε) (HList us)) × AppFuture τ Bd × Thread Env)}
    (h : observe m' = passed φ inj m) : result back m' = result id m := by
  have hres := congrArg Traced.res h
  rcases m with ⟨l, p | ⟨r, fut, th⟩⟩
  · rcases m' with ⟨l', p' | ⟨r', fut', th'⟩⟩
    · cases hres
      rfl
    · cases hres
  · rcases m' with ⟨l', p' | ⟨r', fut', th'⟩⟩
    · cases hres
    · have heq : (r', fut'.context, fut'.body, th') =
          (r.map (Except.map inj), fut.context, fut.body, th) := Except.ok.inj hres
      simp only [Prod.mk.injEq] at heq
      obtain ⟨rfl, hctx, hbody, rfl⟩ := heq
      rcases r with _ | err | x
      · simp [result, passed, hctx, hbody]
      · simp [result, passed, hctx, hbody, Except.map]
      · simp [result, passed, hctx, hbody, Except.map, hback]

end AppFuture

/-- `f'` routes as `f` does, up to an output that `f` has at once and `f'` with the first poll. -/
inductive RoutesAs (inj : HList ts → HList us) (R : σ → τ → Prop)
    (f' : EndpointAction ε Bd Env τ us) :
    Except Panic (Except (Error ε) (Preflight (HList ts)) × σ × CursorInner) →
    Except Panic (Except (Error ε) (Preflight (HList us)) × τ × CursorInner) → Prop
  | panic {p : Panic} : RoutesAs inj R f' (.error p) (.error p)
  | failed {err : Error ε} {s : σ} {m : τ} {c c' : CursorInner} :
      RoutesAs inj R f' (.ok (.error err, s, c)) (.ok (.error err, m, c'))
  | completed {x : HList ts} {s : σ} {m : τ} {c c' : CursorInner}
      (h : ∀ w, ∃ l m', f'.pollAction m w = ⟨l, .ok (.ok (.ready (inj x)), m', w)⟩) :
      RoutesAs inj R f' (.ok (.ok (.completed x), s, c)) (.ok (.ok .incomplete, m, c'))
  | incomplete {s : σ} {m : τ} {c c' : CursorInner} (h : R s m) :
      RoutesAs inj R f' (.ok (.ok .incomplete, s, c)) (.ok (.ok .incomplete, m, c'))

open AppFuture in
/-- **An action that routes and answers as another one has its results.** -/
theorem RoutesAs.result_eq {φ : Event → Event} {inj : HList ts → HList us} {back : HList us → HList ts}
    (hback : ∀ x, back (inj x) = x) {R : σ → τ → Prop} {f : EndpointAction ε Bd Env σ ts}
    {f' : EndpointAction ε Bd Env τ us} (hb : Bisim φ inj R f.pollAction f'.pollAction)
    {s : σ} {m : τ} {context : Context}
    (h : RoutesAs inj R f' (f.preflight (.new context) s).res (f'.preflight (.new context) m).res)
    (gs : List (Thread Env → Thread Env)) (body : Option Bd) (th : Thread Env) :
    result back (drive f' gs ⟨.start (some m), context, body⟩ th) =
      result id (drive f gs ⟨.start (some s), context, body⟩ th) := by
  cases gs with
  | nil => rfl
  | cons g gs =>
    rcases hf : f.preflight (.new context) s with ⟨l, r⟩
    rcases hf' : f'.preflight (.new context) m with ⟨l', r'⟩
    rw [hf, hf'] at h
    dsimp only at h
    cases h with
    | panic =>
      rw [drive_panics hf, drive_panics hf']
      rfl
    | failed =>
      rw [drive_failed hf, drive_failed hf']
      rfl
    | completed hready =>
      obtain ⟨l₁, m', hpoll⟩ := hready ⟨⟨context, body⟩, g th⟩
      rw [drive_completed hf, drive_incomplete hf', result_prepend]
      simp only [drive, pollApply, AppFuture.pollInFlight, world, hpoll]
      simp [result, passed, Except.map, hback]
    | incomplete hR =>
      rw [drive_incomplete hf, drive_incomplete hf', result_prepend, result_prepend]
      exact result_of_alike hback (drive_bisim hb (g :: gs) hR context body th)

/-! ## `unit()` -/

section

variable (a : EndpointAction ε Bd Env σ ts)

/-- The action of `unit()`. -/
def unitAction : EndpointAction ε Bd Env (Option Unit) [] := (UnitAction (ε := ε)).action

variable (ε Bd Env) in
theorem unit_preflight (cx : PreflightContext) :
    (unitAction : EndpointAction ε Bd Env (Option Unit) []).preflight cx (some ()) =
      ⟨[⟨[], .preflight cx.cursor .completed⟩],
        .ok (.ok (.completed HList.nil), none, cx.cursor)⟩ := rfl

/-- With the output of the left component there, an `and` answers as the right one. -/
theorem left_ready_bisim (e : EndpointAction ε Bd Env τ us) (v : HList us) :
    Bisim (Event.under .right) v.combine (fun s m => m = ⟨.ready v, .inFlight s⟩) a.pollAction
      (AndAction.action e a).pollAction := by
  rintro s m rfl w
  unfold AndAction.action under
  simp only [MaybeDone.poll_ready, MaybeDone.poll_inFlight, Traced.mapLog_mk, List.map_nil,
    Traced.mk_ok_bind, Traced.prepend_nil]
  rcases hp : a.pollAction s w with ⟨l, p | ⟨r, s', w'⟩⟩
  · exact .panic rfl
  · simp only [Traced.mk_ok_bind]
    match r with
    | .ok (.ready x) => exact .ready (by simp [AndAction.takeItem, MaybeDone.takeItem])
    | .error err => exact .err (by simp)
    | .ok .notReady => exact .notReady (by simp) rfl

/-- With the output of the right component there, an `and` answers as the left one. -/
theorem right_ready_bisim (e : EndpointAction ε Bd Env τ us) (v : HList us) :
    Bisim (Event.under .left) (fun x => x.combine v) (fun s m => m = ⟨.inFlight s, .ready v⟩)
      a.pollAction (AndAction.action a e).pollAction := by
  rintro s m rfl w
  unfold AndAction.action under
  simp only [MaybeDone.poll_ready, MaybeDone.poll_inFlight]
  rcases hp : a.pollAction s w with ⟨l, p | ⟨r, s', w'⟩⟩
  · exact .panic rfl
  · simp only [Traced.mk_ok_bind]
    match r with
    | .ok (.ready x) => exact .ready (by simp [AndAction.takeItem, MaybeDone.takeItem])
    | .error err => exact .err (by simp)
    | .ok .notReady => exact .notReady (by simp) rfl

theorem unit_left_routes (s : σ) (cx : PreflightContext) :
    RoutesAs HList.nil.combine (fun s m => m = ⟨.ready HList.nil, .inFlight s⟩)
      (AndAction.action unitAction a) (a.preflight cx s).res
      ((AndAction.action unitAction a).preflight cx ⟨.init (some (some ())), .init (some s)⟩).res := by
  have hunit := unit_preflight ε Bd Env cx
  rcases ha : a.preflight cx s with ⟨l, p | ⟨err | x, s', c⟩⟩
  · rw [AndAction.preflight_panic_right hunit ha]
    exact .panic
  · rw [AndAction.preflight_failed_right hunit ha]
    exact .failed
  · rw [AndAction.preflight_ok hunit ha]
    cases x with
    | completed x => exact .completed fun w => ⟨_, _, AndAction.poll_both_ready HList.nil x w⟩
    | incomplete => exact .incomplete rfl

theorem unit_right_routes (s : σ) (cx : PreflightContext) :
    RoutesAs (fun x => x.combine HList.nil) (fun s m => m = ⟨.inFlight s, .ready HList.nil⟩)
      (AndAction.action a unitAction) (a.preflight cx s).res
      ((AndAction.action a unitAction).preflight cx ⟨.init (some s), .init (some (some ()))⟩).res := by
  rcases ha : a.preflight cx s with ⟨l, p | ⟨err | x, s', c⟩⟩
  · rw [AndAction.preflight_panic_left ha]
    exact .panic
  · rw [AndAction.preflight_failed_left ha]
    exact .failed
  · rw [AndAction.preflight_ok ha (unit_preflight ε Bd Env { cx with cursor := c })]
    cases x with
    | completed x => exact .completed fun w => ⟨_, _, AndAction.poll_both_ready x HList.nil w⟩
    | incomplete => exact .incomplete rfl

end

/-! ## Regrouping -/

open AppFuture in
/-- **Regrouping `and`.**  For all actions `a`, `b` and `c`: both groupings route alike, to the same
first error or both incomplete, with the same cursor and the same calls in the same order; whatever
happens between the polls and wherever one of them is not ready, they run alike, with the same calls
in the same order and the same output; an output has the components of outputs of `a`, `b` and `c` in
a row; `unit()` on either side does not change the result; tuples are converted to lists and back
without loss, and combined by concatenation. -/
theorem and_regroups (a : EndpointAction ε Bd Env σ ts) (b : EndpointAction ε Bd Env τ us)
    (c : EndpointAction ε Bd Env ρ vs) (sa : σ) (sb : τ) (sc : ρ) :
    (∀ cx, RoutedAlike ((andLeft a b c).preflight cx (newLeft sa sb sc))
      ((andRight a b c).preflight cx (newRight sa sb sc))) ∧
    (∀ gs context body th,
      observe (drive (andRight a b c) gs ⟨.start (some (newRight sa sb sc)), context, body⟩ th) =
        passed Event.regroup reassoc
          (drive (andLeft a b c) gs ⟨.start (some (newLeft sa sb sc)), context, body⟩ th)) ∧
    (∀ gs context body th x fut th',
      (drive (andLeft a b c) gs ⟨.start (some (newLeft sa sb sc)), context, body⟩ th).res =
        .ok (some (.ok x), fut, th') →
      ∃ va vb vc, a.Outputs sa va ∧ b.Outputs sb vb ∧ c.Outputs sc vc ∧
        x.components = va.components ++ vb.components ++ vc.components) ∧
    (∀ gs context body th,
      result (HList.retype (List.nil_append ts)) (drive (AndAction.action unitAction a) gs
          ⟨.start (some ⟨.init (some (some ())), .init (some sa)⟩), context, body⟩ th) =
        result id (drive a gs ⟨.start (some sa), context, body⟩ th) ∧
      result (HList.retype (List.append_nil ts)) (drive (AndAction.action a unitAction) gs
          ⟨.start (some ⟨.init (some sa), .init (some (some ()))⟩), context, body⟩ th) =
        result id (drive a gs ⟨.start (some sa), context, body⟩ th)) ∧
    (∀ (x : Tuple ts) (l : HList ts), x.hlist.tuple = x ∧ l.tuple.hlist = l) ∧
    ∀ (x : Tuple ts) (y : Tuple us),
      (x.combine y).hlist.components = x.hlist.components ++ y.hlist.components := by
  refine ⟨routed_alike sa sb sc a b c, runs_alike sa sb sc a b c, ?_, ?_, ?_, Tuple.components_combine⟩
  · intro gs context body th x fut th' h
    obtain ⟨vab, vc, rfl, hab, hc⟩ := AndAction.outputs (outputs_of_drive h)
    obtain ⟨va, vb, rfl, ha, hb⟩ := AndAction.outputs hab
    refine ⟨va, vb, vc, ha, hb, hc, ?_⟩
    rw [HList.components_combine, HList.components_combine]
  · intro gs context body th
    constructor
    · exact RoutesAs.result_eq (fun _ => rfl) (left_ready_bisim a unitAction HList.nil)
        (unit_left_routes a sa _) gs body th
    · exact RoutesAs.result_eq HList.combine_nil (right_ready_bisim a unitAction HList.nil)
        (unit_right_routes a sa _) gs body th
  · intro x l
    exact ⟨x.tuple_hlist, l.hlist_tuple⟩

end Finchers
