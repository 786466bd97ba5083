import Finchers.Endpoint.Preflight
import Finchers.Endpoint.Syntax
import Finchers.Service

/-!
# When `preflight` completes

`MaybeDone` keeps the output of a component and reports that it is incomplete, so that `and` never
sees two completed components: its `preflight` is incomplete whenever it succeeds.

* `AndAction.preflight_inv` — an `and` that matched has two components that matched, and is
  incomplete;
* `ProductTree.preflight_spec` — a tree of `and` and `map` matches with the combined outputs of its
  leaves, and keeps them for the second phase iff it has an `and`;
* `completes_iff` — **a tree over completing leaves completes in `preflight` iff it has no `and`**.
-/

set_option autoImplicit false

namespace Finchers

open Resumable

variable {ε Bd Env : Type} {ts us : List Type}

/-! ## Trees of `and` and `map` -/

/-- An endpoint whose `preflight` completes if it succeeds. -/
structure Completing (ε Bd Env : Type) (ts : List Type) where
  endpoint : Endpoint ε Bd Env ts
  completes : ∀ {cx l x s c}, endpoint.preflight cx = ⟨l, .ok (.ok x, s, c)⟩ → x.isCompleted = true

/-- The actions made of a `OneshotAction` complete. -/
def OneshotAction.completing {σ : Type} (a : OneshotAction ε σ ts) (init : σ) :
    Completing ε Bd Env ts where
  endpoint := .oneshot σ a init
  completes := by
    intro cx l x s c h
    obtain ⟨err | out, -, hx⟩ := OneshotAction.preflight_inv h
    · cases hx
    · cases hx
      rfl

/-- A tree of `and` and `map` over leaves whose `preflight` completes. -/
inductive ProductTree (ε Bd Env : Type) : List Type → Type 1 where
  | leaf {ts : List Type} (e : Completing ε Bd Env ts) : ProductTree ε Bd Env ts
  | and {ts us : List Type} (left : ProductTree ε Bd Env ts) (right : ProductTree ε Bd Env us) :
      ProductTree ε Bd Env (ts ++ us)
  | map {ts : List Type} {U : Type} (t : ProductTree ε Bd Env ts) (f : HList ts → U) :
      ProductTree ε Bd Env [U]

namespace ProductTree

def endpoint : {ts : List Type} → ProductTree ε Bd Env ts → Endpoint ε Bd Env ts
  | _, .leaf e => e.endpoint
  | _, .and left right => .and left.endpoint right.endpoint
  | _, .map t f => .map t.endpoint f

/-- There is no `and` in the tree. -/
def AndFree : {ts : List Type} → ProductTree ε Bd Env ts → Prop
  | _, .leaf _ => True
  | _, .and _ _ => False
  | _, .map t _ => t.AndFree

/-- The leaves match one after the other, `out` is their combined output and `c` the cursor after
the last one. -/
inductive Outputs : {ts : List Type} → ProductTree ε Bd Env ts → PreflightContext → HList ts →
    CursorInner → Prop where
  | leaf {ts : List Type} {e : Completing ε Bd Env ts} {cx : PreflightContext} {l : List Event}
      {x : HList ts} {s : e.endpoint.Action} {c : CursorInner} :
      e.endpoint.preflight cx = ⟨l, .ok (.ok (.completed x), s, c)⟩ → Outputs (.leaf e) cx x c
  | and {ts us : List Type} {left : ProductTree ε Bd Env ts} {right : ProductTree ε Bd Env us}
      {cx : PreflightContext} {x : HList ts} {y : HList us} {c1 c2 : CursorInner} :
      Outputs left cx x c1 → Outputs right { cx with cursor := c1 } y c2 →
      Outputs (.and left right) cx (x.combine y) c2
  | map {ts : List Type} {U : Type} {t : ProductTree ε Bd Env ts} {f : HList ts → U}
      {cx : PreflightContext} {x : HList ts} {c : CursorInner} :
      Outputs t cx x c → Outputs (.map t f) cx (.single (f x)) c

end ProductTree

/-! ## What a tree leaves -/

namespace ProductTree

/-- What a matching tree leaves: the combined outputs of its leaves, which are kept back iff there
is an `and`. -/
theorem preflight_spec {ts : List Type} (t : ProductTree ε Bd Env ts) {cx : PreflightContext}
    {l : List Event} {x : Preflight (HList ts)} {s : t.endpoint.Action} {c : CursorInner}
    (h : t.endpoint.preflight cx = ⟨l, .ok (.ok x, s, c)⟩) :
    ∃ out, t.Outputs cx out c ∧ (t.AndFree → x = .completed out) ∧
      (¬ t.AndFree → x = .incomplete) := by
  induction t generalizing cx l c with
  | leaf e =>
    have hcompleted := e.completes h
    match x, hcompleted with
    | .completed out, _ => exact ⟨out, .leaf h, fun _ => rfl, fun hn => absurd trivial hn⟩
  | and left right ih1 ih2 =>
    obtain ⟨hz, l1, x1, s1, c1, l2, x2, s2, h1, h2⟩ := AndAction.preflight_inv h
    obtain ⟨out1, hout1, -, -⟩ := ih1 h1
    obtain ⟨out2, hout2, -, -⟩ := ih2 h2
    exact ⟨_, hout1.and hout2, fun hfree => hfree.elim, fun _ => hz⟩
  | map t f ih =>
    obtain ⟨l1, r, h1, hx⟩ := MapAction.preflight_inv h
    rcases r with err | y
    · cases hx
    · cases hx
      obtain ⟨out, hout, hfree, hkept⟩ := ih h1
      refine ⟨_, hout.map, fun ht => ?_, fun ht => ?_⟩
      · rw [hfree ht]
        rfl
      · rw [hkept ht]
        rfl

/-- The request is handled in `preflight`: it completes with the combined output of the leaves, and
no run enters the poll phase. -/
structure HandledInPreflight {ts : List Type} (t : ProductTree ε Bd Env ts) (context : Context) :
    Prop where
  completes : ∃ l out s c, t.endpoint.preflight (.new context) =
    ⟨l, .ok (.ok (.completed out), s, c)⟩ ∧ t.Outputs (.new context) out c
  not_polled : ∀ body g gs th l r fut th',
    AppFuture.drive t.endpoint.impl (g :: gs) ⟨.start (some t.endpoint.spawn), context, body⟩ th =
      ⟨l, .ok (r, fut, th')⟩ → fut.state = .start none

theorem handledInPreflight_iff {ts : List Type} (t : ProductTree ε Bd Env ts) {context : Context}
    {l : List Event} {x : Preflight (HList ts)} {s : t.endpoint.Action} {c : CursorInner}
    (h : t.endpoint.preflight (.new context) = ⟨l, .ok (.ok x, s, c)⟩) :
    t.HandledInPreflight context ↔ t.AndFree := by
  obtain ⟨out, hout, hfree, hkept⟩ := t.preflight_spec h
  constructor
  · rintro ⟨⟨l', out', s', c', h', -⟩, -⟩
    by_contra hand
    rw [hkept hand, h'] at h
    cases congrArg Traced.res h
  · intro hand
    rw [hfree hand] at h
    refine ⟨⟨l, out, s, c, h, hout⟩, ?_⟩
    intro body g gs th l' r fut th' hrun
    rw [AppFuture.drive_completed h] at hrun
    cases congrArg Traced.res hrun
    rfl

end ProductTree

namespace AndAction

variable {σ τ : Type} (e1 : EndpointAction ε Bd Env σ ts) (e2 : EndpointAction ε Bd Env τ us)
  (left : σ) (right : τ) (cx : PreflightContext)

/-- `preflight` of a new `and` succeeds with `z`. -/
def Returns (z : Preflight (HList (ts ++ us))) : Prop :=
  ∃ l s c, (action e1 e2).preflight cx ⟨.init (some left), .init (some right)⟩ =
    ⟨l, .ok (.ok z, s, c)⟩

/-- `preflight` of the two components, one after the other, succeeds with `x` and `y`. -/
def ComponentsReturn (x : Preflight (HList ts)) (y : Preflight (HList us)) : Prop :=
  ∃ l1 s1 c1 l2 s2 c2, e1.preflight cx left = ⟨l1, .ok (.ok x, s1, c1)⟩ ∧
    e2.preflight { cx with cursor := c1 } right = ⟨l2, .ok (.ok y, s2, c2)⟩

/-- What an `and` is expected to report: completed with the combined output if both components
completed, and incomplete if both succeeded and one of them did not complete. -/
structure ReportsCompletion : Prop where
  completed : ∀ out, Returns e1 e2 left right cx (.completed out) ↔
    ∃ out1 out2, ComponentsReturn e1 e2 left right cx (.completed out1) (.completed out2) ∧
      out = out1.combine out2
  incomplete : Returns e1 e2 left right cx .incomplete ↔
    ∃ x y, ComponentsReturn e1 e2 left right cx x y ∧
      ¬ (x.isCompleted = true ∧ y.isCompleted = true)

/-- Whatever its components returned, an `and` that succeeds is incomplete. -/
theorem returns_iff (z : Preflight (HList (ts ++ us))) :
    Returns e1 e2 left right cx z ↔
      z = .incomplete ∧ ∃ x y, ComponentsReturn e1 e2 left right cx x y := by
  constructor
  · rintro ⟨l, s, c, h⟩
    obtain ⟨hz, l1, x, s1, c1, l2, y, s2, h1, h2⟩ := preflight_inv h
    exact ⟨hz, x, y, l1, s1, c1, l2, s2, c, h1, h2⟩
  · rintro ⟨rfl, x, y, l1, s1, c1, l2, s2, c2, h1, h2⟩
    exact ⟨_, _, _, preflight_ok h1 h2⟩

theorem ComponentsReturn.unique {e1 : EndpointAction ε Bd Env σ ts}
    {e2 : EndpointAction ε Bd Env τ us} {left : σ} {right : τ} {cx : PreflightContext}
    {x x' : Preflight (HList ts)} {y y' : Preflight (HList us)}
    (h : ComponentsReturn e1 e2 left right cx x y)
    (h' : ComponentsReturn e1 e2 left right cx x' y') : x = x' ∧ y = y' := by
  obtain ⟨l1, s1, c1, l2, s2, c2, h1, h2⟩ := h
  obtain ⟨l1', s1', c1', l2', s2', c2', h1', h2'⟩ := h'
  rw [h1] at h1'
  cases h1'
  rw [h2] at h2'
  cases h2'
  exact ⟨rfl, rfl⟩

/-- What an `and` reports is right unless both components completed. -/
theorem reportsCompletion_iff :
    ReportsCompletion e1 e2 left right cx ↔
      ¬ ∃ out1 out2,
        ComponentsReturn e1 e2 left right cx (.completed out1) (.completed out2) := by
  constructor
  · rintro hreports ⟨out1, out2, h⟩
    have hcompleted := (hreports.completed _).mpr ⟨out1, out2, h, rfl⟩
    cases ((returns_iff e1 e2 left right cx _).mp hcompleted).1
  · intro hnot
    refine ⟨fun out => ⟨fun h => ?_, ?_⟩, ?_, ?_⟩
    · cases ((returns_iff e1 e2 left right cx _).mp h).1
    · rintro ⟨out1, out2, h, -⟩
      exact absurd ⟨out1, out2, h⟩ hnot
    · intro h
      obtain ⟨-, x, y, hxy⟩ := (returns_iff e1 e2 left right cx _).mp h
      refine ⟨x, y, hxy, ?_⟩
      rintro ⟨hx, hy⟩
      match x, y, hx, hy with
      | .completed out1, .completed out2, _, _ => exact hnot ⟨out1, out2, hxy⟩
    · rintro ⟨x, y, hxy, -⟩
      exact (returns_iff e1 e2 left right cx _).mpr ⟨rfl, x, y, hxy⟩

end AndAction

/-- **An output is reported in `preflight` iff no `and` is in between**: a matching tree is handled
in `preflight` iff it has no `and`, and what an `and` reports is right iff its components do not
both complete. -/
theorem completes_iff (ε Bd Env : Type) :
    (∀ (ts : List Type) (t : ProductTree ε Bd Env ts) (context : Context) (l : List Event)
      (x : Preflight (HList ts)) (s : t.endpoint.Action) (c : CursorInner),
      t.endpoint.preflight (.new context) = ⟨l, .ok (.ok x, s, c)⟩ →
        (t.HandledInPreflight context ↔ t.AndFree)) ∧
    ∀ (σ τ : Type) (ts us : List Type) (e1 : EndpointAction ε Bd Env σ ts)
      (e2 : EndpointAction ε Bd Env τ us) (left : σ) (right : τ) (cx : PreflightContext),
      AndAction.ReportsCompletion e1 e2 left right cx ↔
        ¬ ∃ out1 out2, AndAction.ComponentsReturn e1 e2 left right cx (.completed out1)
          (.completed out2) :=
  ⟨fun _ t _ _ _ _ _ h => t.handledInPreflight_iff h,
    fun _ _ _ _ e1 e2 left right cx => AndAction.reportsCompletion_iff e1 e2 left right cx⟩

/-- `unit()`, as a leaf. -/
def unitLeaf : ProductTree Empty Unit Unit [] := .leaf (UnitAction.completing ())

/-- The context of the request `GET /`. -/
def rootContext : Context := .new 0 ⟨.get, .origin ⟨['/'], none, slash_rooted⟩, []⟩

/-- `unit().map(f)` is handled in `preflight`. -/
theorem completes_map_unit :
    (ProductTree.map unitLeaf (fun _ => 7)).HandledInPreflight rootContext :=
  ((completes_iff Empty Unit Unit).1 _ (.map unitLeaf (fun _ => 7)) rootContext _ _ _ _ rfl).mpr
    trivial

/-- `unit().and(unit())` matches, but is not handled in `preflight`. -/
theorem unit_and_unit_incomplete :
    (∃ l s c, (ProductTree.and unitLeaf unitLeaf).endpoint.preflight (.new rootContext) =
      ⟨l, .ok (.ok .incomplete, s, c)⟩) ∧
    ¬ (ProductTree.and unitLeaf unitLeaf).HandledInPreflight rootContext := by
  refine ⟨⟨_, _, _, rfl⟩, ?_⟩
  intro h
  obtain ⟨l, out, s, c, heq, -⟩ := h.completes
  cases congrArg Traced.res heq

end Finchers
