import Finchers.Service
import Finchers.Endpoint.Poll
import Finchers.Endpoint.Preflight
import Finchers.Endpoint.Syntax
import Finchers.Lib.Monitor

/-!
# Which closures are called

Where the closures of a tree are called, and where anything at all happens once `preflight` is over.

* `Endpoint.Calls` — the closures that are called in `preflight`: those whose input is there already;
* `Endpoint.Selects` — the places that the `or`s and `or_strict`s around them selected;
* `Endpoint.mem_preflight_call_iff` — `preflight` calls the former and polls nothing;
* `Confined`, `Endpoint.confined` — by induction on the tree: after an incomplete `preflight`, every
  poll stays within the selected part;
* `closure_called` — **a closure is called in `preflight` if its input is there already, and apart
  from that only the selected part of a tree that matched calls and polls.**
-/

set_option autoImplicit false

namespace Finchers

open Resumable

variable {ε Bd Env σ τ : Type} {ts us : List Type}

namespace Endpoint

/-- `preflight` of a new action succeeds and leaves the cursor at `c`. -/
def Matches (e : Endpoint ε Bd Env ts) (cx : PreflightContext) (c : CursorInner) : Prop :=
  ∃ l x s, e.impl.preflight cx e.spawn = ⟨l, .ok (.ok x, s, c)⟩

/-- `preflight` of a new action fails. -/
def Fails (e : Endpoint ε Bd Env ts) (cx : PreflightContext) : Prop :=
  ∃ l err s c, e.impl.preflight cx e.spawn = ⟨l, .ok (.error err, s, c)⟩

/-- `preflight` of a new action reports the output. -/
def Completes (e : Endpoint ε Bd Env ts) (cx : PreflightContext) : Prop :=
  ∃ l x s c, e.impl.preflight cx e.spawn = ⟨l, .ok (.ok (.completed x), s, c)⟩

/-- The closure at a place is called in `preflight`.  That of an `and_then` is called if the inner
action reports its output, that of a `recover` if the inner action fails. -/
def Calls : {ts : List Type} → Endpoint ε Bd Env ts → PreflightContext → Place → Prop
  | _, .leaf _ _ _, _, _ => False
  | _, .oneshot _ _ _, _, _ => False
  | _, .future _ _ _, _, _ => False
  | _, .and e1 e2, cx, p =>
    match p with
    | .left :: p => Calls e1 cx p
    | .right :: p => ∃ c, e1.Matches cx c ∧ Calls e2 { cx with cursor := c } p
    | _ => False
  | _, .or e1 e2, cx, p =>
    match p with
    | .left :: p => Calls e1 cx p
    | .right :: p => ((∃ c, e1.Matches cx c) ∨ e1.Fails cx) ∧ Calls e2 cx p
    | _ => False
  | _, .orStrict e1 e2, cx, p =>
    match p with
    | .left :: p => Calls e1 cx p
    | .right :: p => e1.Fails cx ∧ Calls e2 cx p
    | _ => False
  | _, .map e _, cx, p =>
    match p with
    | .inner :: p => Calls e cx p
    | _ => False
  | _, .mapErr e _, cx, p =>
    match p with
    | .inner :: p => Calls e cx p
    | _ => False
  | _, .andThen _ e _ _, cx, p =>
    match p with
    | [] => e.Completes cx
    | .inner :: p => Calls e cx p
    | _ => False
  | _, .recover _ e _ _, cx, p =>
    match p with
    | [] => e.Fails cx
    | .inner :: p => Calls e cx p
    | _ => False
  | _, .boxed e, cx, p => Calls e cx p

/-- Every `or` and `or_strict` around the place selects the side it is on. -/
def Selects : {ts : List Type} → Endpoint ε Bd Env ts → PreflightContext → Place → Prop
  | _, .leaf _ _ _, _, p => p = []
  | _, .oneshot _ _ _, _, p => p = []
  | _, .future _ _ _, _, p => p = []
  | _, .and e1 e2, cx, p =>
    match p with
    | [] => True
    | .left :: p => Selects e1 cx p
    | .right :: p => ∃ c, e1.Matches cx c ∧ Selects e2 { cx with cursor := c } p
    | _ => False
  | _, .or e1 e2, cx, p =>
    match p with
    | [] => True
    | .left :: p =>
      (∃ c1, e1.Matches cx c1 ∧ ∀ c2, e2.Matches cx c2 → c2.popped ≤ c1.popped) ∧ Selects e1 cx p
    | .right :: p =>
      (∃ c2, e2.Matches cx c2 ∧ ∀ c1, e1.Matches cx c1 → c1.popped < c2.popped) ∧ Selects e2 cx p
    | _ => False
  | _, .orStrict e1 e2, cx, p =>
    match p with
    | [] => True
    | .left :: p => (∃ c, e1.Matches cx c) ∧ Selects e1 cx p
    | .right :: p => (e1.Fails cx ∧ ∃ c, e2.Matches cx c) ∧ Selects e2 cx p
    | _ => False
  | _, .map e _, cx, p =>
    match p with
    | [] => True
    | .inner :: p => Selects e cx p
    | _ => False
  | _, .mapErr e _, cx, p =>
    match p with
    | [] => True
    | .inner :: p => Selects e cx p
    | _ => False
  | _, .andThen _ e _ _, cx, p =>
    match p with
    | [] => True
    | .inner :: p => Selects e cx p
    | _ => False
  | _, .recover _ e _ _, cx, p =>
    match p with
    | [] => True
    | .inner :: p => (∃ c, e.Matches cx c) ∧ Selects e cx p
    | _ => False
  | _, .boxed e, cx, p => Selects e cx p

/-! ## Outcomes of `preflight` -/

section

variable {e : Endpoint ε Bd Env ts} {cx : PreflightContext} {l : List Event} {p : Panic}
  {err : Error ε} {x : Preflight (HList ts)} {s : e.Action} {c c' : CursorInner}

theorem matches_iff (h : e.impl.preflight cx e.spawn = ⟨l, .ok (.ok x, s, c)⟩) :
    e.Matches cx c' ↔ c' = c := by
  unfold Matches
  simp [h, eq_comm]

theorem not_matches_of_failed (h : e.impl.preflight cx e.spawn = ⟨l, .ok (.error err, s, c)⟩) :
    ¬ e.Matches cx c' := by
  unfold Matches
  simp [h]

theorem not_matches_of_panic (h : e.impl.preflight cx e.spawn = ⟨l, .error p⟩) :
    ¬ e.Matches cx c' := by
  unfold Matches
  simp [h]

theorem fails_of_failed (h : e.impl.preflight cx e.spawn = ⟨l, .ok (.error err, s, c)⟩) :
    e.Fails cx :=
  ⟨l, err, s, c, h⟩

theorem not_fails_of_ok (h : e.impl.preflight cx e.spawn = ⟨l, .ok (.ok x, s, c)⟩) :
    ¬ e.Fails cx := by
  unfold Fails
  simp [h]

theorem not_fails_of_panic (h : e.impl.preflight cx e.spawn = ⟨l, .error p⟩) : ¬ e.Fails cx := by
  unfold Fails
  simp [h]

end

/-! ## The first phase -/

theorem mem_under_nil {d : Dir} {l : List Event} {what : Occurrence} :
    (⟨[], what⟩ : Event) ∈ l.map (Event.under d) ↔ False := by
  simp [Event.under]

theorem mem_under_cons {d d' : Dir} {l : List Event} {p : Place} {what : Occurrence} :
    (⟨d' :: p, what⟩ : Event) ∈ l.map (Event.under d) ↔ d' = d ∧ ⟨p, what⟩ ∈ l := by
  simp only [Event.under, List.mem_map, Event.mk.injEq, List.cons.injEq]
  refine ⟨fun h => ?_, fun h => ?_⟩
  · obtain ⟨⟨q, w⟩, hq, ⟨rfl, rfl⟩, rfl⟩ := h
    exact ⟨rfl, hq⟩
  · obtain ⟨rfl, hp⟩ := h
    exact ⟨⟨p, what⟩, hp, ⟨rfl, rfl⟩, rfl⟩

/-- `preflight` of a new action calls the closures of `Calls`. -/
def CallsSpec (e : Endpoint ε Bd Env ts) (cx : PreflightContext) : Prop :=
  ∀ p, (⟨p, .call⟩ : Event) ∈ (e.impl.preflight cx e.spawn).log ↔ e.Calls cx p

theorem calls_and {e1 : Endpoint ε Bd Env ts} {e2 : Endpoint ε Bd Env us}
    (h1 : ∀ cx, e1.CallsSpec cx) (h2 : ∀ cx, e2.CallsSpec cx) (cx : PreflightContext) :
    (e1.and e2).CallsSpec cx := by
  intro p
  have hspec := h1 cx
  unfold CallsSpec at hspec
  show _ ∈ ((AndAction.action e1.impl e2.impl).preflight cx
    ⟨.init (some e1.spawn), .init (some e2.spawn)⟩).log ↔ _
  rcases hp1 : e1.impl.preflight cx e1.spawn with ⟨l1, q | ⟨err | x, s, c⟩⟩
  · rw [AndAction.preflight_panic_left hp1]
    rw [hp1] at hspec
    rcases p with - | ⟨- | - | -, p⟩ <;>
      simp [mem_under_nil, mem_under_cons, Calls, hspec, not_matches_of_panic hp1]
  · rw [AndAction.preflight_failed_left hp1]
    rw [hp1] at hspec
    rcases p with - | ⟨- | - | -, p⟩ <;>
      simp [mem_under_nil, mem_under_cons, Calls, hspec, not_matches_of_failed hp1]
  · have hlog : ((AndAction.action e1.impl e2.impl).preflight cx
        ⟨.init (some e1.spawn), .init (some e2.spawn)⟩).log = l1.map (Event.under .left) ++
          (e2.impl.preflight { cx with cursor := c } e2.spawn).log.map (Event.under .right) := by
      rcases hp2 : e2.impl.preflight { cx with cursor := c } e2.spawn with
        ⟨l2, q | ⟨err | y, s2, c2⟩⟩
      · rw [AndAction.preflight_panic_right hp1 hp2]
      · rw [AndAction.preflight_failed_right hp1 hp2]
      · rw [AndAction.preflight_ok hp1 hp2]
    have hspec2 := h2 { cx with cursor := c }
    unfold CallsSpec at hspec2
    rw [hlog]
    rw [hp1] at hspec
    rcases p with - | ⟨- | - | -, p⟩ <;>
      simp [mem_under_nil, mem_under_cons, Calls, hspec, hspec2, matches_iff hp1]

theorem calls_or {T1 T2 : Type} {e1 : Endpoint ε Bd Env [T1]} {e2 : Endpoint ε Bd Env [T2]}
    (h1 : ∀ cx, e1.CallsSpec cx) (h2 : ∀ cx, e2.CallsSpec cx) (cx : PreflightContext) :
    (e1.or e2).CallsSpec cx := by
  intro p
  have hspec := h1 cx
  have hspec2 := h2 cx
  unfold CallsSpec at hspec hspec2
  show _ ∈ ((OrAction.action e1.impl e2.impl).preflight cx (.init e1.spawn e2.spawn)).log ↔ _
  rcases hp1 : e1.impl.preflight cx e1.spawn with ⟨l1, q | ⟨r, s, c⟩⟩
  · rw [OrAction.preflight_panic_left hp1]
    rw [hp1] at hspec
    rcases p with - | ⟨- | - | -, p⟩ <;>
      simp [mem_under_nil, mem_under_cons, Calls, hspec, not_matches_of_panic hp1,
        not_fails_of_panic hp1]
  · have hlog : ((OrAction.action e1.impl e2.impl).preflight cx (.init e1.spawn e2.spawn)).log =
        l1.map (Event.under .left) ++
          (e2.impl.preflight cx e2.spawn).log.map (Event.under .right) := by
      rcases hp2 : e2.impl.preflight cx e2.spawn with ⟨l2, q | ⟨err2 | y, s2, c2⟩⟩
      · rw [OrAction.preflight_panic_right hp1 hp2]
      · rcases r with err | x
        · rw [OrAction.preflight_neither hp1 hp2]
        · rw [OrAction.preflight_left hp1 hp2 fun _ h => nomatch h]
      · rcases r with err | x
        · rw [OrAction.preflight_right hp1 hp2 fun _ h => nomatch h]
        · rcases Nat.lt_or_ge c.popped c2.popped with hlt | hge
          · rw [OrAction.preflight_right hp1 hp2 fun _ _ => hlt]
          · rw [OrAction.preflight_left hp1 hp2 fun _ _ => hge]
    have htried : (∃ c, e1.Matches cx c) ∨ e1.Fails cx := by
      rcases r with err | x
      · exact Or.inr (fails_of_failed hp1)
      · exact Or.inl ⟨c, (matches_iff hp1).mpr rfl⟩
    rw [hlog]
    rw [hp1] at hspec
    rcases p with - | ⟨- | - | -, p⟩ <;>
      simp [mem_under_nil, mem_under_cons, Calls, hspec, hspec2, htried]

theorem calls_orStrict {e1 e2 : Endpoint ε Bd Env ts} (h1 : ∀ cx, e1.CallsSpec cx)
    (h2 : ∀ cx, e2.CallsSpec cx) (cx : PreflightContext) : (e1.orStrict e2).CallsSpec cx := by
  intro p
  have hspec := h1 cx
  have hspec2 := h2 cx
  unfold CallsSpec at hspec hspec2
  show _ ∈ ((OrStrictAction.action e1.impl e2.impl).preflight cx (.init e1.spawn e2.spawn)).log ↔ _
  rcases hp1 : e1.impl.preflight cx e1.spawn with ⟨l1, q | ⟨err | x, s, c⟩⟩
  · rw [OrStrictAction.preflight_panic_left hp1]
    rw [hp1] at hspec
    rcases p with - | ⟨- | - | -, p⟩ <;>
      simp [mem_under_nil, mem_under_cons, Calls, hspec, not_fails_of_panic hp1]
  · have hlog : ((OrStrictAction.action e1.impl e2.impl).preflight cx
        (.init e1.spawn e2.spawn)).log = l1.map (Event.under .left) ++
          (e2.impl.preflight cx e2.spawn).log.map (Event.under .right) := by
      rcases hp2 : e2.impl.preflight cx e2.spawn with ⟨l2, q | ⟨err2 | y, s2, c2⟩⟩
      · rw [OrStrictAction.preflight_panic_right hp1 hp2]
      · rw [OrStrictAction.preflight_neither hp1 hp2]
      · rw [OrStrictAction.preflight_right hp1 hp2]
    rw [hlog]
    rw [hp1] at hspec
    rcases p with - | ⟨- | - | -, p⟩ <;>
      simp [mem_under_nil, mem_under_cons, Calls, hspec, hspec2, fails_of_failed hp1]
  · rw [OrStrictAction.preflight_left hp1]
    rw [hp1] at hspec
    rcases p with - | ⟨- | - | -, p⟩ <;>
      simp [mem_under_nil, mem_under_cons, Calls, hspec, not_fails_of_ok hp1]

theorem calls_andThen {Fut T : Type} {e : Endpoint ε Bd Env ts} (h : ∀ cx, e.CallsSpec cx)
    (fut : FutureAction ε Env Fut T) (f : HList ts → Fut) (cx : PreflightContext) :
    (e.andThen Fut fut f).CallsSpec cx := by
  intro p
  have hspec := h cx
  unfold CallsSpec at hspec
  show _ ∈ ((AndThenAction.action e.impl fut f).preflight cx ⟨e.spawn, none⟩).log ↔ _
  rcases hp : e.impl.preflight cx e.spawn with ⟨l, q | ⟨err | (x | -), s, c⟩⟩
  · rw [AndThenAction.preflight_panic hp]
    rw [hp] at hspec
    rcases p with - | ⟨- | - | -, p⟩ <;>
      simp [mem_under_nil, mem_under_cons, Calls, hspec, Completes, hp]
  · rw [AndThenAction.preflight_failed hp]
    rw [hp] at hspec
    rcases p with - | ⟨- | - | -, p⟩ <;>
      simp [mem_under_nil, mem_under_cons, Calls, hspec, Completes, hp]
  · rw [AndThenAction.preflight_completed hp]
    rw [hp] at hspec
    rcases p with - | ⟨- | - | -, p⟩ <;>
      simp [mem_under_nil, mem_under_cons, Calls, hspec, Completes, hp]
  · rw [AndThenAction.preflight_incomplete hp]
    rw [hp] at hspec
    rcases p with - | ⟨- | - | -, p⟩ <;>
      simp [mem_under_nil, mem_under_cons, Calls, hspec, Completes, hp]

theorem calls_recover {Fut T : Type} {e : Endpoint ε Bd Env [T]} (h : ∀ cx, e.CallsSpec cx)
    (fut : FutureAction ε Env Fut T) (f : Error ε → Fut) (cx : PreflightContext) :
    (e.recover Fut fut f).CallsSpec cx := by
  intro p
  have hspec := h cx
  unfold CallsSpec at hspec
  show _ ∈ ((RecoverAction.action e.impl fut f).preflight cx ⟨e.spawn, none⟩).log ↔ _
  rcases hp : e.impl.preflight cx e.spawn with ⟨l, q | ⟨err | x, s, c⟩⟩
  · rw [RecoverAction.preflight_panic hp]
    rw [hp] at hspec
    rcases p with - | ⟨- | - | -, p⟩ <;>
      simp [mem_under_nil, mem_under_cons, Calls, hspec, not_fails_of_panic hp]
  · rw [RecoverAction.preflight_failed hp]
    rw [hp] at hspec
    rcases p with - | ⟨- | - | -, p⟩ <;>
      simp [mem_under_nil, mem_under_cons, Calls, hspec, fails_of_failed hp]
  · rw [RecoverAction.preflight_ok hp]
    rw [hp] at hspec
    rcases p with - | ⟨- | - | -, p⟩ <;>
      simp [mem_under_nil, mem_under_cons, Calls, hspec, not_fails_of_ok hp]

/-- The closures that `preflight` calls. -/
theorem mem_preflight_call_iff (e : Endpoint ε Bd Env ts) (cx : PreflightContext) :
    e.CallsSpec cx := by
  induction e generalizing cx with
  | leaf σ a init =>
    intro p
    show _ ∈ (a.action.preflight cx init).log ↔ False
    unfold LeafAction.action
    rcases h : a.preflight cx init with q | ⟨r, s, c⟩ <;> simp [h]
  | oneshot σ a init =>
    intro p
    show _ ∈ ((a.action : EndpointAction ε _ _ _ _).preflight cx (some init)).log ↔ False
    unfold OneshotAction.action
    rcases h : a.preflight init cx with q | ⟨r, c⟩ <;> simp [h]
  | future Fut f init =>
    intro p
    show _ ∈ [(⟨[], .preflight cx.cursor .incomplete⟩ : Event)] ↔ False
    simp
  | and e1 e2 ih1 ih2 => exact calls_and ih1 ih2 cx
  | or e1 e2 ih1 ih2 => exact calls_or ih1 ih2 cx
  | orStrict e1 e2 ih1 ih2 => exact calls_orStrict ih1 ih2 cx
  | map e f ih =>
    intro p
    have hlog : ((e.map f).impl.preflight cx (e.map f).spawn).log =
        (e.impl.preflight cx e.spawn).log.map (Event.under .inner) := by
      rcases hp : e.impl.preflight cx e.spawn with ⟨l, q | ⟨r, s, c⟩⟩
      · exact congrArg Traced.log (MapAction.preflight_panic hp)
      · exact congrArg Traced.log (MapAction.preflight_eq hp)
    have hspec := ih cx
    unfold CallsSpec at hspec
    rw [hlog]
    rcases p with - | ⟨- | - | -, p⟩ <;> simp [mem_under_nil, mem_under_cons, Calls, hspec]
  | mapErr e f ih =>
    intro p
    have hlog : ((e.mapErr f).impl.preflight cx (e.mapErr f).spawn).log =
        (e.impl.preflight cx e.spawn).log.map (Event.under .inner) := by
      rcases hp : e.impl.preflight cx e.spawn with ⟨l, q | ⟨r, s, c⟩⟩
      · exact congrArg Traced.log (MapErrAction.preflight_panic hp)
      · exact congrArg Traced.log (MapErrAction.preflight_eq hp)
    have hspec := ih cx
    unfold CallsSpec at hspec
    rw [hlog]
    rcases p with - | ⟨- | - | -, p⟩ <;> simp [mem_under_nil, mem_under_cons, Calls, hspec]
  | andThen Fut e fut f ih => exact calls_andThen ih fut f cx
  | recover Fut e fut f ih => exact calls_recover ih fut f cx
  | boxed e ih => exact ih cx

end Endpoint

/-- Not a poll. -/
def Event.Early (e : Event) : Prop :=
  match e.what with
  | .preflight _ _ => True
  | .call => True
  | _ => False

/-- `preflight` only calls `preflight` and closures. -/
abbrev EarlyOnly {α : Type} (t : Traced Panic Event α) : Prop :=
  Within Event.Early t fun _ => True

theorem earlyOnly_under {α : Type} (d : Dir) {t : Traced Panic Event α} (h : EarlyOnly t) :
    EarlyOnly (under d t) :=
  within_mapLog (Event.under d) (fun _ he => he) h

theorem earlyOnly_callClosure {α Fut : Type} (f : α → Fut) (x : α) :
    EarlyOnly (callClosure f x) := by
  refine within_mk_ok (fun e he => ?_) trivial
  rw [List.mem_singleton.mp he]
  trivial

theorem earlyOnly_maybeDone {f : EndpointAction ε Bd Env σ ts}
    (hf : ∀ cx s, EarlyOnly (f.preflight cx s)) (cx : PreflightContext)
    (m : MaybeDone σ (HList ts)) : EarlyOnly ((MaybeDone.action f).preflight cx m) := by
  match m with
  | .init none => exact within_panic
  | .inFlight _ => exact within_panic
  | .ready _ => exact within_panic
  | .gone => exact within_panic
  | .init (some s) =>
    refine within_bind ((hf cx s).mono fun a _ => ?_)
    obtain ⟨r, s', c⟩ := a
    rcases r with err | (x | -) <;> exact within_pure trivial

theorem earlyOnly_and {e1 : EndpointAction ε Bd Env σ ts} {e2 : EndpointAction ε Bd Env τ us}
    (h1 : ∀ cx s, EarlyOnly (e1.preflight cx s)) (h2 : ∀ cx s, EarlyOnly (e2.preflight cx s))
    (cx : PreflightContext) (s : AndAction σ τ ts us) :
    EarlyOnly ((AndAction.action e1 e2).preflight cx s) := by
  refine within_bind ((earlyOnly_under .left (earlyOnly_maybeDone h1 cx s.f1)).mono fun a _ => ?_)
  obtain ⟨r1, f1, c1⟩ := a
  rcases r1 with err | x1
  · exact within_pure trivial
  refine within_bind ((earlyOnly_under .right (earlyOnly_maybeDone h2 _ s.f2)).mono fun b _ => ?_)
  obtain ⟨r2, f2, c2⟩ := b
  rcases r2 with err | x2
  · exact within_pure trivial
  simp only
  split
  · split
    · exact within_pure trivial
    · exact within_panic
  · exact within_pure trivial

theorem earlyOnly_or {T1 T2 : Type} {e1 : EndpointAction ε Bd Env σ [T1]}
    {e2 : EndpointAction ε Bd Env τ [T2]} (h1 : ∀ cx s, EarlyOnly (e1.preflight cx s))
    (h2 : ∀ cx s, EarlyOnly (e2.preflight cx s)) (cx : PreflightContext) (s : OrState σ τ) :
    EarlyOnly ((OrAction.action e1 e2).preflight cx s) := by
  match s with
  | .left _ => exact within_panic
  | .right _ => exact within_panic
  | .done => exact within_panic
  | .init left right =>
    refine within_bind ((earlyOnly_under .left (h1 cx left)).mono fun a _ => ?_)
    obtain ⟨r1, s1, c1⟩ := a
    refine within_bind ((earlyOnly_under .right (h2 cx right)).mono fun b _ => ?_)
    obtain ⟨r2, s2, c2⟩ := b
    rcases r1 with err | (x | -) <;> rcases r2 with err | (y | -) <;> simp only <;>
      (try split) <;> exact within_pure trivial

theorem earlyOnly_orStrict {e1 : EndpointAction ε Bd Env σ ts}
    {e2 : EndpointAction ε Bd Env τ ts} (h1 : ∀ cx s, EarlyOnly (e1.preflight cx s))
    (h2 : ∀ cx s, EarlyOnly (e2.preflight cx s)) (cx : PreflightContext) (s : OrState σ τ) :
    EarlyOnly ((OrStrictAction.action e1 e2).preflight cx s) := by
  match s with
  | .left _ => exact within_panic
  | .right _ => exact within_panic
  | .done => exact within_panic
  | .init left right =>
    refine within_bind ((earlyOnly_under .left (h1 cx left)).mono fun a _ => ?_)
    obtain ⟨r1, s1, c1⟩ := a
    rcases r1 with err | (x | -)
    · refine within_bind ((earlyOnly_under .right (h2 cx right)).mono fun b _ => ?_)
      obtain ⟨r2, s2, c2⟩ := b
      rcases r2 with err | (y | -) <;> exact within_pure trivial
    · exact within_pure trivial
    · exact within_pure trivial

theorem earlyOnly_andThen {Fut T : Type} {e : EndpointAction ε Bd Env σ ts}
    (h : ∀ cx s, EarlyOnly (e.preflight cx s)) (fut : FutureAction ε Env Fut T)
    (f : HList ts → Fut) (cx : PreflightContext) (s : InFlight σ Fut) :
    EarlyOnly ((AndThenAction.action e fut f).preflight cx s) := by
  unfold AndThenAction.action
  simp only
  split
  · exact within_panic
  refine within_bind ((earlyOnly_under .inner (h cx s.action)).mono fun a _ => ?_)
  obtain ⟨r, s', c⟩ := a
  rcases r with err | (x | -)
  · exact within_pure trivial
  · exact within_bind ((earlyOnly_callClosure f x).mono fun _ _ => within_pure trivial)
  · exact within_pure trivial

theorem earlyOnly_recover {Fut T : Type} {e : EndpointAction ε Bd Env σ [T]}
    (h : ∀ cx s, EarlyOnly (e.preflight cx s)) (fut : FutureAction ε Env Fut T)
    (f : Error ε → Fut) (cx : PreflightContext) (s : InFlight σ Fut) :
    EarlyOnly ((RecoverAction.action e fut f).preflight cx s) := by
  unfold RecoverAction.action
  simp only
  split
  · exact within_panic
  refine within_bind ((earlyOnly_under .inner (h cx s.action)).mono fun a _ => ?_)
  obtain ⟨r, s', c⟩ := a
  rcases r with err | x
  · exact within_bind ((earlyOnly_callClosure f err).mono fun _ _ => within_pure trivial)
  · exact within_pure trivial

/-- Nothing is polled in `preflight`. -/
theorem Endpoint.preflight_early (e : Endpoint ε Bd Env ts) (cx : PreflightContext)
    (s : e.Action) : EarlyOnly (e.impl.preflight cx s) := by
  induction e generalizing cx with
  | leaf σ a init =>
    show EarlyOnly (a.action.preflight cx s)
    unfold LeafAction.action
    rcases h : a.preflight cx s with q | ⟨r, s', c⟩
    · simp only [h]
      exact within_mk_error fun e he => by rw [List.mem_singleton.mp he]; trivial
    · simp only [h]
      exact within_mk_ok (fun e he => by rw [List.mem_singleton.mp he]; trivial) trivial
  | oneshot σ a init =>
    show EarlyOnly ((a.action : EndpointAction ε _ _ _ _).preflight cx s)
    unfold OneshotAction.action
    match s with
    | none => exact within_mk_error fun e he => by rw [List.mem_singleton.mp he]; trivial
    | some act =>
      rcases h : a.preflight act cx with q | ⟨r, c⟩
      · simp only [h]
        exact within_mk_error fun e he => by rw [List.mem_singleton.mp he]; trivial
      · simp only [h]
        exact within_mk_ok (fun e he => by rw [List.mem_singleton.mp he]; trivial) trivial
  | future Fut f init =>
    exact within_mk_ok (fun e he => by rw [List.mem_singleton.mp he]; trivial) trivial
  | and e1 e2 ih1 ih2 => exact earlyOnly_and ih1 ih2 cx s
  | or e1 e2 ih1 ih2 => exact earlyOnly_or ih1 ih2 cx s
  | orStrict e1 e2 ih1 ih2 => exact earlyOnly_orStrict ih1 ih2 cx s
  | map e f ih => exact within_bind ((earlyOnly_under _ (ih cx s)).mono fun a _ => within_pure trivial)
  | mapErr e f ih =>
    exact within_bind ((earlyOnly_under _ (ih cx s)).mono fun a _ => within_pure trivial)
  | andThen Fut e fut f ih => exact earlyOnly_andThen ih fut f cx s
  | recover Fut e fut f ih => exact earlyOnly_recover ih fut f cx s
  | boxed e ih => exact ih cx s

/-! ## The second phase -/

/-- Polled from a state in `P`, an action only records events at places in `Q`, and it stays in
`P`. -/
def Confined (f : EndpointAction ε Bd Env σ ts) (Q : Place → Prop) (P : σ → Prop) : Prop :=
  ∀ s w, P s → Within (fun e => Q e.place) (f.pollAction s w) fun a => P a.2.1

theorem Confined.mono {f : EndpointAction ε Bd Env σ ts} {Q Q' : Place → Prop} {P : σ → Prop}
    (h : Confined f Q P) (hQ : ∀ p, Q p → Q' p) : Confined f Q' P := by
  intro s w hs
  obtain ⟨hlog, hres⟩ := h s w hs
  exact ⟨fun e he => hQ _ (hlog e he), hres⟩

/-- An action that is not polled at all. -/
theorem Confined.unused (f : EndpointAction ε Bd Env σ ts) (Q : Place → Prop) :
    Confined f Q fun _ => False :=
  fun _ _ h => h.elim

theorem within_under {α : Type} {d : Dir} {Q : Place → Prop} {t : Traced Panic Event α}
    {R : α → Prop} (h : Within (fun e => Q (d :: e.place)) t R) :
    Within (fun e => Q e.place) (under d t) R := by
  exact within_mapLog (Event.under d) (fun _ he => he) h

section

variable {Q : Place → Prop}

theorem confined_leaf (a : LeafAction ε Bd Env σ ts) (h : Q []) :
    Confined a.action Q fun _ => True := by
  intro s w _
  unfold LeafAction.action
  have hev : ∀ o, ∀ e ∈ [(⟨[], o⟩ : Event)], Q e.place := by
    intro o e he
    rw [List.mem_singleton.mp he]
    exact h
  rcases ha : a.pollAction s w with p | ⟨r, s', w'⟩
  · simp only [ha]
    exact within_mk_error (hev _)
  · simp only [ha]
    exact within_mk_ok (hev _) trivial

theorem confined_oneshot (a : OneshotAction ε σ ts) (h : Q []) :
    Confined (a.action : EndpointAction ε Bd Env (Option σ) ts) Q fun _ => True := by
  intro s w _
  refine within_mk_error fun e he => ?_
  rw [List.mem_singleton.mp he]
  exact h

theorem confined_future {Fut : Type} (f : FutureAction ε Env Fut (HList ts)) (h : Q []) :
    Confined (f.action : EndpointAction ε Bd Env Fut ts) Q fun _ => True := by
  intro s w _
  refine within_mk_ok (fun e he => ?_) trivial
  have hplace : e.place = [] := by
    rcases List.mem_cons.mp he with rfl | he
    · rfl
    · rw [List.mem_singleton.mp he]
  rw [hplace]
  exact h

/-- What is to be polled of a component of an `and`. -/
def MaybeDone.Holds {T : Type} (P : σ → Prop) (m : MaybeDone σ T) : Prop :=
  ∀ s, m = .inFlight s → P s

theorem confined_maybeDone {f : EndpointAction ε Bd Env σ ts} {P : σ → Prop}
    (h : Confined f Q P) : Confined (MaybeDone.action f) Q (MaybeDone.Holds P) := by
  intro m w hm
  unfold MaybeDone.action
  match m with
  | .init _ => exact within_panic
  | .gone => exact within_panic
  | .ready output => exact within_pure fun s hs => by cases hs
  | .inFlight s =>
    refine within_bind ((h s w (hm s rfl)).mono fun a ha => ?_)
    obtain ⟨r, s', w'⟩ := a
    have hs' : MaybeDone.Holds (T := HList ts) P (.inFlight s') := by
      intro t ht
      cases ht
      exact ha
    match r with
    | .ok .notReady => exact within_pure hs'
    | .error e => exact within_pure hs'
    | .ok (.ready output) => exact within_pure fun t ht => by cases ht

theorem confined_and {e1 : EndpointAction ε Bd Env σ ts} {e2 : EndpointAction ε Bd Env τ us}
    {P1 : σ → Prop} {P2 : τ → Prop} (h1 : Confined e1 (fun p => Q (.left :: p)) P1)
    (h2 : Confined e2 (fun p => Q (.right :: p)) P2) :
    Confined (AndAction.action e1 e2) Q fun s => s.f1.Holds P1 ∧ s.f2.Holds P2 := by
  intro s w hs
  obtain ⟨hs1, hs2⟩ := hs
  refine within_bind ((within_under (confined_maybeDone h1 s.f1 w hs1)).mono fun a ha => ?_)
  obtain ⟨r1, f1, w1⟩ := a
  match r1 with
  | .ok .notReady => exact within_pure ⟨ha, hs2⟩
  | .error e => exact within_pure ⟨ha, hs2⟩
  | .ok (.ready _) =>
    refine within_bind ((within_under (confined_maybeDone h2 s.f2 w1 hs2)).mono fun b hb => ?_)
    obtain ⟨r2, f2, w2⟩ := b
    match r2 with
    | .ok .notReady => exact within_pure ⟨ha, hb⟩
    | .error e => exact within_pure ⟨ha, hb⟩
    | .ok (.ready _) =>
      -- the outputs are taken if both are there, and nothing is left to poll
      have hgone : ∀ {X : Type} {P : σ → Prop}, (MaybeDone.gone : MaybeDone σ X).Holds P := by
        intro X P t ht
        cases ht
      have hgone' : ∀ {X : Type} {P : τ → Prop}, (MaybeDone.gone : MaybeDone τ X).Holds P := by
        intro X P t ht
        cases ht
      cases f1 with
      | ready v1 =>
        cases f2 with
        | ready v2 => exact within_pure ⟨hgone, hgone'⟩
        | _ => exact within_panic
      | _ => exact within_panic

/-- What `or` and `or_strict` poll. -/
def OrState.Holds {L R : Type} (P1 : L → Prop) (P2 : R → Prop) (s : OrState L R) : Prop :=
  (∀ t, s = .left t → P1 t) ∧ ∀ t, s = .right t → P2 t

theorem OrState.holds_left {L R : Type} {P1 : L → Prop} {P2 : R → Prop} {t : L} (h : P1 t) :
    (OrState.left t).Holds P1 P2 :=
  ⟨fun _ ht => (by cases ht; exact h), fun _ ht => by cases ht⟩

theorem OrState.holds_right {L R : Type} {P1 : L → Prop} {P2 : R → Prop} {t : R} (h : P2 t) :
    (OrState.right t).Holds P1 P2 :=
  ⟨fun _ ht => (by cases ht), fun _ ht => by cases ht; exact h⟩

theorem confined_orState {vs : List Type} {c : EndpointAction ε Bd Env (OrState σ τ) vs}
    {e1 : EndpointAction ε Bd Env σ ts} {e2 : EndpointAction ε Bd Env τ us} {P1 : σ → Prop}
    {P2 : τ → Prop} (h : OrState.Forwards c e1 e2) (h1 : Confined e1 (fun p => Q (.left :: p)) P1)
    (h2 : Confined e2 (fun p => Q (.right :: p)) P2) : Confined c Q (OrState.Holds P1 P2) := by
  intro s w hs
  obtain ⟨hs1, hs2⟩ := hs
  match s with
  | .init s t =>
    obtain ⟨p, hp⟩ := h.init s t w
    rw [hp]
    exact within_panic
  | .done =>
    obtain ⟨p, hp⟩ := h.done w
    rw [hp]
    exact within_panic
  | .left t =>
    obtain ⟨out, -, hleft⟩ := h.left
    rw [hleft]
    refine within_bind ((within_under (h1 t w (hs1 t rfl))).mono fun a ha => ?_)
    exact within_pure (OrState.holds_left ha)
  | .right t =>
    obtain ⟨out, -, hright⟩ := h.right
    rw [hright]
    refine within_bind ((within_under (h2 t w (hs2 t rfl))).mono fun a ha => ?_)
    exact within_pure (OrState.holds_right ha)

theorem confined_map {U : Type} {e : EndpointAction ε Bd Env σ ts} {P : σ → Prop}
    (h : Confined e (fun p => Q (.inner :: p)) P) (f : HList ts → U) :
    Confined (MapAction.action e f) Q P := by
  intro s w hs
  exact within_bind ((within_under (h s w hs)).mono fun a ha => within_pure ha)

theorem confined_mapErr {e : EndpointAction ε Bd Env σ ts} {P : σ → Prop}
    (h : Confined e (fun p => Q (.inner :: p)) P) (f : Error ε → Error ε) :
    Confined (MapErrAction.action e f) Q P := by
  intro s w hs
  exact within_bind ((within_under (h s w hs)).mono fun a ha => within_pure ha)

/-- The inner action of an `and_then` or `recover`, as long as it is to be polled. -/
def InFlight.Holds {Fut : Type} (P : σ → Prop) (s : InFlight σ Fut) : Prop :=
  s.inFlight = none → P s.action

theorem within_callClosure {α Fut : Type} (hQ : Q []) (f : α → Fut) (x : α) :
    Within (fun e => Q e.place) (callClosure f x) fun _ => True := by
  refine within_mk_ok (fun e he => ?_) trivial
  rw [List.mem_singleton.mp he]
  exact hQ

theorem within_pollInFlight {Fut T : Type} {P : σ → Prop} (hQ : Q [])
    (fut : FutureAction ε Env Fut T) (s : σ) (inFlight : Fut) (w : World Bd Env) :
    Within (fun e => Q e.place) (pollInFlight fut s inFlight w) fun a => a.2.1.Holds P := by
  refine within_mk_ok (fun e he => ?_) fun h => by cases h
  rw [List.mem_singleton.mp he]
  exact hQ

theorem confined_inFlight {Fut T α : Type} {c : EndpointAction ε Bd Env (InFlight σ Fut) [T]}
    {e : EndpointAction ε Bd Env σ ts} {fut : FutureAction ε Env Fut T} {f : α → Fut}
    {comes : Poll (Error ε) (HList ts) → Prop} {P : σ → Prop}
    (hc : InFlight.Continues c e fut f comes) (hQ : Q [])
    (h : Confined e (fun p => Q (.inner :: p)) P) : Confined c Q (InFlight.Holds P) := by
  intro s w hs
  obtain ⟨action, inFlight⟩ := s
  cases inFlight with
  | some inFlight =>
    rw [hc.inFlight]
    exact within_pollInFlight hQ fut action inFlight w
  | none =>
    obtain ⟨k, hk, hnext⟩ := hc.waiting action w
    rw [hk]
    refine within_bind ((within_under (h action w (hs rfl))).mono fun a ha => ?_)
    obtain ⟨r, action', w'⟩ := a
    rcases hnext r action' w' with ⟨-, x, hx⟩ | ⟨-, r', hpure, -⟩
    · rw [hx]
      refine within_bind ((within_callClosure hQ f x).mono fun inFlight _ => ?_)
      exact within_pollInFlight hQ fut action' inFlight w'
    · rw [hpure]
      exact within_pure fun _ => ha

end

namespace Endpoint

/-- After an incomplete `preflight`, every poll stays within the places that are selected. -/
def ConfinedSpec (e : Endpoint ε Bd Env ts) (cx : PreflightContext) : Prop :=
  ∃ P, Confined e.impl (e.Selects cx) P ∧
    ∀ l s c, e.impl.preflight cx e.spawn = ⟨l, .ok (.ok .incomplete, s, c)⟩ → P s

/-- There is nothing to show if `preflight` is not incomplete. -/
theorem confinedSpec_of_over {e : Endpoint ε Bd Env ts} {cx : PreflightContext}
    (h : ∀ l s c, e.impl.preflight cx e.spawn ≠ ⟨l, .ok (.ok .incomplete, s, c)⟩) :
    e.ConfinedSpec cx :=
  ⟨_, .unused e.impl _, fun l s c hp => h l s c hp⟩

theorem holds_next {T : Type} {P : σ → Prop} {x : Preflight T} {s : σ}
    (h : x = .incomplete → P s) : (MaybeDone.next x s).Holds P := by
  intro t ht
  cases x with
  | completed x => cases ht
  | incomplete =>
    cases ht
    exact h rfl

theorem confinedSpec_and {e1 : Endpoint ε Bd Env ts} {e2 : Endpoint ε Bd Env us}
    (h1 : ∀ cx, e1.ConfinedSpec cx) (h2 : ∀ cx, e2.ConfinedSpec cx) (cx : PreflightContext) :
    (e1.and e2).ConfinedSpec cx := by
  rcases hp1 : e1.impl.preflight cx e1.spawn with ⟨l1, q | ⟨err | x, s1, c1⟩⟩
  · refine confinedSpec_of_over fun l s c h => ?_
    cases (AndAction.preflight_panic_left hp1).symm.trans h
  · refine confinedSpec_of_over fun l s c h => ?_
    cases (AndAction.preflight_failed_left hp1).symm.trans h
  rcases hp2 : e2.impl.preflight { cx with cursor := c1 } e2.spawn with
    ⟨l2, q | ⟨err | y, s2, c2⟩⟩
  · refine confinedSpec_of_over fun l s c h => ?_
    cases (AndAction.preflight_panic_right hp1 hp2).symm.trans h
  · refine confinedSpec_of_over fun l s c h => ?_
    cases (AndAction.preflight_failed_right hp1 hp2).symm.trans h
  obtain ⟨P1, h1, hs1⟩ := h1 cx
  obtain ⟨P2, h2, hs2⟩ := h2 { cx with cursor := c1 }
  have hright : ∀ p, e2.Selects { cx with cursor := c1 } p → (e1.and e2).Selects cx (.right :: p) :=
    fun p hp => ⟨c1, (matches_iff hp1).mpr rfl, hp⟩
  refine ⟨_, confined_and h1 (h2.mono hright), fun l s c h => ?_⟩
  cases (AndAction.preflight_ok hp1 hp2).symm.trans h
  refine ⟨holds_next fun hx => ?_, holds_next fun hy => ?_⟩
  · subst hx
    exact hs1 _ _ _ hp1
  · subst hy
    exact hs2 _ _ _ hp2

theorem confinedSpec_or {T1 T2 : Type} {e1 : Endpoint ε Bd Env [T1]} {e2 : Endpoint ε Bd Env [T2]}
    (h1 : ∀ cx, e1.ConfinedSpec cx) (h2 : ∀ cx, e2.ConfinedSpec cx) (cx : PreflightContext) :
    (e1.or e2).ConfinedSpec cx := by
  obtain ⟨P1, h1, hs1⟩ := h1 cx
  obtain ⟨P2, h2, hs2⟩ := h2 cx
  rcases hp1 : e1.impl.preflight cx e1.spawn with ⟨l1, q | ⟨r1, s1, c1⟩⟩
  · refine confinedSpec_of_over fun l s c h => ?_
    cases (OrAction.preflight_panic_left hp1).symm.trans h
  rcases hp2 : e2.impl.preflight cx e2.spawn with ⟨l2, q | ⟨r2, s2, c2⟩⟩
  · refine confinedSpec_of_over fun l s c h => ?_
    cases (OrAction.preflight_panic_right hp1 hp2).symm.trans h
  -- the side that is not selected is not polled
  have left : ∀ x, r1 = .ok x → (∀ y, r2 = .ok y → c2.popped ≤ c1.popped) →
      (e1.or e2).ConfinedSpec cx := by
    intro x hr hle
    subst hr
    have hsel : ∀ p, e1.Selects cx p → (e1.or e2).Selects cx (.left :: p) := by
      intro p hp
      refine ⟨⟨c1, (matches_iff hp1).mpr rfl, fun c hc => ?_⟩, hp⟩
      rcases r2 with err | y
      · exact absurd hc (not_matches_of_failed hp2)
      · rw [(matches_iff hp2).mp hc]
        exact hle y rfl
    refine ⟨_, confined_orState (OrAction.forwards _ _) (h1.mono hsel) (.unused e2.impl _),
      fun l s c h => ?_⟩
    cases x with
    | completed x => cases (OrAction.preflight_left hp1 hp2 hle).symm.trans h
    | incomplete =>
      cases (OrAction.preflight_left hp1 hp2 hle).symm.trans h
      exact OrState.holds_left (hs1 _ _ _ hp1)
  have right : ∀ y, r2 = .ok y → (∀ x, r1 = .ok x → c1.popped < c2.popped) →
      (e1.or e2).ConfinedSpec cx := by
    intro y hr hlt
    subst hr
    have hsel : ∀ p, e2.Selects cx p → (e1.or e2).Selects cx (.right :: p) := by
      intro p hp
      refine ⟨⟨c2, (matches_iff hp2).mpr rfl, fun c hc => ?_⟩, hp⟩
      rcases r1 with err | x
      · exact absurd hc (not_matches_of_failed hp1)
      · rw [(matches_iff hp1).mp hc]
        exact hlt x rfl
    refine ⟨_, confined_orState (OrAction.forwards _ _) (.unused e1.impl _) (h2.mono hsel),
      fun l s c h => ?_⟩
    cases y with
    | completed y => cases (OrAction.preflight_right hp1 hp2 hlt).symm.trans h
    | incomplete =>
      cases (OrAction.preflight_right hp1 hp2 hlt).symm.trans h
      exact OrState.holds_right (hs2 _ _ _ hp2)
  rcases r1 with err1 | x
  · rcases r2 with err2 | y
    · refine confinedSpec_of_over fun l s c h => ?_
      cases (OrAction.preflight_neither hp1 hp2).symm.trans h
    · exact right y rfl fun _ h => nomatch h
  · rcases r2 with err2 | y
    · exact left x rfl fun _ h => nomatch h
    · rcases Nat.lt_or_ge c1.popped c2.popped with hlt | hge
      · exact right y rfl fun _ _ => hlt
      · exact left x rfl fun _ _ => hge

theorem confinedSpec_orStrict {e1 e2 : Endpoint ε Bd Env ts} (h1 : ∀ cx, e1.ConfinedSpec cx)
    (h2 : ∀ cx, e2.ConfinedSpec cx) (cx : PreflightContext) :
    (e1.orStrict e2).ConfinedSpec cx := by
  obtain ⟨P1, h1, hs1⟩ := h1 cx
  obtain ⟨P2, h2, hs2⟩ := h2 cx
  rcases hp1 : e1.impl.preflight cx e1.spawn with ⟨l1, q | ⟨err1 | x, s1, c1⟩⟩
  · refine confinedSpec_of_over fun l s c h => ?_
    cases (OrStrictAction.preflight_panic_left hp1).symm.trans h
  · rcases hp2 : e2.impl.preflight cx e2.spawn with ⟨l2, q | ⟨err2 | y, s2, c2⟩⟩
    · refine confinedSpec_of_over fun l s c h => ?_
      cases (OrStrictAction.preflight_panic_right hp1 hp2).symm.trans h
    · refine confinedSpec_of_over fun l s c h => ?_
      cases (OrStrictAction.preflight_neither hp1 hp2).symm.trans h
    · have hsel : ∀ p, e2.Selects cx p → (e1.orStrict e2).Selects cx (.right :: p) :=
        fun p hp => ⟨⟨fails_of_failed hp1, c2, (matches_iff hp2).mpr rfl⟩, hp⟩
      refine ⟨_, confined_orState (OrStrictAction.forwards _ _) (.unused e1.impl _) (h2.mono hsel),
        fun l s c h => ?_⟩
      cases (OrStrictAction.preflight_right hp1 hp2).symm.trans h
      exact OrState.holds_right (hs2 _ _ _ hp2)
  · have hsel : ∀ p, e1.Selects cx p → (e1.orStrict e2).Selects cx (.left :: p) :=
      fun p hp => ⟨⟨c1, (matches_iff hp1).mpr rfl⟩, hp⟩
    refine ⟨_, confined_orState (OrStrictAction.forwards _ _) (h1.mono hsel) (.unused e2.impl _),
      fun l s c h => ?_⟩
    cases (OrStrictAction.preflight_left hp1).symm.trans h
    exact OrState.holds_left (hs1 _ _ _ hp1)

theorem confinedSpec_andThen {Fut T : Type} {e : Endpoint ε Bd Env ts} {cx : PreflightContext}
    (h : e.ConfinedSpec cx) (fut : FutureAction ε Env Fut T) (f : HList ts → Fut) :
    (e.andThen Fut fut f).ConfinedSpec cx := by
  obtain ⟨P, h, hs⟩ := h
  refine ⟨_, confined_inFlight (AndThenAction.continues _ fut f) trivial h, fun l s c hp => ?_⟩
  obtain ⟨l₀, r, s₀, hpre, ⟨err, rfl, hr, -⟩ | ⟨x, rfl, -, rfl⟩ | ⟨rfl, -, rfl⟩⟩ :=
    AndThenAction.preflight_inv hp
  · cases hr
  · intro hnone
    cases hnone
  · exact fun _ => hs _ _ _ hpre

theorem confinedSpec_recover {Fut T : Type} {e : Endpoint ε Bd Env [T]} {cx : PreflightContext}
    (h : e.ConfinedSpec cx) (fut : FutureAction ε Env Fut T) (f : Error ε → Fut) :
    (e.recover Fut fut f).ConfinedSpec cx := by
  obtain ⟨P, h, hs⟩ := h
  rcases hpre : e.impl.preflight cx e.spawn with ⟨l₀, q | ⟨err | x, s₀, c₀⟩⟩
  · refine confinedSpec_of_over fun l s c hp => ?_
    cases (RecoverAction.preflight_panic hpre).symm.trans hp
  · refine ⟨_, confined_inFlight (RecoverAction.continues _ fut f) trivial (.unused e.impl _),
      fun l s c hp => ?_⟩
    cases (RecoverAction.preflight_failed hpre).symm.trans hp
    intro hnone
    cases hnone
  · have hsel : ∀ p, e.Selects cx p → (e.recover Fut fut f).Selects cx (.inner :: p) :=
      fun p hp => ⟨⟨c₀, (matches_iff hpre).mpr rfl⟩, hp⟩
    refine ⟨_, confined_inFlight (RecoverAction.continues _ fut f) trivial (h.mono hsel),
      fun l s c hp => ?_⟩
    cases (RecoverAction.preflight_ok hpre).symm.trans hp
    exact fun _ => hs _ _ _ hpre

/-- After an incomplete `preflight`, every poll of an endpoint stays within the places that are
selected. -/
theorem confined (e : Endpoint ε Bd Env ts) (cx : PreflightContext) : e.ConfinedSpec cx := by
  induction e generalizing cx with
  | leaf σ a init => exact ⟨_, confined_leaf a rfl, fun _ _ _ _ => trivial⟩
  | oneshot σ a init => exact ⟨_, confined_oneshot a rfl, fun _ _ _ _ => trivial⟩
  | future Fut f init => exact ⟨_, confined_future f rfl, fun _ _ _ _ => trivial⟩
  | and e1 e2 ih1 ih2 => exact confinedSpec_and ih1 ih2 cx
  | or e1 e2 ih1 ih2 => exact confinedSpec_or ih1 ih2 cx
  | orStrict e1 e2 ih1 ih2 => exact confinedSpec_orStrict ih1 ih2 cx
  | map e f ih =>
    obtain ⟨P, h, hs⟩ := ih cx
    refine ⟨P, confined_map h f, fun l s c hp => ?_⟩
    obtain ⟨l₀, err | (x | -), hpre, hr⟩ := MapAction.preflight_inv hp
    · cases hr
    · cases hr
    · exact hs _ _ _ hpre
  | mapErr e f ih =>
    obtain ⟨P, h, hs⟩ := ih cx
    refine ⟨P, confined_mapErr h f, fun l s c hp => ?_⟩
    obtain ⟨l₀, err | x, hpre, hr⟩ := MapErrAction.preflight_inv hp
    · cases hr
    · cases hr
      exact hs _ _ _ hpre
  | andThen Fut e fut f ih => exact confinedSpec_andThen (ih cx) fut f
  | recover Fut e fut f ih => exact confinedSpec_recover (ih cx) fut f
  | boxed e ih => exact ih cx

end Endpoint

/-! ## Runs -/

/-- A run in flight stays within the places its action is confined to. -/
theorem AppFuture.drive_within {f : EndpointAction ε Bd Env σ ts} {Q : Place → Prop} {P : σ → Prop}
    (hf : Confined f Q P) (gs : List (Thread Env → Thread Env)) {s : σ} (hs : P s)
    (context : Context) (body : Option Bd) (th : Thread Env) :
    Within (fun e => Q e.place) (drive f gs ⟨.inFlight s, context, body⟩ th) fun _ => True := by
  induction gs generalizing s context body th with
  | nil => exact within_pure trivial
  | cons g gs ih =>
    have hpoll : Within (fun e => Q e.place)
        (pollApply f ⟨.inFlight s, context, body⟩ (g th))
        fun a => ∃ s', a.2.1.state = .inFlight s' ∧ P s' :=
      within_bind ((hf s _ hs).mono fun a ha => within_pure ⟨a.2.1, rfl, ha⟩)
    refine within_bind (hpoll.mono fun a ha => ?_)
    obtain ⟨r, fut, th'⟩ := a
    obtain ⟨state, context', body'⟩ := fut
    obtain ⟨s', rfl, hs'⟩ := ha
    match r with
    | .ok (.ready x) => exact within_pure trivial
    | .error e => exact within_pure trivial
    | .ok .notReady => exact ih hs' context' body' th'

open AppFuture in
/-- **Which closures a run calls.**  `preflight` calls the closures whose input is there already,
exactly those, whatever is selected afterwards, and polls nothing.  Everything that happens later,
any other call of a closure and any poll of a future in particular, happens only if `preflight` of
the whole tree succeeded, and at a place that every `or` and `or_strict` around it selected. -/
theorem closure_called (e : Endpoint ε Bd Env ts) (addr : Nat) (request : Request) (body : Bd)
    (g : Thread Env → Thread Env) (gs : List (Thread Env → Thread Env)) (th : Thread Env) :
    let cx := PreflightContext.new (.new addr request)
    ∃ later, (drive e.impl (g :: gs) (.dispatch e addr request body) th).log =
        (e.preflight cx).log ++ later ∧
      (∀ p, (⟨p, .call⟩ : Event) ∈ (e.preflight cx).log ↔ e.Calls cx p) ∧
      (∀ ev ∈ (e.preflight cx).log, ev.Early) ∧
      ∀ ev ∈ later, (∃ c, e.Matches cx c) ∧ e.Selects cx ev.place := by
  intro cx
  have hcalls := e.mem_preflight_call_iff cx
  have hearly := (e.preflight_early cx e.spawn).log
  obtain ⟨P, hconf, hstart⟩ := e.confined cx
  rcases hp : e.impl.preflight cx e.spawn with ⟨l, q | ⟨err | (x | -), s, c⟩⟩
  · have hrun := drive_panics hp (some body) g gs th
    refine ⟨[], ?_, hcalls, hearly, fun ev hev => by cases hev⟩
    show (drive e.impl (g :: gs) ⟨_, _, _⟩ th).log = (e.impl.preflight cx e.spawn).log ++ []
    rw [hrun, hp, List.append_nil]
  · have hrun := drive_failed hp (some body) g gs th
    refine ⟨[], ?_, hcalls, hearly, fun ev hev => by cases hev⟩
    show (drive e.impl (g :: gs) ⟨_, _, _⟩ th).log = (e.impl.preflight cx e.spawn).log ++ []
    rw [hrun, hp, List.append_nil]
  · have hrun := drive_completed hp (some body) g gs th
    refine ⟨[], ?_, hcalls, hearly, fun ev hev => by cases hev⟩
    show (drive e.impl (g :: gs) ⟨_, _, _⟩ th).log = (e.impl.preflight cx e.spawn).log ++ []
    rw [hrun, hp, List.append_nil]
  · have hrun := drive_incomplete hp (some body) g gs th
    have hwithin := drive_within hconf (g :: gs) (hstart _ _ _ hp) (.new addr request) (some body) th
    refine ⟨_, ?_, hcalls, hearly, fun ev hev =>
      ⟨⟨c, (Endpoint.matches_iff hp).mpr rfl⟩, hwithin.log ev hev⟩⟩
    show (drive e.impl (g :: gs) ⟨_, _, _⟩ th).log = (e.impl.preflight cx e.spawn).log ++ _
    rw [hrun, hp]
    rfl

/-! ## A handler of an alternative that is not selected -/

/-- A future that is ready at once. -/
def readyFuture : FutureAction Empty Unit Nat Nat where
  poll n th := (.ok (.ready n), n, th)
  keeps _ _ := rfl

/-- `value(0).and_then(f).or(segment("a").map(|| ()))`. -/
def valueOrSegment : Endpoint Empty Unit Unit [Nat ⊕ Unit] :=
  .or (.andThen Nat (.oneshot Nat (ValueAction Nat) 0) readyFuture (·.head))
    (.map (.oneshot MatchSegment MatchSegmentAction (segment ['a'])) fun _ => ())

/-- `GET /a`. -/
def getA : Request := ⟨.get, .origin ⟨['/', 'a'], none, rfl⟩, []⟩

/-- `f` is called, although the `or` selects `segment("a")`. -/
theorem closure_called_unselected :
    (⟨[.left], .call⟩ : Event) ∈ (AppFuture.drive valueOrSegment.impl [id]
      (.dispatch valueOrSegment 0 getA ()) ⟨none, ()⟩).log ∧
    ¬ valueOrSegment.Selects (.new (.new 0 getA)) [.left] := by
  refine ⟨?_, fun h => ?_⟩
  · have hlog : (AppFuture.drive valueOrSegment.impl [id] (.dispatch valueOrSegment 0 getA ())
        ⟨none, ()⟩).log = [⟨[.left, .inner], .preflight ⟨1, 0⟩ .completed⟩, ⟨[.left], .call⟩,
          ⟨[.right, .inner], .preflight ⟨1, 0⟩ .completed⟩] := rfl
    rw [hlog]
    decide
  · obtain ⟨⟨c1, hvalue, hle⟩, -⟩ := h
    have hsegment := hle ⟨2, 1⟩ ⟨_, _, _, rfl⟩
    rw [(Endpoint.matches_iff rfl).mp hvalue] at hsegment
    exact absurd hsegment (by decide)

end Finchers
