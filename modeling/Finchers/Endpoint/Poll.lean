import Finchers.Endpoint.Ext

/-!
# One poll of a combinator

What a poll of a combinator does, in terms of a poll of its components.

* `MaybeDone.poll_cases` — a component of an `and` that is ready keeps its output;
* `AndAction.poll_left_goes_on`, `poll_right_goes_on` — a poll of an `and` goes on as the poll of its
  component does; `AndAction.poll_inv` — how far it got;
* `OrState.Forwards` — `or` and `or_strict` pass a poll on to the side that was selected;
* `InFlight.Continues` — `and_then` and `recover` poll the future of the closure; before there is one
  they poll the inner action, whose result may bring one.
-/

set_option autoImplicit false

namespace Finchers

open Resumable

variable {ε Bd Env σ τ : Type} {ts us vs : List Type}

/-! ## `and` -/

namespace MaybeDone

variable {e : EndpointAction ε Bd Env σ ts}

theorem poll_inFlight (e : EndpointAction ε Bd Env σ ts) (s : σ) (w : World Bd Env) :
    (MaybeDone.action e).pollAction (.inFlight s) w = (do
      let (r, action, w) ← e.pollAction s w
      match r with
      | .ok .notReady => return (.ok .notReady, .inFlight action, w)
      | .error e => return (.error e, .inFlight action, w)
      | .ok (.ready output) => return (.ok (.ready ()), .ready output, w)) := rfl

theorem poll_ready (e : EndpointAction ε Bd Env σ ts) (v : HList ts) (w : World Bd Env) :
    (MaybeDone.action e).pollAction (.ready v) w = ⟨[], .ok (.ok (.ready ()), .ready v, w)⟩ := rfl

/-- A component that is ready after a poll keeps its output. -/
theorem poll_cases (e : EndpointAction ε Bd Env σ ts) (m : MaybeDone σ (HList ts))
    (w : World Bd Env) :
    (∃ l p, (MaybeDone.action e).pollAction m w = ⟨l, .error p⟩) ∨
    (∃ l m' w', (MaybeDone.action e).pollAction m w = ⟨l, .ok (.ok .notReady, m', w')⟩) ∨
    (∃ l err m' w', (MaybeDone.action e).pollAction m w = ⟨l, .ok (.error err, m', w')⟩) ∨
    ∃ l v w', (MaybeDone.action e).pollAction m w = ⟨l, .ok (.ok (.ready ()), .ready v, w')⟩ := by
  cases m with
  | init action => exact Or.inl ⟨[], _, rfl⟩
  | gone => exact Or.inl ⟨[], _, rfl⟩
  | ready v => exact Or.inr (Or.inr (Or.inr ⟨[], v, w, rfl⟩))
  | inFlight s =>
    rw [poll_inFlight]
    rcases (e.pollAction s w).eq_ok_or_error with ⟨l, ⟨r, s', w'⟩, h⟩ | ⟨l, p, h⟩
    · rw [h]
      match r with
      | .ok .notReady => exact Or.inr (Or.inl ⟨l, .inFlight s', w', by simp⟩)
      | .error err => exact Or.inr (Or.inr (Or.inl ⟨l, err, .inFlight s', w', by simp⟩))
      | .ok (.ready v) => exact Or.inr (Or.inr (Or.inr ⟨l, v, w', by simp⟩))
    · exact Or.inl ⟨l, p, by rw [h]; rfl⟩

/-- A component whose poll goes on as one from another state. -/
theorem poll_goes_on {s s' : σ} {w w' : World Bd Env} {l : List Event}
    (h : e.pollAction s w = (e.pollAction s' w').prepend l) :
    (MaybeDone.action e).pollAction (.inFlight s) w =
      ((MaybeDone.action e).pollAction (.inFlight s') w').prepend l := by
  rw [poll_inFlight, h, Traced.prepend_bind]
  rfl

/-- Once a component is ready, the poll goes on as if it had been before. -/
theorem poll_now_ready {m : MaybeDone σ (HList ts)} {v : HList ts} {w w' : World Bd Env}
    {l : List Event}
    (h : (MaybeDone.action e).pollAction m w = ⟨l, .ok (.ok (.ready ()), .ready v, w')⟩) :
    (MaybeDone.action e).pollAction m w =
      ((MaybeDone.action e).pollAction (.ready v) w').prepend l := by
  rw [h, poll_ready, Traced.prepend_mk, List.append_nil]

end MaybeDone

namespace AndAction

variable {e1 : EndpointAction ε Bd Env σ ts} {e2 : EndpointAction ε Bd Env τ us}
  {w w' : World Bd Env} {l : List Event}

/-- The poll goes on as that of the left component. -/
theorem poll_left_goes_on (e2 : EndpointAction ε Bd Env τ us) {f1 f1' : MaybeDone σ (HList ts)}
    (h : (MaybeDone.action e1).pollAction f1 w =
      ((MaybeDone.action e1).pollAction f1' w').prepend l) (f2 : MaybeDone τ (HList us)) :
    (action e1 e2).pollAction ⟨f1, f2⟩ w =
      ((action e1 e2).pollAction ⟨f1', f2⟩ w').prepend (l.map (Event.under .left)) := by
  simp only [action, under]
  rw [h, Traced.mapLog_prepend, Traced.prepend_bind]

/-- With the left component ready, the poll goes on as that of the right one. -/
theorem poll_right_goes_on (e1 : EndpointAction ε Bd Env σ ts) (v : HList ts)
    {f2 f2' : MaybeDone τ (HList us)}
    (h : (MaybeDone.action e2).pollAction f2 w =
      ((MaybeDone.action e2).pollAction f2' w').prepend l) :
    (action e1 e2).pollAction ⟨.ready v, f2⟩ w =
      ((action e1 e2).pollAction ⟨.ready v, f2'⟩ w').prepend (l.map (Event.under .right)) := by
  simp only [action, under, MaybeDone.poll_ready, Traced.mapLog_mk, List.map_nil, Traced.mk_ok_bind,
    Traced.prepend_nil]
  rw [h, Traced.mapLog_prepend, Traced.prepend_bind]

/-- Both components are ready: their outputs are taken. -/
theorem poll_both_ready (v1 : HList ts) (v2 : HList us) (w : World Bd Env) :
    (action e1 e2).pollAction ⟨.ready v1, .ready v2⟩ w =
      ⟨[], .ok (.ok (.ready (v1.combine v2)), ⟨.gone, .gone⟩, w)⟩ := rfl

/-- **Inversion**: the left component is not ready, or it is and the right one is not, or both are, or
one of them failed. -/
theorem poll_inv {f1 : MaybeDone σ (HList ts)} {f2 : MaybeDone τ (HList us)}
    {r : Poll (Error ε) (HList (ts ++ us))} {s' : AndAction σ τ ts us}
    (h : (action e1 e2).pollAction ⟨f1, f2⟩ w = ⟨l, .ok (r, s', w')⟩) :
    (∃ l1 f1', (MaybeDone.action e1).pollAction f1 w = ⟨l1, .ok (.ok .notReady, f1', w')⟩ ∧
      r = .ok .notReady ∧ s' = ⟨f1', f2⟩) ∨
    (∃ l1 v1 w1, (MaybeDone.action e1).pollAction f1 w = ⟨l1, .ok (.ok (.ready ()), .ready v1, w1)⟩ ∧
      ((∃ l2 f2', (MaybeDone.action e2).pollAction f2 w1 = ⟨l2, .ok (.ok .notReady, f2', w')⟩ ∧
          r = .ok .notReady ∧ s' = ⟨.ready v1, f2'⟩) ∨
        ∃ l2 v2, (MaybeDone.action e2).pollAction f2 w1 =
            ⟨l2, .ok (.ok (.ready ()), .ready v2, w')⟩ ∧ r = .ok (.ready (v1.combine v2)))) ∨
    ∃ err, r = .error err := by
  rcases MaybeDone.poll_cases e1 f1 w with ⟨l1, p, h1⟩ | ⟨l1, f1', w1, h1⟩ | ⟨l1, err, f1', w1, h1⟩ |
    ⟨l1, v1, w1, h1⟩
  · simp only [action, under, h1, Traced.mapLog_mk, Traced.mk_error_bind] at h
    cases congrArg Traced.res h
  · simp only [action, under, h1, Traced.mapLog_mk, Traced.mk_ok_bind] at h
    cases congrArg Traced.res h
    exact Or.inl ⟨l1, f1', h1, rfl, rfl⟩
  · simp only [action, under, h1, Traced.mapLog_mk, Traced.mk_ok_bind] at h
    cases congrArg Traced.res h
    exact Or.inr (Or.inr ⟨err, rfl⟩)
  rw [poll_left_goes_on e2 (MaybeDone.poll_now_ready h1)] at h
  rcases MaybeDone.poll_cases e2 f2 w1 with ⟨l2, p, h2⟩ | ⟨l2, f2', w2, h2⟩ |
    ⟨l2, err, f2', w2, h2⟩ | ⟨l2, v2, w2, h2⟩
  · simp only [action, under, MaybeDone.poll_ready, h2, Traced.mapLog_mk, Traced.mk_ok_bind,
      Traced.mk_error_bind] at h
    cases congrArg Traced.res h
  · simp only [action, under, MaybeDone.poll_ready, h2, Traced.mapLog_mk, Traced.mk_ok_bind] at h
    cases congrArg Traced.res h
    exact Or.inr (Or.inl ⟨l1, v1, w1, h1, Or.inl ⟨l2, f2', h2, rfl, rfl⟩⟩)
  · simp only [action, under, MaybeDone.poll_ready, h2, Traced.mapLog_mk, Traced.mk_ok_bind] at h
    cases congrArg Traced.res h
    exact Or.inr (Or.inr ⟨err, rfl⟩)
  · rw [poll_right_goes_on e1 v1 (MaybeDone.poll_now_ready h2), poll_both_ready] at h
    cases congrArg Traced.res h
    exact Or.inr (Or.inl ⟨l1, v1, w1, h1, Or.inr ⟨l2, v2, h2, rfl⟩⟩)

end AndAction

/-! ## `or` and `or_strict` -/

/-- `c` is polled with a side selected, and passes the poll on to it: `e1` or `e2`. -/
structure OrState.Forwards (c : EndpointAction ε Bd Env (OrState σ τ) vs)
    (e1 : EndpointAction ε Bd Env σ ts) (e2 : EndpointAction ε Bd Env τ us) : Prop where
  init : ∀ s t w, ∃ p, c.pollAction (.init s t) w = Traced.panic p
  done : ∀ w, ∃ p, c.pollAction .done w = Traced.panic p
  left : ∃ out : Poll (Error ε) (HList ts) → Poll (Error ε) (HList vs),
    (∀ {r}, out r = .ok .notReady → r = .ok .notReady) ∧
      ∀ t w, c.pollAction (.left t) w = do
        let (r, t, w) ← under .left (e1.pollAction t w)
        return (out r, .left t, w)
  right : ∃ out : Poll (Error ε) (HList us) → Poll (Error ε) (HList vs),
    (∀ {r}, out r = .ok .notReady → r = .ok .notReady) ∧
      ∀ t w, c.pollAction (.right t) w = do
        let (r, t, w) ← under .right (e2.pollAction t w)
        return (out r, .right t, w)

theorem OrAction.forwards {T1 T2 : Type} (e1 : EndpointAction ε Bd Env σ [T1])
    (e2 : EndpointAction ε Bd Env τ [T2]) : OrState.Forwards (OrAction.action e1 e2) e1 e2 where
  init _ _ _ := ⟨_, rfl⟩
  done _ := ⟨_, rfl⟩
  left := ⟨Poll.map _, Poll.map_eq_notReady, fun _ _ => rfl⟩
  right := ⟨Poll.map _, Poll.map_eq_notReady, fun _ _ => rfl⟩

theorem OrStrictAction.forwards (e1 : EndpointAction ε Bd Env σ ts)
    (e2 : EndpointAction ε Bd Env τ ts) :
    OrState.Forwards (OrStrictAction.action e1 e2) e1 e2 where
  init _ _ _ := ⟨_, rfl⟩
  done _ := ⟨_, rfl⟩
  left := ⟨id, id, fun _ _ => rfl⟩
  right := ⟨id, id, fun _ _ => rfl⟩

/-! ## `and_then` and `recover` -/

/-- `c` polls the future that the closure `f` returned; until there is one it polls `e`, and if `comes`
holds of the result then it calls the closure and polls its future at once. -/
structure InFlight.Continues {Fut T α : Type} (c : EndpointAction ε Bd Env (InFlight σ Fut) [T])
    (e : EndpointAction ε Bd Env σ ts) (fut : FutureAction ε Env Fut T) (f : α → Fut)
    (comes : Poll (Error ε) (HList ts) → Prop) : Prop where
  inFlight : ∀ s x w, c.pollAction ⟨s, some x⟩ w = pollInFlight fut s x w
  waiting : ∀ s w, ∃ k, c.pollAction ⟨s, none⟩ w = under .inner (e.pollAction s w) >>= k ∧
    ∀ r s' w', (comes r ∧ ∃ x, k (r, s', w') = do
        let inFlight ← callClosure f x
        pollInFlight fut s' inFlight w') ∨
      (¬ comes r ∧ ∃ r', k (r, s', w') = pure (r', ⟨s', none⟩, w') ∧
        (r' = .ok .notReady → r = .ok .notReady))

theorem AndThenAction.continues {Fut T : Type} (e : EndpointAction ε Bd Env σ ts)
    (fut : FutureAction ε Env Fut T) (f : HList ts → Fut) :
    InFlight.Continues (AndThenAction.action e fut f) e fut f fun r => ∃ x, r = .ok (.ready x) where
  inFlight _ _ _ := rfl
  waiting s w := by
    refine ⟨_, rfl, fun r s' w' => ?_⟩
    match r with
    | .error err => exact Or.inr ⟨by rintro ⟨x, ⟨⟩⟩, _, rfl, by rintro ⟨⟩⟩
    | .ok .notReady => exact Or.inr ⟨by rintro ⟨x, ⟨⟩⟩, _, rfl, fun _ => rfl⟩
    | .ok (.ready x) => exact Or.inl ⟨⟨x, rfl⟩, x, rfl⟩

theorem RecoverAction.continues {Fut T : Type} (e : EndpointAction ε Bd Env σ [T])
    (fut : FutureAction ε Env Fut T) (f : Error ε → Fut) :
    InFlight.Continues (RecoverAction.action e fut f) e fut f fun r => ∃ err, r = .error err where
  inFlight _ _ _ := rfl
  waiting s w := by
    refine ⟨_, rfl, fun r s' w' => ?_⟩
    match r with
    | .ok x => exact Or.inr ⟨by rintro ⟨err, ⟨⟩⟩, _, rfl, id⟩
    | .error err => exact Or.inl ⟨⟨err, rfl⟩, err, rfl⟩

end Finchers
