import Finchers.Endpoint.Ext

/-!
# One `preflight` of a combinator

What `preflight` of a new action of each combinator does, in terms of what `preflight` of its
components does: one lemma for each way it can go.

* `AndAction.preflight_ok`, `preflight_inv` — both components are called in turn, and their outputs
  are kept;
* `OrAction.preflight_left`, `preflight_right` — the selected side;
* `OrStrictAction.preflight_left`, `preflight_right` — the right side is only tried if the left one
  fails;
* `AndThenAction.preflight_completed`, `RecoverAction.preflight_failed` — where a closure is called;
* `*.preflight_inv` — what an answer says about the inner action.
-/

set_option autoImplicit false

namespace Finchers

open Resumable

variable {ε Bd Env σ τ : Type} {ts us : List Type} {cx : PreflightContext} {l1 l2 : List Event}
  {c1 c2 : CursorInner} {p : Panic}

/-! ## `and` -/

/-- A component of an `and` after its `preflight` succeeded. -/
def MaybeDone.next {T : Type} (x : Preflight T) (s : σ) : MaybeDone σ T :=
  match x with
  | .completed output => .ready output
  | .incomplete => .inFlight s

namespace AndAction

variable {e1 : EndpointAction ε Bd Env σ ts} {e2 : EndpointAction ε Bd Env τ us} {left s1 : σ}
  {right s2 : τ} {x : Preflight (HList ts)} {y : Preflight (HList us)} {err : Error ε}

theorem preflight_panic_left (h1 : e1.preflight cx left = ⟨l1, .error p⟩) :
    (action e1 e2).preflight cx ⟨.init (some left), .init (some right)⟩ =
      ⟨l1.map (Event.under .left), .error p⟩ := by
  simp [action, MaybeDone.action, under, h1]

theorem preflight_failed_left (h1 : e1.preflight cx left = ⟨l1, .ok (.error err, s1, c1)⟩) :
    (action e1 e2).preflight cx ⟨.init (some left), .init (some right)⟩ =
      ⟨l1.map (Event.under .left),
        .ok (.error err, ⟨.init none, .init (some right)⟩, c1)⟩ := by
  simp [action, MaybeDone.action, under, h1]

/-- The first half of `preflight`: the left component matched. -/
theorem preflight_left (h1 : e1.preflight cx left = ⟨l1, .ok (.ok x, s1, c1)⟩) :
    (MaybeDone.action e1).preflight cx (.init (some left)) =
      ⟨l1, .ok (.ok .incomplete, .next x s1, c1)⟩ := by
  cases x <;> simp [MaybeDone.action, MaybeDone.next, h1]

theorem preflight_panic_right (h1 : e1.preflight cx left = ⟨l1, .ok (.ok x, s1, c1)⟩)
    (h2 : e2.preflight { cx with cursor := c1 } right = ⟨l2, .error p⟩) :
    (action e1 e2).preflight cx ⟨.init (some left), .init (some right)⟩ =
      ⟨l1.map (Event.under .left) ++ l2.map (Event.under .right), .error p⟩ := by
  simp only [action, under, preflight_left h1]
  simp [MaybeDone.action, h2]

theorem preflight_failed_right (h1 : e1.preflight cx left = ⟨l1, .ok (.ok x, s1, c1)⟩)
    (h2 : e2.preflight { cx with cursor := c1 } right = ⟨l2, .ok (.error err, s2, c2)⟩) :
    (action e1 e2).preflight cx ⟨.init (some left), .init (some right)⟩ =
      ⟨l1.map (Event.under .left) ++ l2.map (Event.under .right),
        .ok (.error err, ⟨.next x s1, .init none⟩, c2)⟩ := by
  simp only [action, under, preflight_left h1]
  simp [MaybeDone.action, h2]

/-- Both components match; the outputs are kept for the second phase. -/
theorem preflight_ok (h1 : e1.preflight cx left = ⟨l1, .ok (.ok x, s1, c1)⟩)
    (h2 : e2.preflight { cx with cursor := c1 } right = ⟨l2, .ok (.ok y, s2, c2)⟩) :
    (action e1 e2).preflight cx ⟨.init (some left), .init (some right)⟩ =
      ⟨l1.map (Event.under .left) ++ l2.map (Event.under .right),
        .ok (.ok .incomplete, ⟨.next x s1, .next y s2⟩, c2)⟩ := by
  simp [action, under, preflight_left h1, preflight_left h2, Preflight.isCompleted]

/-- **Inversion**: an `and` that matched has two components that matched, and is incomplete. -/
theorem preflight_inv {l : List Event} {z : Preflight (HList (ts ++ us))} {s : AndAction σ τ ts us}
    {c : CursorInner}
    (h : (action e1 e2).preflight cx ⟨.init (some left), .init (some right)⟩ =
      ⟨l, .ok (.ok z, s, c)⟩) :
    z = .incomplete ∧ ∃ l1 x s1 c1 l2 y s2, e1.preflight cx left = ⟨l1, .ok (.ok x, s1, c1)⟩ ∧
      e2.preflight { cx with cursor := c1 } right = ⟨l2, .ok (.ok y, s2, c)⟩ := by
  rcases (e1.preflight cx left).eq_ok_or_error with ⟨l1, ⟨r1, s1, c1⟩, h1⟩ | ⟨l1, p, h1⟩
  swap
  · rw [preflight_panic_left h1] at h
    cases congrArg Traced.res h
  rcases r1 with err | x
  · rw [preflight_failed_left h1] at h
    cases congrArg Traced.res h
  rcases (e2.preflight { cx with cursor := c1 } right).eq_ok_or_error with
    ⟨l2, ⟨r2, s2, c2⟩, h2⟩ | ⟨l2, p, h2⟩
  swap
  · rw [preflight_panic_right h1 h2] at h
    cases congrArg Traced.res h
  rcases r2 with err | y
  · rw [preflight_failed_right h1 h2] at h
    cases congrArg Traced.res h
  · rw [preflight_ok h1 h2] at h
    cases congrArg Traced.res h
    exact ⟨rfl, l1, x, s1, c1, l2, y, s2, h1, h2⟩

end AndAction

/-! ## `or` and `or_strict` -/

/-- The state after a side of an `or` or `or_strict` was selected. -/
def OrState.next {T L R : Type} (x : Preflight T) (s : OrState L R) : OrState L R :=
  if x.isCompleted then .done else s

namespace OrAction

variable {T1 T2 : Type} {e1 : EndpointAction ε Bd Env σ [T1]} {e2 : EndpointAction ε Bd Env τ [T2]}
  {left s1 : σ} {right s2 : τ}

/-- The left side is selected if the right one fails or pops no more segments. -/
theorem preflight_left {x : Preflight (HList [T1])} {r2 : Except (Error ε) (Preflight (HList [T2]))}
    (h1 : e1.preflight cx left = ⟨l1, .ok (.ok x, s1, c1)⟩)
    (h2 : e2.preflight cx right = ⟨l2, .ok (r2, s2, c2)⟩)
    (hle : ∀ y, r2 = .ok y → c2.popped ≤ c1.popped) :
    (action e1 e2).preflight cx (.init left right) =
      ⟨l1.map (Event.under .left) ++ l2.map (Event.under .right),
        .ok (.ok (x.map fun out => .single (.inl out.head)),
          OrState.next x (.left s1), c1)⟩ := by
  unfold action under
  simp only [h1, h2, Traced.mapLog_mk, Traced.mk_ok_bind]
  rcases r2 with e | y
  · cases x <;> simp [Preflight.map, OrState.next, Preflight.isCompleted]
  · have hge : c1.popped ≥ c2.popped := hle y rfl
    cases x <;> simp [hge, Preflight.map, OrState.next, Preflight.isCompleted]

/-- The right side is selected if the left one fails or pops fewer segments. -/
theorem preflight_right {y : Preflight (HList [T2])} {r1 : Except (Error ε) (Preflight (HList [T1]))}
    (h1 : e1.preflight cx left = ⟨l1, .ok (r1, s1, c1)⟩)
    (h2 : e2.preflight cx right = ⟨l2, .ok (.ok y, s2, c2)⟩)
    (hlt : ∀ x, r1 = .ok x → c1.popped < c2.popped) :
    (action e1 e2).preflight cx (.init left right) =
      ⟨l1.map (Event.under .left) ++ l2.map (Event.under .right),
        .ok (.ok (y.map fun out => .single (.inr out.head)),
          OrState.next y (.right s2), c2)⟩ := by
  unfold action under
  simp only [h1, h2, Traced.mapLog_mk, Traced.mk_ok_bind]
  rcases r1 with e | x
  · cases y <;> simp [Preflight.map, OrState.next, Preflight.isCompleted]
  · have hge : ¬ c1.popped ≥ c2.popped := by
      have := hlt x rfl
      omega
    cases y <;> simp [hge, Preflight.map, OrState.next, Preflight.isCompleted]

/-- Both sides fail. -/
theorem preflight_neither {err1 err2 : Error ε}
    (h1 : e1.preflight cx left = ⟨l1, .ok (.error err1, s1, c1)⟩)
    (h2 : e2.preflight cx right = ⟨l2, .ok (.error err2, s2, c2)⟩) :
    (action e1 e2).preflight cx (.init left right) =
      ⟨l1.map (Event.under .left) ++ l2.map (Event.under .right),
        .ok (.error (.notMatched err1 err2), .done, c2)⟩ := by
  unfold action under
  simp [h1, h2]

/-- A panic of the left side is one of the `or`; its right side is not tried. -/
theorem preflight_panic_left {p : Panic} (h1 : e1.preflight cx left = ⟨l1, .error p⟩) :
    (action e1 e2).preflight cx (.init left right) = ⟨l1.map (Event.under .left), .error p⟩ := by
  unfold action under
  simp [h1]

theorem preflight_panic_right {p : Panic} {r1 : Except (Error ε) (Preflight (HList [T1]))}
    (h1 : e1.preflight cx left = ⟨l1, .ok (r1, s1, c1)⟩)
    (h2 : e2.preflight cx right = ⟨l2, .error p⟩) :
    (action e1 e2).preflight cx (.init left right) =
      ⟨l1.map (Event.under .left) ++ l2.map (Event.under .right), .error p⟩ := by
  unfold action under
  simp [h1, h2]

end OrAction

namespace OrStrictAction

variable {e1 : EndpointAction ε Bd Env σ ts} {e2 : EndpointAction ε Bd Env τ ts} {left s1 : σ}
  {right s2 : τ} {x : Preflight (HList ts)} {err1 err2 : Error ε}

theorem preflight_panic_left (h1 : e1.preflight cx left = ⟨l1, .error p⟩) :
    (action e1 e2).preflight cx (.init left right) = ⟨l1.map (Event.under .left), .error p⟩ := by
  simp [action, under, h1]

/-- The left side matches; the right one is not tried. -/
theorem preflight_left (h1 : e1.preflight cx left = ⟨l1, .ok (.ok x, s1, c1)⟩) :
    (action e1 e2).preflight cx (.init left right) =
      ⟨l1.map (Event.under .left), .ok (.ok x, .next x (.left s1), c1)⟩ := by
  cases x <;> simp [action, under, h1, OrState.next, Preflight.isCompleted]

theorem preflight_panic_right (h1 : e1.preflight cx left = ⟨l1, .ok (.error err1, s1, c1)⟩)
    (h2 : e2.preflight cx right = ⟨l2, .error p⟩) :
    (action e1 e2).preflight cx (.init left right) =
      ⟨l1.map (Event.under .left) ++ l2.map (Event.under .right), .error p⟩ := by
  simp [action, under, h1, h2]

/-- The left side fails and the right one matches, from the cursor of the whole. -/
theorem preflight_right (h1 : e1.preflight cx left = ⟨l1, .ok (.error err1, s1, c1)⟩)
    (h2 : e2.preflight cx right = ⟨l2, .ok (.ok x, s2, c2)⟩) :
    (action e1 e2).preflight cx (.init left right) =
      ⟨l1.map (Event.under .left) ++ l2.map (Event.under .right),
        .ok (.ok x, .next x (.right s2), c2)⟩ := by
  cases x <;> simp [action, under, h1, h2, OrState.next, Preflight.isCompleted]

theorem preflight_neither (h1 : e1.preflight cx left = ⟨l1, .ok (.error err1, s1, c1)⟩)
    (h2 : e2.preflight cx right = ⟨l2, .ok (.error err2, s2, c2)⟩) :
    (action e1 e2).preflight cx (.init left right) =
      ⟨l1.map (Event.under .left) ++ l2.map (Event.under .right),
        .ok (.error (.notMatched err1 err2), .done, c2)⟩ := by
  simp [action, under, h1, h2]

end OrStrictAction

/-! ## Leaves -/

theorem LeafAction.preflight_inv {a : LeafAction ε Bd Env σ ts} {init s : σ} {l : List Event}
    {r : Except (Error ε) (Preflight (HList ts))} {c : CursorInner}
    (h : a.action.preflight cx init = ⟨l, .ok (r, s, c)⟩) :
    a.preflight cx init = .ok (r, s, c) := by
  rcases ha : a.preflight cx init with p | ⟨r', s', c'⟩
  · simp only [action, ha] at h
    cases congrArg Traced.res h
  · simp only [action, ha] at h
    cases congrArg Traced.res h
    rfl

/-- A one-shot action that does not panic has its output, or its error, at once. -/
theorem OneshotAction.preflight_inv {a : OneshotAction ε σ ts} {init : σ} {s : Option σ}
    {l : List Event} {r : Except (Error ε) (Preflight (HList ts))} {c : CursorInner}
    (h : (a.action : EndpointAction ε Bd Env _ ts).preflight cx (some init) =
      ⟨l, .ok (r, s, c)⟩) :
    ∃ out, a.preflight init cx = .ok (out, c) ∧ r = out.map .completed := by
  rcases ha : a.preflight init cx with p | ⟨out, c'⟩
  · simp only [action, ha] at h
    cases congrArg Traced.res h
  · simp only [action, ha] at h
    cases congrArg Traced.res h
    exact ⟨out, rfl, rfl⟩

/-! ## `map` and `map_err` -/

variable {e : EndpointAction ε Bd Env σ ts} {s s1 : σ} {r : Except (Error ε) (Preflight (HList ts))}

theorem MapAction.preflight_panic {U : Type} {f : HList ts → U}
    (h : e.preflight cx s = ⟨l1, .error p⟩) :
    (action e f).preflight cx s = ⟨l1.map (Event.under .inner), .error p⟩ := by
  simp [action, under, h]

theorem MapAction.preflight_eq {U : Type} {f : HList ts → U}
    (h : e.preflight cx s = ⟨l1, .ok (r, s1, c1)⟩) :
    (action e f).preflight cx s =
      ⟨l1.map (Event.under .inner), .ok (r.map (·.map fun x => .single (f x)), s1, c1)⟩ := by
  simp [action, under, h]

/-- A `map` answers what its inner action answers. -/
theorem MapAction.preflight_inv {U : Type} {f : HList ts → U} {l : List Event}
    {r' : Except (Error ε) (Preflight (HList [U]))}
    (h : (action e f).preflight cx s = ⟨l, .ok (r', s1, c1)⟩) :
    ∃ l1 r, e.preflight cx s = ⟨l1, .ok (r, s1, c1)⟩ ∧ r' = r.map (·.map fun x => .single (f x)) := by
  rcases hp : e.preflight cx s with ⟨l1, p | ⟨r, s', c'⟩⟩
  · cases congrArg Traced.res ((preflight_panic hp).symm.trans h)
  · cases congrArg Traced.res ((preflight_eq hp).symm.trans h)
    exact ⟨l1, r, rfl, rfl⟩

theorem MapErrAction.preflight_panic {f : Error ε → Error ε}
    (h : e.preflight cx s = ⟨l1, .error p⟩) :
    (action e f).preflight cx s = ⟨l1.map (Event.under .inner), .error p⟩ := by
  simp [action, under, h]

theorem MapErrAction.preflight_eq {f : Error ε → Error ε}
    (h : e.preflight cx s = ⟨l1, .ok (r, s1, c1)⟩) :
    (action e f).preflight cx s =
      ⟨l1.map (Event.under .inner), .ok (r.mapError f, s1, c1)⟩ := by
  simp [action, under, h]

/-- A `map_err` answers what its inner action answers. -/
theorem MapErrAction.preflight_inv {f : Error ε → Error ε} {l : List Event}
    {r' : Except (Error ε) (Preflight (HList ts))}
    (h : (action e f).preflight cx s = ⟨l, .ok (r', s1, c1)⟩) :
    ∃ l1 r, e.preflight cx s = ⟨l1, .ok (r, s1, c1)⟩ ∧ r' = r.mapError f := by
  rcases hp : e.preflight cx s with ⟨l1, p | ⟨r, s', c'⟩⟩
  · cases congrArg Traced.res ((preflight_panic hp).symm.trans h)
  · cases congrArg Traced.res ((preflight_eq hp).symm.trans h)
    exact ⟨l1, r, rfl, rfl⟩

/-! ## `and_then` and `recover` -/

namespace AndThenAction

variable {Fut T : Type} {fut : FutureAction ε Env Fut T} {f : HList ts → Fut} {x : HList ts}
  {err : Error ε}

theorem preflight_panic (h : e.preflight cx s = ⟨l1, .error p⟩) :
    (action e fut f).preflight cx ⟨s, none⟩ = ⟨l1.map (Event.under .inner), .error p⟩ := by
  simp [action, under, h]

theorem preflight_failed (h : e.preflight cx s = ⟨l1, .ok (.error err, s1, c1)⟩) :
    (action e fut f).preflight cx ⟨s, none⟩ =
      ⟨l1.map (Event.under .inner), .ok (.error err, ⟨s1, none⟩, c1)⟩ := by
  simp [action, under, h]

/-- The output is there already: the closure is called in `preflight`. -/
theorem preflight_completed (h : e.preflight cx s = ⟨l1, .ok (.ok (.completed x), s1, c1)⟩) :
    (action e fut f).preflight cx ⟨s, none⟩ =
      ⟨l1.map (Event.under .inner) ++ [⟨[], .call⟩],
        .ok (.ok .incomplete, ⟨s1, some (f x)⟩, c1)⟩ := by
  simp [action, under, callClosure, h]

theorem preflight_incomplete (h : e.preflight cx s = ⟨l1, .ok (.ok .incomplete, s1, c1)⟩) :
    (action e fut f).preflight cx ⟨s, none⟩ =
      ⟨l1.map (Event.under .inner), .ok (.ok .incomplete, ⟨s1, none⟩, c1)⟩ := by
  simp [action, under, h]

/-- An `and_then` stands where its inner action stands; the future is there iff the inner output
is. -/
theorem preflight_inv {l : List Event} {r' : Except (Error ε) (Preflight (HList [T]))}
    {s' : InFlight σ Fut} (h : (action e fut f).preflight cx ⟨s, none⟩ = ⟨l, .ok (r', s', c1)⟩) :
    ∃ l1 r s1, e.preflight cx s = ⟨l1, .ok (r, s1, c1)⟩ ∧
      ((∃ err, r = .error err ∧ r' = .error err ∧ s' = ⟨s1, none⟩) ∨
        (∃ x, r = .ok (.completed x) ∧ r' = .ok .incomplete ∧ s' = ⟨s1, some (f x)⟩) ∨
        (r = .ok .incomplete ∧ r' = .ok .incomplete ∧ s' = ⟨s1, none⟩)) := by
  rcases hp : e.preflight cx s with ⟨l1, p | ⟨err | (x | -), s1, c'⟩⟩
  · cases congrArg Traced.res ((preflight_panic hp).symm.trans h)
  · cases congrArg Traced.res ((preflight_failed hp).symm.trans h)
    exact ⟨l1, _, s1, rfl, Or.inl ⟨err, rfl, rfl, rfl⟩⟩
  · cases congrArg Traced.res ((preflight_completed hp).symm.trans h)
    exact ⟨l1, _, s1, rfl, Or.inr (Or.inl ⟨x, rfl, rfl, rfl⟩)⟩
  · cases congrArg Traced.res ((preflight_incomplete hp).symm.trans h)
    exact ⟨l1, _, s1, rfl, Or.inr (Or.inr ⟨rfl, rfl, rfl⟩)⟩

end AndThenAction

namespace RecoverAction

variable {Fut T : Type} {e : EndpointAction ε Bd Env σ [T]} {fut : FutureAction ε Env Fut T}
  {f : Error ε → Fut} {x : Preflight (HList [T])} {err : Error ε}

theorem preflight_panic (h : e.preflight cx s = ⟨l1, .error p⟩) :
    (action e fut f).preflight cx ⟨s, none⟩ = ⟨l1.map (Event.under .inner), .error p⟩ := by
  simp [action, under, h]

/-- The error is there already: the closure is called in `preflight`. -/
theorem preflight_failed (h : e.preflight cx s = ⟨l1, .ok (.error err, s1, c1)⟩) :
    (action e fut f).preflight cx ⟨s, none⟩ =
      ⟨l1.map (Event.under .inner) ++ [⟨[], .call⟩],
        .ok (.ok .incomplete, ⟨s1, some (f err)⟩, c1)⟩ := by
  simp [action, under, callClosure, h]

theorem preflight_ok (h : e.preflight cx s = ⟨l1, .ok (.ok x, s1, c1)⟩) :
    (action e fut f).preflight cx ⟨s, none⟩ =
      ⟨l1.map (Event.under .inner), .ok (.ok x, ⟨s1, none⟩, c1)⟩ := by
  simp [action, under, h]

/-- A `recover` stands where its inner action stands; the future is there iff that one failed. -/
theorem preflight_inv {l : List Event} {r' : Except (Error ε) (Preflight (HList [T]))}
    {s' : InFlight σ Fut} (h : (action e fut f).preflight cx ⟨s, none⟩ = ⟨l, .ok (r', s', c1)⟩) :
    ∃ l1 r s1, e.preflight cx s = ⟨l1, .ok (r, s1, c1)⟩ ∧
      ((∃ err, r = .error err ∧ r' = .ok .incomplete ∧ s' = ⟨s1, some (f err)⟩) ∨
        (∃ x, r = .ok x ∧ r' = .ok x ∧ s' = ⟨s1, none⟩)) := by
  rcases hp : e.preflight cx s with ⟨l1, p | ⟨err | x, s1, c'⟩⟩
  · cases congrArg Traced.res ((preflight_panic hp).symm.trans h)
  · cases congrArg Traced.res ((preflight_failed hp).symm.trans h)
    exact ⟨l1, _, s1, rfl, Or.inl ⟨err, rfl, rfl, rfl⟩⟩
  · cases congrArg Traced.res ((preflight_ok hp).symm.trans h)
    exact ⟨l1, _, s1, rfl, Or.inr ⟨x, rfl, rfl, rfl⟩⟩

end RecoverAction

end Finchers
