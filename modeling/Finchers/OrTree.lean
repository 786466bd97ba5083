import Finchers.Passing
import Finchers.Endpoint.Preflight
import Finchers.Lib.Leftmost

/-!
# Which alternative of a tree of `or`s handles a request

A tree of `or`s, of any size and association, is compared with the list of its alternatives:
each is tried with the cursor the tree was called with, and the leftmost one that popped the most
segments handles the request alone.

* `OrTree.alternatives`, `OrTree.trials` — the alternatives, and what their `preflight`s say;
* `OrTree.preflight_spec` — by induction on the tree: `preflight` of the tree leaves the cursor,
  the output and the state of the selected alternative;
* `OrTree.drive_passesOn` — a tree that passes every poll on runs as the alternative it passes
  them to;
* `or_tree_selects` — **a run of the tree yields exactly what the leftmost longest match yields**.
-/

set_option autoImplicit false

namespace Finchers

open Resumable Leftmost

variable {ε Bd Env : Type}

/-- A tree of `or`s over arbitrary endpoints. -/
inductive OrTree (ε Bd Env : Type) : Type → Type 1 where
  | leaf {T : Type} (e : Endpoint ε Bd Env [T]) : OrTree ε Bd Env T
  | or {T1 T2 : Type} (left : OrTree ε Bd Env T1) (right : OrTree ε Bd Env T2) :
      OrTree ε Bd Env (T1 ⊕ T2)

/-- One of the alternatives of an endpoint with output `T`: where it stands in the tree and how
its output becomes one of the tree. -/
structure Alternative (ε Bd Env T : Type) where
  Out : Type
  endpoint : Endpoint ε Bd Env [Out]
  inject : Out → T
  place : Place

namespace Alternative

variable {T T1 T2 : Type}

/-- An alternative of the left side of an `or`. -/
def inLeft (a : Alternative ε Bd Env T1) : Alternative ε Bd Env (T1 ⊕ T2) :=
  ⟨a.Out, a.endpoint, Sum.inl ∘ a.inject, .left :: a.place⟩

/-- An alternative of the right side of an `or`. -/
def inRight (a : Alternative ε Bd Env T2) : Alternative ε Bd Env (T1 ⊕ T2) :=
  ⟨a.Out, a.endpoint, Sum.inr ∘ a.inject, .right :: a.place⟩

/-- An event of the alternative, seen from the root of the tree. -/
def placed (a : Alternative ε Bd Env T) (e : Event) : Event := ⟨a.place ++ e.place, e.what⟩

/-- The output of the alternative as an output of the tree. -/
def injectOutput (a : Alternative ε Bd Env T) (out : HList [a.Out]) : HList [T] :=
  .single (a.inject out.head)

/-- Try the alternative: where it leaves the cursor if it matches, and its error if not. -/
def trial (a : Alternative ε Bd Env T) (cx : PreflightContext) :
    Traced Panic Event (Except (Error ε) CursorInner) :=
  (do
    let (r, _, c) ← a.endpoint.preflight cx
    return r.map (fun _ => c)).mapLog a.placed

/-- Try alternatives one after the other, each with the same context and cursor. -/
def tryAll (cx : PreflightContext) : List (Alternative ε Bd Env T) →
    Traced Panic Event (List (Except (Error ε) CursorInner))
  | [] => return []
  | a :: as => do
    let x ← a.trial cx
    let xs ← tryAll cx as
    return x :: xs

end Alternative

namespace OrTree

variable {T : Type}

def endpoint : {T : Type} → OrTree ε Bd Env T → Endpoint ε Bd Env [T]
  | _, .leaf e => e
  | _, .or left right => .or left.endpoint right.endpoint

/-- The leaves, from left to right. -/
def alternatives : {T : Type} → OrTree ε Bd Env T → List (Alternative ε Bd Env T)
  | T, .leaf e => [⟨T, e, id, []⟩]
  | _, .or left right =>
    left.alternatives.map .inLeft ++ right.alternatives.map .inRight

/-- Try all leaves in tree order, each with the cursor of the tree. -/
def trials (t : OrTree ε Bd Env T) (cx : PreflightContext) :
    Traced Panic Event (List (Except (Error ε) CursorInner)) :=
  Alternative.tryAll cx t.alternatives

/-- `err` nests exactly the given errors of the leaves, as the tree nests its leaves. -/
inductive Nested : {T : Type} → OrTree ε Bd Env T → List (Error ε) → Error ε → Prop where
  | leaf {T : Type} {e : Endpoint ε Bd Env [T]} {err : Error ε} : Nested (.leaf e) [err] err
  | or {T1 T2 : Type} {left : OrTree ε Bd Env T1} {right : OrTree ε Bd Env T2}
      {errs1 errs2 : List (Error ε)} {err1 err2 : Error ε} :
      Nested left errs1 err1 → Nested right errs2 err2 →
      Nested (.or left right) (errs1 ++ errs2) (.notMatched err1 err2)

end OrTree

/-- How many segments each trial popped, if it matched. -/
def pops (outs : List (Except (Error ε) CursorInner)) : List (Option Nat) :=
  outs.map (fun x => x.toOption.map (·.popped))

/-- Alternative `i` is the leftmost one with the most popped segments among those that match. -/
def OrTree.Selects {T : Type} (t : OrTree ε Bd Env T) (cx : PreflightContext) (i : Nat) : Prop :=
  ∃ outs k, (t.trials cx).res = .ok outs ∧ IsLeftmostMax (pops outs) i k

/-! ## One `or` -/

namespace OrAction

variable {σ τ T1 T2 : Type}

theorem pollAction_left (e1 : EndpointAction ε Bd Env σ [T1]) (e2 : EndpointAction ε Bd Env τ [T2])
    (s : σ) (w : World Bd Env) :
    (action e1 e2).pollAction (.left s) w =
      liftPoll (Event.under .left) (fun out => .single (.inl out.head)) .left
        (e1.pollAction s w) :=
  under_bind_eq_liftPoll _ _ _ _

theorem pollAction_right (e1 : EndpointAction ε Bd Env σ [T1])
    (e2 : EndpointAction ε Bd Env τ [T2]) (s : τ) (w : World Bd Env) :
    (action e1 e2).pollAction (.right s) w =
      liftPoll (Event.under .right) (fun out => .single (.inr out.head)) .right
        (e2.pollAction s w) :=
  under_bind_eq_liftPoll _ _ _ _

end OrAction

/-! ## Trials -/

namespace Alternative

variable {T T1 T2 : Type}

theorem trial_inLeft (a : Alternative ε Bd Env T1) (cx : PreflightContext) :
    (a.inLeft : Alternative ε Bd Env (T1 ⊕ T2)).trial cx = under .left (a.trial cx) := by
  unfold trial under
  simp [Traced.mapLog, inLeft, placed, Event.under, Function.comp_def]

theorem trial_inRight (a : Alternative ε Bd Env T2) (cx : PreflightContext) :
    (a.inRight : Alternative ε Bd Env (T1 ⊕ T2)).trial cx = under .right (a.trial cx) := by
  unfold trial under
  simp [Traced.mapLog, inRight, placed, Event.under, Function.comp_def]

theorem tryAll_map_inLeft (cx : PreflightContext) (as : List (Alternative ε Bd Env T1)) :
    tryAll cx (as.map inLeft : List (Alternative ε Bd Env (T1 ⊕ T2))) = under .left (tryAll cx as) := by
  induction as with
  | nil => rfl
  | cons a as ih =>
    rw [List.map_cons, tryAll, tryAll, trial_inLeft, ih]
    simp [under, Traced.mapLog_bind]

theorem tryAll_map_inRight (cx : PreflightContext) (as : List (Alternative ε Bd Env T2)) :
    tryAll cx (as.map inRight : List (Alternative ε Bd Env (T1 ⊕ T2))) = under .right (tryAll cx as) := by
  induction as with
  | nil => rfl
  | cons a as ih =>
    rw [List.map_cons, tryAll, tryAll, trial_inRight, ih]
    simp [under, Traced.mapLog_bind]

theorem tryAll_append (cx : PreflightContext) (as bs : List (Alternative ε Bd Env T)) :
    tryAll cx (as ++ bs) = (do
      let xs ← tryAll cx as
      let ys ← tryAll cx bs
      return xs ++ ys) := by
  induction as with
  | nil =>
    rcases (tryAll cx bs).eq_ok_or_error with ⟨l, ys, h⟩ | ⟨l, p, h⟩
    · simp [tryAll, h, Traced.prepend]
    · simp [tryAll, h, Traced.prepend]
  | cons a as ih =>
    rw [List.cons_append, tryAll, tryAll, ih]
    rcases (a.trial cx).eq_ok_or_error with ⟨l, x, h⟩ | ⟨l, p, h⟩
    · rcases (tryAll cx as).eq_ok_or_error with ⟨l', xs, h'⟩ | ⟨l', p, h'⟩
      · rcases (tryAll cx bs).eq_ok_or_error with ⟨l'', ys, h''⟩ | ⟨l'', p, h''⟩
        · simp [h, h', h'']
        · simp [h, h', h'']
      · simp [h, h']
    · simp [h]

end Alternative

namespace OrTree

variable {T T1 T2 : Type}

/-- Trying the leaves of an `or` is trying those of its left side, then those of its right one. -/
theorem trials_or (left : OrTree ε Bd Env T1) (right : OrTree ε Bd Env T2)
    (cx : PreflightContext) :
    (left.or right).trials cx = (do
      let xs ← under .left (left.trials cx)
      let ys ← under .right (right.trials cx)
      return xs ++ ys) := by
  unfold trials
  rw [alternatives, Alternative.tryAll_append, Alternative.tryAll_map_inLeft,
    Alternative.tryAll_map_inRight]

/-! ## Preflight -/

/-- `emb` takes the states of the alternative to states in which the tree passes every poll on. -/
def PassesOn (t : OrTree ε Bd Env T) (a : Alternative ε Bd Env T)
    (emb : a.endpoint.Action → t.endpoint.Action) : Prop :=
  ∀ s w, t.endpoint.pollAction (emb s) w =
    liftPoll a.placed a.injectOutput emb (a.endpoint.pollAction s w)

/-- `preflight` of the tree records `l` and leaves what alternative `i` left, which popped `k`
segments. -/
def Chosen (t : OrTree ε Bd Env T) (cx : PreflightContext) (l : List Event) (i k : Nat) : Prop :=
  ∃ a la r sa c s, t.alternatives[i]? = some a ∧
    a.endpoint.preflight cx = ⟨la, .ok (.ok r, sa, c)⟩ ∧ c.popped = k ∧
    t.endpoint.preflight cx = ⟨l, .ok (.ok (r.map a.injectOutput), s, c)⟩ ∧
    (r = .incomplete → ∃ emb, s = emb sa ∧ t.PassesOn a emb)

/-- `preflight` of the tree fails with the nested errors of its leaves. -/
def Failed (t : OrTree ε Bd Env T) (cx : PreflightContext) (l : List Event)
    (outs : List (Except (Error ε) CursorInner)) : Prop :=
  ∃ errs err s c, outs = errs.map .error ∧ t.Nested errs err ∧
    t.endpoint.preflight cx = ⟨l, .ok (.error err, s, c)⟩

theorem passesOn_inLeft {left : OrTree ε Bd Env T1} {a : Alternative ε Bd Env T1}
    {emb : a.endpoint.Action → left.endpoint.Action} (h : left.PassesOn a emb)
    (right : OrTree ε Bd Env T2) :
    (left.or right).PassesOn a.inLeft (fun s => OrState.left (emb s)) := by
  intro s w
  have hpoll := OrAction.pollAction_left left.endpoint.impl right.endpoint.impl (emb s) w
  have hleft := h s w
  exact hpoll.trans ((congrArg _ hleft).trans (liftPoll_liftPoll _ _ _ _ _ _ _))

theorem passesOn_inRight {right : OrTree ε Bd Env T2} {a : Alternative ε Bd Env T2}
    {emb : a.endpoint.Action → right.endpoint.Action} (h : right.PassesOn a emb)
    (left : OrTree ε Bd Env T1) :
    (left.or right).PassesOn a.inRight (fun s => OrState.right (emb s)) := by
  intro s w
  have hpoll := OrAction.pollAction_right left.endpoint.impl right.endpoint.impl (emb s) w
  have hright := h s w
  exact hpoll.trans ((congrArg _ hright).trans (liftPoll_liftPoll _ _ _ _ _ _ _))

theorem Chosen.inLeft {left : OrTree ε Bd Env T1} {right : OrTree ε Bd Env T2}
    {cx : PreflightContext} {l1 l2 : List Event} {i k : Nat}
    {r2 : Except (Error ε) (Preflight (HList [T2]))} {s2 : right.endpoint.Action}
    {c2 : CursorInner} (h : left.Chosen cx l1 i k)
    (h2 : right.endpoint.preflight cx = ⟨l2, .ok (r2, s2, c2)⟩)
    (hle : ∀ y, r2 = .ok y → c2.popped ≤ k) :
    (left.or right).Chosen cx (l1.map (Event.under .left) ++ l2.map (Event.under .right)) i k := by
  obtain ⟨a, la, r, sa, c, s, ha, hpa, rfl, hpt, hemb⟩ := h
  have hor := OrAction.preflight_left hpt h2 hle
  have hi : i < left.alternatives.length := (List.getElem?_eq_some_iff.mp ha).1
  have hat : (left.or right).alternatives[i]? = some a.inLeft := by
    rw [alternatives, List.getElem?_append_left (by simpa using hi), List.getElem?_map, ha]
    rfl
  rcases r with out | -
  · exact ⟨a.inLeft, la, _, sa, c, OrState.done, hat, hpa, rfl, hor, fun hr => by cases hr⟩
  · obtain ⟨emb, rfl, hpass⟩ := hemb rfl
    exact ⟨a.inLeft, la, _, sa, c, OrState.left (emb sa), hat, hpa, rfl, hor,
      fun _ => ⟨_, rfl, passesOn_inLeft hpass right⟩⟩

theorem Chosen.inRight {left : OrTree ε Bd Env T1} {right : OrTree ε Bd Env T2}
    {cx : PreflightContext} {l1 l2 : List Event} {i k : Nat}
    {r1 : Except (Error ε) (Preflight (HList [T1]))} {s1 : left.endpoint.Action}
    {c1 : CursorInner} (h : right.Chosen cx l2 i k)
    (h1 : left.endpoint.preflight cx = ⟨l1, .ok (r1, s1, c1)⟩)
    (hlt : ∀ x, r1 = .ok x → c1.popped < k) :
    (left.or right).Chosen cx (l1.map (Event.under .left) ++ l2.map (Event.under .right))
      (left.alternatives.length + i) k := by
  obtain ⟨a, la, r, sa, c, s, ha, hpa, rfl, hpt, hemb⟩ := h
  have hor := OrAction.preflight_right h1 hpt hlt
  have hat : (left.or right).alternatives[left.alternatives.length + i]? = some a.inRight := by
    rw [alternatives, List.getElem?_append_right (by simp), List.length_map,
      Nat.add_sub_cancel_left, List.getElem?_map, ha]
    rfl
  rcases r with out | -
  · exact ⟨a.inRight, la, _, sa, c, OrState.done, hat, hpa, rfl, hor, fun hr => by cases hr⟩
  · obtain ⟨emb, rfl, hpass⟩ := hemb rfl
    exact ⟨a.inRight, la, _, sa, c, OrState.right (emb sa), hat, hpa, rfl, hor,
      fun _ => ⟨_, rfl, passesOn_inRight hpass left⟩⟩

theorem Chosen.returns {t : OrTree ε Bd Env T} {cx : PreflightContext} {l : List Event}
    {i k : Nat} (h : t.Chosen cx l i k) :
    ∃ x s c, t.endpoint.preflight cx = ⟨l, .ok (.ok x, s, c)⟩ ∧ c.popped = k := by
  obtain ⟨a, la, r, sa, c, s, -, -, hk, hpt, -⟩ := h
  exact ⟨_, s, c, hpt, hk⟩

theorem Failed.exhausted {t : OrTree ε Bd Env T} {cx : PreflightContext} {l : List Event}
    {outs : List (Except (Error ε) CursorInner)} (h : t.Failed cx l outs) :
    Exhausted (pops outs) := by
  obtain ⟨errs, err, s, c, rfl, -, -⟩ := h
  intro x hx
  unfold pops at hx
  rw [List.map_map, List.mem_map] at hx
  obtain ⟨e, -, rfl⟩ := hx
  rfl

theorem pops_append (outs1 outs2 : List (Except (Error ε) CursorInner)) :
    pops (outs1 ++ outs2) = pops outs1 ++ pops outs2 := List.map_append

theorem length_pops (outs : List (Except (Error ε) CursorInner)) :
    (pops outs).length = outs.length := List.length_map _

/-- What `preflight` of a tree does when its leaves have been tried with the outcomes `outs`. -/
def Decides (t : OrTree ε Bd Env T) (cx : PreflightContext) (l : List Event)
    (outs : List (Except (Error ε) CursorInner)) : Prop :=
  outs.length = t.alternatives.length ∧
    ((∃ i k, IsLeftmostMax (pops outs) i k ∧ t.Chosen cx l i k) ∨ t.Failed cx l outs)

theorem decides_leaf (e : Endpoint ε Bd Env [T]) (cx : PreflightContext) {l : List Event}
    {r : Except (Error ε) (Preflight (HList [T]))} {s : e.Action} {c : CursorInner}
    (h : e.preflight cx = ⟨l, .ok (r, s, c)⟩) :
    (OrTree.leaf e).Decides cx l [r.map fun _ => c] := by
  refine ⟨rfl, ?_⟩
  rcases r with err | x
  · exact Or.inr ⟨[err], err, s, c, rfl, .leaf, h⟩
  · refine Or.inl ⟨0, c.popped, isLeftmostMax_singleton c.popped, _, l, x, s, c, s, rfl, h, rfl,
      ?_, fun _ => ⟨id, rfl, ?_⟩⟩
    · refine Eq.trans h ?_
      cases x <;> rfl
    · intro s' w
      show e.pollAction s' w = liftPoll _ _ id (e.pollAction s' w)
      rcases (e.pollAction s' w).eq_ok_or_error with ⟨l', ⟨y, s'', w'⟩, hp⟩ | ⟨l', p, hp⟩
      · rw [hp, liftPoll_mk_ok]
        have hmap : l'.map (Alternative.placed ⟨T, e, id, []⟩) = l' := List.map_id l'
        rw [hmap]
        match y with
        | .ok (.ready _) => rfl
        | .ok .notReady => rfl
        | .error _ => rfl
      · rw [hp, liftPoll_mk_error]
        exact congrArg (fun l => (⟨l, .error p⟩ : Traced Panic Event _)) (List.map_id l').symm

theorem Decides.or {left : OrTree ε Bd Env T1} {right : OrTree ε Bd Env T2}
    {cx : PreflightContext} {l1 l2 : List Event}
    {outs1 outs2 : List (Except (Error ε) CursorInner)} (h1 : left.Decides cx l1 outs1)
    (h2 : right.Decides cx l2 outs2) :
    (left.or right).Decides cx (l1.map (Event.under .left) ++ l2.map (Event.under .right))
      (outs1 ++ outs2) := by
  obtain ⟨hn1, h1⟩ := h1
  obtain ⟨hn2, h2⟩ := h2
  refine ⟨by simp [alternatives, hn1, hn2], ?_⟩
  have hlen : (pops outs1).length = left.alternatives.length := by rw [length_pops, hn1]
  rw [pops_append]
  rcases h1 with ⟨i1, k1, hmax1, hc1⟩ | hf1
  · obtain ⟨x1, s1, c1, hp1, hk1⟩ := hc1.returns
    rcases h2 with ⟨i2, k2, hmax2, hc2⟩ | hf2
    · obtain ⟨x2, s2, c2, hp2, hk2⟩ := hc2.returns
      by_cases hle : k2 ≤ k1
      · exact Or.inl ⟨i1, k1, hmax1.append_left fun hj => le_trans (hmax2.le hj) hle,
          hc1.inLeft hp2 fun _ _ => by omega⟩
      · refine Or.inl ⟨_, k2, hmax2.append_right fun hj => ?_, ?_⟩
        · have hm := hmax1.le hj
          omega
        · rw [hlen]
          exact hc2.inRight hp1 fun _ _ => by omega
    · have hex := hf2.exhausted
      obtain ⟨errs2, err2, s2, c2, -, -, hp2⟩ := hf2
      exact Or.inl ⟨i1, k1, hmax1.append_left fun hj => absurd hj hex.not_score,
        hc1.inLeft hp2 fun _ hy => by cases hy⟩
  · rcases h2 with ⟨i2, k2, hmax2, hc2⟩ | hf2
    · have hex := hf1.exhausted
      obtain ⟨errs1, err1, s1, c1, -, -, hp1⟩ := hf1
      refine Or.inl ⟨_, k2, hmax2.append_right fun hj => absurd hj hex.not_score, ?_⟩
      rw [hlen]
      exact hc2.inRight hp1 fun _ hx => by cases hx
    · obtain ⟨errs1, err1, s1, c1, rfl, hn1, hp1⟩ := hf1
      obtain ⟨errs2, err2, s2, c2, rfl, hn2, hp2⟩ := hf2
      exact Or.inr ⟨errs1 ++ errs2, .notMatched err1 err2, _, c2, by simp, hn1.or hn2,
        OrAction.preflight_neither hp1 hp2⟩

theorem Decides.returns {t : OrTree ε Bd Env T} {cx : PreflightContext} {l : List Event}
    {outs : List (Except (Error ε) CursorInner)} (h : t.Decides cx l outs) :
    ∃ r s c, t.endpoint.preflight cx = ⟨l, .ok (r, s, c)⟩ := by
  rcases h with ⟨-, ⟨i, k, -, hc⟩ | ⟨errs, err, s, c, -, -, hp⟩⟩
  · obtain ⟨x, s, c, hp, -⟩ := hc.returns
    exact ⟨_, s, c, hp⟩
  · exact ⟨_, s, c, hp⟩

/-- `preflight` of a tree decides by the trials of its leaves, and panics if one of them does. -/
theorem preflight_spec (t : OrTree ε Bd Env T) (cx : PreflightContext) :
    (∃ l p, t.trials cx = ⟨l, .error p⟩ ∧ t.endpoint.preflight cx = ⟨l, .error p⟩) ∨
      ∃ l outs, t.trials cx = ⟨l, .ok outs⟩ ∧ t.Decides cx l outs := by
  induction t with
  | leaf e =>
    have hplaced : ∀ l : List Event, l.map (Alternative.placed ⟨_, e, id, []⟩) = l := List.map_id
    rcases (e.preflight cx).eq_ok_or_error with ⟨l, ⟨r, s, c⟩, h⟩ | ⟨l, p, h⟩
    · refine Or.inr ⟨l, [r.map fun _ => c], ?_, decides_leaf e cx h⟩
      simp [trials, alternatives, Alternative.tryAll, Alternative.trial, h, hplaced]
    · refine Or.inl ⟨l, p, ?_, h⟩
      simp [trials, alternatives, Alternative.tryAll, Alternative.trial, h, hplaced]
  | or left right ihl ihr =>
    rw [trials_or]
    rcases ihl with ⟨l1, p1, ht1, hp1⟩ | ⟨l1, outs1, ht1, hd1⟩
    · refine Or.inl ⟨l1.map (Event.under .left), p1, ?_, OrAction.preflight_panic_left hp1⟩
      simp [ht1, under]
    · obtain ⟨r1, s1, c1, hp1⟩ := hd1.returns
      rcases ihr with ⟨l2, p2, ht2, hp2⟩ | ⟨l2, outs2, ht2, hd2⟩
      · refine Or.inl ⟨_, p2, ?_, OrAction.preflight_panic_right hp1 hp2⟩
        simp [ht1, ht2, under]
      · refine Or.inr ⟨_, outs1 ++ outs2, ?_, hd1.or hd2⟩
        simp [ht1, ht2, under]

theorem trials_res_or (left : OrTree ε Bd Env T1) (right : OrTree ε Bd Env T2)
    (cx : PreflightContext) :
    ((left.or right).trials cx).res = (do
      let xs ← (left.trials cx).res
      let ys ← (right.trials cx).res
      return xs ++ ys) := by
  rw [trials_or, Traced.bind_res]
  unfold under
  simp only [Traced.bind_res, Traced.mapLog_res]
  rfl

/-- Reassociation of an `or` does not change which alternative is selected. -/
theorem selects_assoc {T3 : Type} (t1 : OrTree ε Bd Env T1) (t2 : OrTree ε Bd Env T2)
    (t3 : OrTree ε Bd Env T3) (cx : PreflightContext) (i : Nat) :
    ((t1.or t2).or t3).Selects cx i ↔ (t1.or (t2.or t3)).Selects cx i := by
  have hres : (((t1.or t2).or t3).trials cx).res = ((t1.or (t2.or t3)).trials cx).res := by
    rw [trials_res_or, trials_res_or, trials_res_or, trials_res_or]
    rcases (t1.trials cx).res with p | xs
    · rfl
    · rcases (t2.trials cx).res with p | ys
      · rfl
      · rcases (t3.trials cx).res with p | zs
        · rfl
        · show Except.ok (xs ++ ys ++ zs) = Except.ok (xs ++ (ys ++ zs))
          rw [List.append_assoc]
  unfold Selects
  rw [hres]

end OrTree

/-! ## Runs -/

/-- A run of an alternative, seen as one of the tree: its events at their place in the tree and
its output as one of the tree. -/
def Alternative.seen {σ T : Type} (a : Alternative ε Bd Env T)
    (m : Traced Panic Event
      (Option (Except (Error ε) (HList [a.Out])) × AppFuture σ Bd × Thread Env)) :
    Traced Panic Event
      (Option (Except (Error ε) (HList [T])) × Context × Option Bd × Thread Env) :=
  (do
    let (r, fut, th) ← m
    return (r.map (Except.map a.injectOutput), fut.context, fut.body, th)).mapLog a.placed

/-- **A tree that passes every poll on to an alternative runs as that alternative does.** -/
theorem OrTree.drive_passesOn {T : Type} {t : OrTree ε Bd Env T} {a : Alternative ε Bd Env T}
    {emb : a.endpoint.Action → t.endpoint.Action} (hp : t.PassesOn a emb)
    (gs : List (Thread Env → Thread Env)) (s : a.endpoint.Action) (context : Context)
    (body : Option Bd) (th : Thread Env) :
    AppFuture.observe (AppFuture.drive t.endpoint.impl gs ⟨.inFlight (emb s), context, body⟩ th) =
      a.seen (AppFuture.drive a.endpoint.impl gs ⟨.inFlight s, context, body⟩ th) :=
  AppFuture.drive_passes hp gs s context body th

open AppFuture in
/-- **A tree of `or`s is handled by its leftmost longest match.**  A run of the tree tries every
alternative with the cursor of the tree.  If one is selected, `preflight` leaves its cursor, and the
run goes on as the run of that alternative alone, with its output injected; if none matches, the
run fails with the errors of all of them.  The selection does not depend on the association. -/
theorem or_tree_selects {T : Type} (t : OrTree ε Bd Env T) (addr : Nat) (request : Request)
    (body : Bd) (g : Thread Env → Thread Env) (gs : List (Thread Env → Thread Env))
    (th : Thread Env) :
    let cx := PreflightContext.new (.new addr request)
    let run := observe (drive t.endpoint.impl (g :: gs)
      (.dispatch t.endpoint addr request body) th)
    ((∃ p, (t.trials cx).res = .error p ∧ run = ⟨(t.trials cx).log, .error p⟩) ∨
      (∃ i a la r sa c s own, (∀ j, t.Selects cx j ↔ j = i) ∧ t.alternatives[i]? = some a ∧
        a.endpoint.preflight cx = ⟨la, .ok (.ok r, sa, c)⟩ ∧
        t.endpoint.preflight cx =
          ⟨(t.trials cx).log, .ok (.ok (r.map a.injectOutput), s, c)⟩ ∧
        drive a.endpoint.impl (g :: gs) (.dispatch a.endpoint addr request body) th =
          own.prepend la ∧
        run = (a.seen own).prepend (t.trials cx).log) ∨
      (∃ errs err, (t.trials cx).res = .ok (errs.map .error) ∧ t.Nested errs err ∧
        (∀ j, ¬ t.Selects cx j) ∧
        run = ⟨(t.trials cx).log,
          .ok (some (.error err), .new addr request, some body, g th)⟩)) ∧
    ∀ {T1 T2 T3 : Type} (t1 : OrTree ε Bd Env T1) (t2 : OrTree ε Bd Env T2)
      (t3 : OrTree ε Bd Env T3) (cx : PreflightContext) (i : Nat),
      ((t1.or t2).or t3).Selects cx i ↔ (t1.or (t2.or t3)).Selects cx i := by
  intro cx run
  refine ⟨?_, OrTree.selects_assoc⟩
  rcases t.preflight_spec cx with ⟨l, p, ht, hp⟩ | ⟨l, outs, ht, hn, hd⟩
  · refine Or.inl ⟨p, by rw [ht], ?_⟩
    have hrun := drive_panics hp (some body) g gs th
    show observe (drive t.endpoint.impl (g :: gs) ⟨_, _, _⟩ th) = _
    rw [ht, hrun]
    rfl
  rcases hd with ⟨i, k, hmax, a, la, r, sa, c, s, ha, hpa, hk, hpt, hemb⟩ | hf
  · have hsel : ∀ j, t.Selects cx j ↔ j = i := by
      intro j
      unfold OrTree.Selects
      rw [ht]
      refine ⟨fun h => ?_, fun h => ⟨outs, k, rfl, h ▸ hmax⟩⟩
      obtain ⟨outs', k', hres, hmax'⟩ := h
      cases hres
      exact (hmax'.unique hmax).1
    refine Or.inr (Or.inl ?_)
    rcases r with x | -
    · refine ⟨i, a, la, _, sa, c, s, ⟨[], .ok (some (.ok x),
        ⟨.start none, .new addr request, some body⟩, g th)⟩, hsel, ha, hpa, ?_, ?_, ?_⟩
      · rw [ht]
        exact hpt
      · exact (drive_completed hpa (some body) g gs th).trans (by simp)
      · have hrun := drive_completed hpt (some body) g gs th
        show observe (drive t.endpoint.impl (g :: gs) ⟨_, _, _⟩ th) = _
        rw [ht, hrun]
        simp [observe, Alternative.seen, Except.map]
    · obtain ⟨emb, rfl, hpass⟩ := hemb rfl
      refine ⟨i, a, la, _, sa, c, emb sa, drive a.endpoint.impl (g :: gs)
        ⟨.inFlight sa, .new addr request, some body⟩ th, hsel, ha, hpa, ?_,
        drive_incomplete hpa (some body) g gs th, ?_⟩
      · rw [ht]
        exact hpt
      · have hrun := drive_incomplete hpt (some body) g gs th
        show observe (drive t.endpoint.impl (g :: gs) ⟨_, _, _⟩ th) = _
        rw [hrun, observe_prepend, OrTree.drive_passesOn hpass, ht]
  · have hex := hf.exhausted
    obtain ⟨errs, err, s, c, rfl, hnest, hpt⟩ := hf
    refine Or.inr (Or.inr ⟨errs, err, by rw [ht], hnest, ?_, ?_⟩)
    · intro j h
      obtain ⟨outs', k', hres, hmax'⟩ := h
      rw [ht] at hres
      cases hres
      exact hex.not_isLeftmostMax hmax'
    · have hrun := drive_failed hpt (some body) g gs th
      show observe (drive t.endpoint.impl (g :: gs) ⟨_, _, _⟩ th) = _
      rw [ht, hrun]
      simp [observe]

end Finchers
