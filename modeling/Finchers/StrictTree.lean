import Finchers.Passing
import Finchers.Endpoint.Preflight
import Mathlib.Data.List.Forall2

/-!
# Which alternative of a tree of `or_strict`s handles a request

A tree of `or_strict`s, of any size and association, tries its leaves from left to right, each from
the cursor the tree was called with, until one does not fail.

* `StrictTree.leaves` — the leaves, and where they stand;
* `StrictTree.Decides` — the leaves before the first that does not fail are tried and left, this
  one decides, and the leaves after it are not touched;
* `StrictTree.decides` — by induction on the tree, from one `or_strict`;
* `or_strict_tree_selects` — **`preflight` and every run of the tree are those of that leaf**.
-/

set_option autoImplicit false

namespace Finchers

open Resumable

variable {ε Bd Env : Type} {ts : List Type}

/-- A tree of `or_strict`s over arbitrary endpoints. -/
inductive StrictTree (ε Bd Env : Type) (ts : List Type) : Type 1 where
  | leaf (e : Endpoint ε Bd Env ts) : StrictTree ε Bd Env ts
  | orStrict (left right : StrictTree ε Bd Env ts) : StrictTree ε Bd Env ts

/-- A leaf, and where it stands in the tree. -/
structure Leaf (ε Bd Env : Type) (ts : List Type) where
  endpoint : Endpoint ε Bd Env ts
  place : Place

namespace Leaf

/-- A leaf of a side of an `or_strict`. -/
def inSide (d : Dir) (a : Leaf ε Bd Env ts) : Leaf ε Bd Env ts := ⟨a.endpoint, d :: a.place⟩

/-- An event of the leaf, seen from the root of the tree. -/
def placed (a : Leaf ε Bd Env ts) (e : Event) : Event := ⟨a.place ++ e.place, e.what⟩

/-- What `preflight` of the leaf records, seen from the root of the tree. -/
def events (cx : PreflightContext) (a : Leaf ε Bd Env ts) : List Event :=
  (a.endpoint.preflight cx).log.map a.placed

/-- `preflight` of the leaf fails with this error. -/
def Fails (cx : PreflightContext) (a : Leaf ε Bd Env ts) (err : Error ε) : Prop :=
  ∃ s c, (a.endpoint.preflight cx).res = .ok (.error err, s, c)

@[simp] theorem inSide_place (d : Dir) (a : Leaf ε Bd Env ts) :
    (a.inSide d).place = d :: a.place := rfl

theorem events_inSide (cx : PreflightContext) (d : Dir) (a : Leaf ε Bd Env ts) :
    (a.inSide d).events cx = (a.events cx).map (Event.under d) := by
  unfold events
  rw [List.map_map]
  rfl

end Leaf

namespace StrictTree

def endpoint : StrictTree ε Bd Env ts → Endpoint ε Bd Env ts
  | .leaf e => e
  | .orStrict left right => .orStrict left.endpoint right.endpoint

/-- The leaves, from left to right. -/
def leaves : StrictTree ε Bd Env ts → List (Leaf ε Bd Env ts)
  | .leaf e => [⟨e, []⟩]
  | .orStrict left right => left.leaves.map (.inSide .left) ++ right.leaves.map (.inSide .right)

/-- `err` nests exactly the given errors of the leaves, as the tree nests its leaves. -/
inductive Nested : StrictTree ε Bd Env ts → List (Error ε) → Error ε → Prop where
  | leaf {e : Endpoint ε Bd Env ts} {err : Error ε} : Nested (.leaf e) [err] err
  | orStrict {left right : StrictTree ε Bd Env ts} {errs1 errs2 : List (Error ε)}
      {err1 err2 : Error ε} : Nested left errs1 err1 → Nested right errs2 err2 →
      Nested (.orStrict left right) (errs1 ++ errs2) (.notMatched err1 err2)

/-- What the `preflight`s of some leaves record, one after the other. -/
def events (cx : PreflightContext) (as : List (Leaf ε Bd Env ts)) : List Event :=
  as.flatMap (·.events cx)

/-- `a` is the first leaf that does not fail, `before` are those to its left and `after` those to its
right. -/
structure Leftmost (t : StrictTree ε Bd Env ts) (cx : PreflightContext)
    (before : List (Leaf ε Bd Env ts)) (a : Leaf ε Bd Env ts)
    (after : List (Leaf ε Bd Env ts)) : Prop where
  split : t.leaves = before ++ a :: after
  failed : ∀ b ∈ before, ∃ err, b.Fails cx err
  stays : ∀ err, ¬ a.Fails cx err

/-- `emb` takes the states of a leaf to states in which the tree passes every poll on. -/
def PassesOn (t : StrictTree ε Bd Env ts) (a : Leaf ε Bd Env ts)
    (emb : a.endpoint.Action → t.endpoint.Action) : Prop :=
  ∀ s w, t.endpoint.pollAction (emb s) w =
    liftPoll a.placed id emb (a.endpoint.pollAction s w)

/-- After the events `l`, `preflight` of the tree goes as that of the leaf `a`. -/
def GoesAs (t : StrictTree ε Bd Env ts) (cx : PreflightContext) (l : List Event)
    (a : Leaf ε Bd Env ts) : Prop :=
  (∃ la p, a.endpoint.preflight cx = ⟨la, .error p⟩ ∧
      t.endpoint.preflight cx = ⟨l ++ la.map a.placed, .error p⟩) ∨
    ∃ la r sa c s, a.endpoint.preflight cx = ⟨la, .ok (.ok r, sa, c)⟩ ∧
      t.endpoint.preflight cx = ⟨l ++ la.map a.placed, .ok (.ok r, s, c)⟩ ∧
      (r = .incomplete → ∃ emb, s = emb sa ∧ t.PassesOn a emb)

/-- `preflight` of the tree fails with the nested errors of its leaves. -/
def Failed (t : StrictTree ε Bd Env ts) (cx : PreflightContext) (errs : List (Error ε)) : Prop :=
  List.Forall₂ (Leaf.Fails cx) t.leaves errs ∧ ∃ err s c, t.Nested errs err ∧
    t.endpoint.preflight cx = ⟨events cx t.leaves, .ok (.error err, s, c)⟩

/-! ## One `or_strict` -/

theorem events_inSide (cx : PreflightContext) (d : Dir) (as : List (Leaf ε Bd Env ts)) :
    events cx (as.map (.inSide d)) = (events cx as).map (Event.under d) := by
  unfold events
  rw [List.flatMap_map, List.map_flatMap]
  exact congrArg (as.flatMap ·) (funext fun a => a.events_inSide cx d)

theorem events_append (cx : PreflightContext) (as bs : List (Leaf ε Bd Env ts)) :
    events cx (as ++ bs) = events cx as ++ events cx bs := List.flatMap_append

/-- The placing of a side's leaf is its placing in the side, seen from the combinator. -/
theorem map_placed_inSide (d : Dir) (a : Leaf ε Bd Env ts) (l : List Event) :
    l.map (a.inSide d).placed = (l.map a.placed).map (Event.under d) := by
  rw [List.map_map]
  rfl

theorem passesOn_left {left : StrictTree ε Bd Env ts} {a : Leaf ε Bd Env ts}
    {emb : a.endpoint.Action → left.endpoint.Action} (h : left.PassesOn a emb)
    (right : StrictTree ε Bd Env ts) :
    (left.orStrict right).PassesOn (a.inSide .left) (fun s => OrState.left (emb s)) := by
  intro s w
  have hpoll := liftPoll_id (P := Panic) (Event.under .left)
    (OrState.left (R := right.endpoint.Action)) (left.endpoint.pollAction (emb s) w)
  have hleft := h s w
  exact hpoll.trans ((congrArg _ hleft).trans (liftPoll_liftPoll _ _ _ _ _ _ _))

theorem passesOn_right {right : StrictTree ε Bd Env ts} {a : Leaf ε Bd Env ts}
    {emb : a.endpoint.Action → right.endpoint.Action} (h : right.PassesOn a emb)
    (left : StrictTree ε Bd Env ts) :
    (left.orStrict right).PassesOn (a.inSide .right) (fun s => OrState.right (emb s)) := by
  intro s w
  have hpoll := liftPoll_id (P := Panic) (Event.under .right)
    (OrState.right (L := left.endpoint.Action)) (right.endpoint.pollAction (emb s) w)
  have hright := h s w
  exact hpoll.trans ((congrArg _ hright).trans (liftPoll_liftPoll _ _ _ _ _ _ _))

/-- The left side decides: the right one is not tried. -/
theorem GoesAs.left {left : StrictTree ε Bd Env ts} {cx : PreflightContext} {l : List Event}
    {a : Leaf ε Bd Env ts} (h : left.GoesAs cx l a) (right : StrictTree ε Bd Env ts) :
    (left.orStrict right).GoesAs cx (l.map (Event.under .left)) (a.inSide .left) := by
  rcases h with ⟨la, p, hpa, hpt⟩ | ⟨la, r, sa, c, s, hpa, hpt, hemb⟩
  · refine Or.inl ⟨la, p, hpa, ?_⟩
    rw [map_placed_inSide, ← List.map_append]
    exact OrStrictAction.preflight_panic_left hpt
  · have hor : (left.orStrict right).endpoint.preflight cx = _ := OrStrictAction.preflight_left hpt
    rw [List.map_append, ← map_placed_inSide] at hor
    rcases r with out | -
    · exact Or.inr ⟨la, _, sa, c, OrState.done, hpa, hor, fun hr => by cases hr⟩
    · obtain ⟨emb, rfl, hpass⟩ := hemb rfl
      exact Or.inr ⟨la, _, sa, c, OrState.left (emb sa), hpa, hor,
        fun _ => ⟨_, rfl, passesOn_left hpass right⟩⟩

/-- The left side fails: the right one is tried from the same cursor. -/
theorem GoesAs.right {left right : StrictTree ε Bd Env ts} {cx : PreflightContext}
    {l1 l2 : List Event} {err1 : Error ε} {s1 : left.endpoint.Action} {c1 : CursorInner}
    {a : Leaf ε Bd Env ts} (h : right.GoesAs cx l2 a)
    (h1 : left.endpoint.preflight cx = ⟨l1, .ok (.error err1, s1, c1)⟩) :
    (left.orStrict right).GoesAs cx (l1.map (Event.under .left) ++ l2.map (Event.under .right))
      (a.inSide .right) := by
  rcases h with ⟨la, p, hpa, hpt⟩ | ⟨la, r, sa, c, s, hpa, hpt, hemb⟩
  · refine Or.inl ⟨la, p, hpa, ?_⟩
    rw [map_placed_inSide, List.append_assoc, ← List.map_append]
    exact OrStrictAction.preflight_panic_right h1 hpt
  · have hor := OrStrictAction.preflight_right h1 hpt
    rw [List.map_append, ← map_placed_inSide, ← List.append_assoc] at hor
    rcases r with out | -
    · exact Or.inr ⟨la, _, sa, c, OrState.done, hpa, hor, fun hr => by cases hr⟩
    · obtain ⟨emb, rfl, hpass⟩ := hemb rfl
      exact Or.inr ⟨la, _, sa, c, OrState.right (emb sa), hpa, hor,
        fun _ => ⟨_, rfl, passesOn_right hpass left⟩⟩

theorem exists_fails {cx : PreflightContext} {as : List (Leaf ε Bd Env ts)}
    {errs : List (Error ε)} (h : List.Forall₂ (Leaf.Fails cx) as errs) :
    ∀ b ∈ as, ∃ err, b.Fails cx err := by
  induction h with
  | nil =>
    intro b hb
    cases hb
  | @cons a err as errs hfail _ ih =>
    intro b hb
    rcases List.mem_cons.mp hb with rfl | hb
    · exact ⟨err, hfail⟩
    · exact ih b hb

theorem Leftmost.left {left : StrictTree ε Bd Env ts} {cx : PreflightContext}
    {before after : List (Leaf ε Bd Env ts)} {a : Leaf ε Bd Env ts}
    (h : left.Leftmost cx before a after) (right : StrictTree ε Bd Env ts) :
    (left.orStrict right).Leftmost cx (before.map (.inSide .left)) (a.inSide .left)
      (after.map (.inSide .left) ++ right.leaves.map (.inSide .right)) where
  split := by
    rw [leaves, h.split]
    simp
  failed b hb := by
    obtain ⟨b', hb', rfl⟩ := List.mem_map.mp hb
    exact h.failed b' hb'
  stays := h.stays

theorem Leftmost.right {left right : StrictTree ε Bd Env ts} {cx : PreflightContext}
    {before after : List (Leaf ε Bd Env ts)} {a : Leaf ε Bd Env ts} {errs : List (Error ε)}
    (h : right.Leftmost cx before a after) (hleft : List.Forall₂ (Leaf.Fails cx) left.leaves errs) :
    (left.orStrict right).Leftmost cx
      (left.leaves.map (.inSide .left) ++ before.map (.inSide .right)) (a.inSide .right)
      (after.map (.inSide .right)) where
  split := by
    rw [leaves, h.split]
    simp
  failed b hb := by
    rcases List.mem_append.mp hb with hb | hb
    · obtain ⟨b', hb', rfl⟩ := List.mem_map.mp hb
      exact exists_fails hleft b' hb'
    · obtain ⟨b', hb', rfl⟩ := List.mem_map.mp hb
      exact h.failed b' hb'
  stays := h.stays

theorem Failed.orStrict {left right : StrictTree ε Bd Env ts} {cx : PreflightContext}
    {errs1 errs2 : List (Error ε)} (h1 : left.Failed cx errs1) (h2 : right.Failed cx errs2) :
    (left.orStrict right).Failed cx (errs1 ++ errs2) := by
  obtain ⟨hf1, err1, s1, c1, hn1, hp1⟩ := h1
  obtain ⟨hf2, err2, s2, c2, hn2, hp2⟩ := h2
  refine ⟨?_, .notMatched err1 err2, OrState.done, c2, hn1.orStrict hn2, ?_⟩
  · refine List.rel_append ?_ ?_
    · exact List.forall₂_map_left_iff.mpr hf1
    · exact List.forall₂_map_left_iff.mpr hf2
  · rw [leaves, events_append, events_inSide, events_inSide]
    exact OrStrictAction.preflight_neither hp1 hp2

/-! ## The tree -/

/-- The first leaf that does not fail decides; if there is none, the tree fails with all errors. -/
def Decides (t : StrictTree ε Bd Env ts) (cx : PreflightContext) : Prop :=
  (∃ before a after, t.Leftmost cx before a after ∧ t.GoesAs cx (events cx before) a) ∨
    ∃ errs, t.Failed cx errs

theorem decides_leaf (e : Endpoint ε Bd Env ts) (cx : PreflightContext) :
    (StrictTree.leaf e).Decides cx := by
  have hplaced : ∀ l : List Event, l.map (Leaf.placed (⟨e, []⟩ : Leaf ε Bd Env ts)) = l :=
    List.map_id
  rcases (e.preflight cx).eq_ok_or_error with ⟨l, ⟨err | r, s, c⟩, h⟩ | ⟨l, p, h⟩
  · refine Or.inr ⟨[err], .cons ⟨s, c, by rw [h]⟩ .nil, err, s, c, .leaf, ?_⟩
    have hlog : events cx (StrictTree.leaf e).leaves = l := by
      simp [events, leaves, Leaf.events, h, hplaced]
    rw [hlog]
    exact h
  · refine Or.inl ⟨[], ⟨e, []⟩, [], ⟨rfl, fun b hb => (by cases hb), ?_⟩,
      Or.inr ⟨l, r, s, c, s, h, ?_, fun _ => ⟨id, rfl, ?_⟩⟩⟩
    · rintro err ⟨s', c', hfail⟩
      have hok : (e.preflight cx).res = .ok (.ok r, s, c) := by rw [h]
      cases hok.symm.trans hfail
    · rw [hplaced]
      exact h
    · intro s' w
      show e.pollAction s' w = liftPoll _ id id (e.pollAction s' w)
      rcases (e.pollAction s' w).eq_ok_or_error with ⟨l', ⟨y, s'', w'⟩, hp⟩ | ⟨l', p, hp⟩
      · rw [hp, liftPoll_mk_ok, Poll.map_id, hplaced]
        rfl
      · rw [hp, liftPoll_mk_error, hplaced]
  · refine Or.inl ⟨[], ⟨e, []⟩, [], ⟨rfl, fun b hb => (by cases hb), ?_⟩, Or.inl ⟨l, p, h, ?_⟩⟩
    · rintro err ⟨s', c', hfail⟩
      have hpanic : (e.preflight cx).res = .error p := by rw [h]
      cases hpanic.symm.trans hfail
    · rw [hplaced]
      exact h

theorem decides (t : StrictTree ε Bd Env ts) (cx : PreflightContext) : t.Decides cx := by
  induction t with
  | leaf e => exact decides_leaf e cx
  | orStrict left right ihl ihr =>
    rcases ihl with ⟨before, a, after, hmost, hgoes⟩ | ⟨errs1, hf1⟩
    · refine Or.inl ⟨_, _, _, hmost.left right, ?_⟩
      rw [events_inSide]
      exact hgoes.left right
    · rcases ihr with ⟨before, a, after, hmost, hgoes⟩ | ⟨errs2, hf2⟩
      · obtain ⟨hfails, err1, s1, c1, -, hp1⟩ := hf1
        refine Or.inl ⟨_, _, _, hmost.right hfails, ?_⟩
        rw [events_append, events_inSide, events_inSide]
        exact hgoes.right hp1
      · exact Or.inr ⟨errs1 ++ errs2, hf1.orStrict hf2⟩

/-! ## Places -/

/-- No leaf stands at or below another one. -/
theorem leaves_apart (t : StrictTree ε Bd Env ts) :
    t.leaves.Pairwise fun a b => ¬ a.place <+: b.place ∧ ¬ b.place <+: a.place := by
  induction t with
  | leaf e => exact List.pairwise_singleton _ _
  | orStrict left right ihl ihr =>
    have hside : ∀ (d : Dir) {as : List (Leaf ε Bd Env ts)},
        as.Pairwise (fun a b => ¬ a.place <+: b.place ∧ ¬ b.place <+: a.place) →
        (as.map (Leaf.inSide d)).Pairwise
          (fun a b => ¬ a.place <+: b.place ∧ ¬ b.place <+: a.place) := by
      intro d as has
      rw [List.pairwise_map]
      refine has.imp fun {a b} hab => ?_
      simpa [List.cons_prefix_cons] using hab
    rw [leaves, List.pairwise_append]
    refine ⟨hside .left ihl, hside .right ihr, fun a ha b hb => ?_⟩
    obtain ⟨a', -, rfl⟩ := List.mem_map.mp ha
    obtain ⟨b', -, rfl⟩ := List.mem_map.mp hb
    simp [List.cons_prefix_cons]

/-- What is recorded below one leaf is not recorded below another one. -/
theorem not_below {a b : Leaf ε Bd Env ts}
    (h : ¬ a.place <+: b.place ∧ ¬ b.place <+: a.place) (e : Event) :
    ¬ b.place <+: (a.placed e).place := by
  intro hb
  rcases List.prefix_or_prefix_of_prefix hb (List.prefix_append a.place e.place) with hba | hab
  · exact h.2 hba
  · exact h.1 hab

/-- The leaves to the right of the one that decides are not touched: nothing that the leaves up to
it record, in whatever phase, is below one of them. -/
theorem Leftmost.untouched {t : StrictTree ε Bd Env ts} {cx : PreflightContext}
    {before after : List (Leaf ε Bd Env ts)} {a : Leaf ε Bd Env ts}
    (h : t.Leftmost cx before a after) {b : Leaf ε Bd Env ts} (hb : b ∈ after) (l : List Event)
    {e : Event} (he : e ∈ events cx before ++ l.map a.placed) : ¬ b.place <+: e.place := by
  have hapart := t.leaves_apart
  rw [h.split, List.pairwise_append, List.pairwise_cons] at hapart
  obtain ⟨-, ⟨ha, -⟩, hbefore⟩ := hapart
  rcases List.mem_append.mp he with he | he
  · obtain ⟨b', hb', he⟩ := List.mem_flatMap.mp he
    obtain ⟨e', -, rfl⟩ := List.mem_map.mp he
    exact not_below (hbefore b' hb' b (List.mem_cons_of_mem _ hb)) e'
  · obtain ⟨e', -, rfl⟩ := List.mem_map.mp he
    exact not_below (ha b hb) e'

end StrictTree

/-! ## Runs -/

namespace StrictTree

open AppFuture

variable {t : StrictTree ε Bd Env ts} {a : Leaf ε Bd Env ts} {l : List Event} {context : Context}

/-- A run of a tree whose `preflight` goes as that of a leaf is the run of that leaf. -/
theorem GoesAs.run (h : t.GoesAs (.new context) l a) (body : Option Bd)
    (g : Thread Env → Thread Env) (gs : List (Thread Env → Thread Env)) (th : Thread Env) :
    observe (drive t.endpoint.impl (g :: gs) ⟨.start (some t.endpoint.spawn), context, body⟩ th) =
      ((observe (drive a.endpoint.impl (g :: gs)
        ⟨.start (some a.endpoint.spawn), context, body⟩ th)).mapLog a.placed).prepend l := by
  rcases h with ⟨la, p, hpa, hpt⟩ | ⟨la, r | -, sa, c, s, hpa, hpt, hemb⟩
  · rw [drive_panics hpt, drive_panics hpa]
    rfl
  · rw [drive_completed hpt, drive_completed hpa]
    simp [observe]
  · obtain ⟨emb, rfl, hpass⟩ := hemb rfl
    rw [drive_incomplete hpt, drive_incomplete hpa, observe_prepend, observe_prepend,
      drive_passes hpass, passed_id, Traced.mapLog_prepend, Traced.prepend_prepend]

end StrictTree

open AppFuture StrictTree in
/-- **A tree of `or_strict`s is handled by its leftmost leaf that does not fail.**  From any cursor,
`preflight` of the tree records the attempts on the leaves before it and then what this leaf records,
leaves the cursor and the outcome of this leaf, and every poll of the tree is a poll of it; a run of
the tree is the run of this leaf after those attempts, with its result.  The leaves to its right are
not touched.  If all leaves fail, so does the tree, with their errors nested as the leaves are. -/
theorem or_strict_tree_selects (t : StrictTree ε Bd Env ts) :
    (∀ cx : PreflightContext,
      (∃ before a after, t.Leftmost cx before a after ∧
        ((∃ la p, a.endpoint.preflight cx = ⟨la, .error p⟩ ∧
            t.endpoint.preflight cx = ⟨StrictTree.events cx before ++ la.map a.placed, .error p⟩) ∨
          ∃ la r sa c s, a.endpoint.preflight cx = ⟨la, .ok (.ok r, sa, c)⟩ ∧
            t.endpoint.preflight cx =
              ⟨StrictTree.events cx before ++ la.map a.placed, .ok (.ok r, s, c)⟩ ∧
            (r = .incomplete → ∀ gs context body th,
              observe (drive t.endpoint.impl gs ⟨.inFlight s, context, body⟩ th) =
                (observe (drive a.endpoint.impl gs ⟨.inFlight sa, context, body⟩ th)).mapLog
                  a.placed)) ∧
        ∀ b ∈ after, ∀ ev ∈ (t.endpoint.preflight cx).log, ¬ b.place <+: ev.place) ∨
      ∃ errs err s c, List.Forall₂ (Leaf.Fails cx) t.leaves errs ∧ t.Nested errs err ∧
        t.endpoint.preflight cx = ⟨StrictTree.events cx t.leaves, .ok (.error err, s, c)⟩) ∧
    ∀ (addr : Nat) (request : Request) (body : Bd) (g : Thread Env → Thread Env)
      (gs : List (Thread Env → Thread Env)) (th : Thread Env),
      let cx := PreflightContext.new (.new addr request)
      let run := observe (drive t.endpoint.impl (g :: gs) (.dispatch t.endpoint addr request body) th)
      (∃ before a after, t.Leftmost cx before a after ∧
        run = ((observe (drive a.endpoint.impl (g :: gs)
          (.dispatch a.endpoint addr request body) th)).mapLog a.placed).prepend
            (StrictTree.events cx before) ∧
        ∀ b ∈ after, ∀ ev ∈ run.log, ¬ b.place <+: ev.place) ∨
      ∃ errs err, List.Forall₂ (Leaf.Fails cx) t.leaves errs ∧ t.Nested errs err ∧
        run = ⟨StrictTree.events cx t.leaves,
          .ok (some (.error err), .new addr request, some body, g th)⟩ := by
  refine ⟨fun cx => ?_, fun addr request body g gs th => ?_⟩
  · rcases t.decides cx with ⟨before, a, after, hmost, hgoes⟩ | ⟨errs, hfails, err, s, c, hn, hp⟩
    · refine Or.inl ⟨before, a, after, hmost, ?_⟩
      rcases hgoes with ⟨la, p, hpa, hpt⟩ | ⟨la, r, sa, c, s, hpa, hpt, hemb⟩
      · refine ⟨Or.inl ⟨la, p, hpa, hpt⟩, fun b hb ev hev => ?_⟩
        rw [hpt] at hev
        exact hmost.untouched hb la hev
      · refine ⟨Or.inr ⟨la, r, sa, c, s, hpa, hpt, ?_⟩, fun b hb ev hev => ?_⟩
        · intro hr gs context body th
          obtain ⟨emb, rfl, hpass⟩ := hemb hr
          exact (drive_passes hpass gs sa context body th).trans (passed_id _ _)
        · rw [hpt] at hev
          exact hmost.untouched hb la hev
    · exact Or.inr ⟨errs, err, s, c, hfails, hn, hp⟩
  · intro cx run
    rcases t.decides cx with ⟨before, a, after, hmost, hgoes⟩ | ⟨errs, hfails, err, s, c, hn, hp⟩
    · have hrun := hgoes.run (some body) g gs th
      refine Or.inl ⟨before, a, after, hmost, hrun, fun b hb ev hev => ?_⟩
      rw [show run = _ from hrun] at hev
      exact hmost.untouched hb _ hev
    · refine Or.inr ⟨errs, err, hfails, hn, ?_⟩
      have hrun := drive_failed hp (some body) g gs th
      show observe (drive t.endpoint.impl (g :: gs) ⟨_, _, _⟩ th) = _
      rw [hrun]
      simp [observe]

end Finchers
