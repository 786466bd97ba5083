import Finchers.Selected
import Finchers.Endpoint.Syntax
import Finchers.Endpoint.Verb

/-!
# Where the cursor stands after a recovered failure

`recover` turns a failed `preflight` into a success and leaves the cursor where the failure left it.

* `Cursor.nextSegment_onward`, `Cursor.runOps_onward` — the cursor can only be moved by popping;
* `Cursor.Stuck` — at the end of the path, and where there is no path, it cannot be moved at all;
* `Endpoint.Unmoved` — the leaves that decide how `preflight` ends ignore the path, or no segment is
  left;
* `Endpoint.standsAs` — by induction on the endpoint: where `preflight` leaves the cursor;
* `recover_consumes_nothing_iff` — **a recovered endpoint consumes no segments iff it is `Unmoved`**.
-/

set_option autoImplicit false

namespace Finchers

open Resumable

variable {ε Bd Env : Type} {ts us : List Type}

/-! ## The cursor moves by popping -/

/-- The cursor is where it was, or segments were popped. -/
def CursorInner.Onward (start c : CursorInner) : Prop := c = start ∨ start.popped < c.popped

namespace CursorInner.Onward

variable {a b c : CursorInner}

theorem refl (a : CursorInner) : Onward a a := Or.inl rfl

theorem trans (h1 : Onward a b) (h2 : Onward b c) : Onward a c := by
  rcases h1 with rfl | h1
  · exact h2
  · rcases h2 with rfl | h2
    · exact Or.inr h1
    · exact Or.inr (by omega)

theorem popped_le (h : Onward a b) : a.popped ≤ b.popped := by
  rcases h with rfl | h
  · exact Nat.le_refl _
  · omega

theorem eq_of_popped_le (h : Onward a b) (hle : b.popped ≤ a.popped) : b = a := by
  rcases h with rfl | h
  · rfl
  · omega

/-- Of two places, the one with more popped segments is the start iff both are. -/
theorem eq_iff_both (hb : Onward a b) (hle : b.popped ≤ c.popped) :
    c = a ↔ b = a ∧ c = a := by
  refine ⟨fun h => ⟨hb.eq_of_popped_le ?_, h⟩, fun h => h.2⟩
  rw [← h]
  exact hle

/-- Going on twice ends at the start only if nothing was popped on the way. -/
theorem eq_of_trans (h1 : Onward a b) (h2 : Onward b a) : b = a :=
  h1.eq_of_popped_le h2.popped_le

end CursorInner.Onward

open CursorInner

namespace Cursor

/-- `next_segment` stays where it is at the end, and pops one segment otherwise. -/
theorem nextSegment_cases {path : Str} {inner c : CursorInner} {s : Option Str}
    (h : nextSegment path inner = .ok (s, c)) :
    (inner.pos = Utf8.len path ∧ s = none ∧ c = inner) ∨
      (inner.pos ≠ Utf8.len path ∧ s.isSome = true ∧ c.popped = inner.popped + 1) := by
  by_cases hend : inner.pos = Utf8.len path
  · rw [nextSegment, if_pos hend] at h
    cases h
    exact Or.inl ⟨hend, rfl, rfl⟩
  · right
    rw [nextSegment, if_neg hend] at h
    cases hrest : Utf8.sliceFrom path inner.pos with
    | none =>
      rw [hrest] at h
      cases h
    | some rest =>
      rw [hrest] at h
      simp only [index, bind, Except.bind] at h
      cases hfind : Utf8.find '/' rest with
      | none =>
        simp only [hfind] at h
        cases h
        exact ⟨hend, rfl, rfl⟩
      | some offset =>
        simp only [hfind] at h
        cases hslice : Utf8.slice path inner.pos (inner.pos + offset) with
        | none =>
          rw [hslice] at h
          cases h
        | some s' =>
          rw [hslice] at h
          cases h
          exact ⟨hend, rfl, rfl⟩

theorem nextSegment_onward {path : Str} {inner c : CursorInner} {s : Option Str}
    (h : nextSegment path inner = .ok (s, c)) : Onward inner c := by
  rcases nextSegment_cases h with ⟨-, -, rfl⟩ | ⟨-, -, hp⟩
  · exact .refl c
  · exact Or.inr (by omega)

theorem count_onward {path : Str} {n : Nat} {inner c : CursorInner}
    (h : count path inner = .ok (n, c)) : Onward inner c := by
  induction inner using count.induct path generalizing n with
  | case1 inner p hn =>
    rw [count, hn] at h
    cases h
  | case2 inner inner' hn =>
    rw [count, hn] at h
    cases h
    exact nextSegment_onward hn
  | case3 inner s inner' hn ih =>
    rw [count, hn] at h
    simp only at h
    rcases hc : count path inner' with p | ⟨m, c'⟩
    · rw [hc] at h
      cases h
    · rw [hc] at h
      cases h
      exact (nextSegment_onward hn).trans (ih hc)

theorem step_onward {path : Str} {start : CursorInner} {past : List CursorInner}
    {inner c : CursorInner} {op : CursorOp} (hpast : ∀ c ∈ past, Onward start c)
    (hinner : Onward start inner) (h : step path past inner op = .ok c) : Onward start c := by
  cases op with
  | nextSegment =>
    rw [step] at h
    rcases hn : nextSegment path inner with p | ⟨s, c'⟩
    · rw [hn] at h
      cases h
    · rw [hn] at h
      cases h
      exact hinner.trans (nextSegment_onward hn)
  | count =>
    rw [step] at h
    rcases hc : count path inner with p | ⟨n, c'⟩
    · rw [hc] at h
      cases h
    · rw [hc] at h
      cases h
      exact hinner.trans (count_onward hc)
  | remainingPath =>
    rw [step] at h
    rcases hr : remainingPath path inner with p | s
    · rw [hr] at h
      cases h
    · rw [hr] at h
      cases h
      exact hinner
  | restore n =>
    cases h
    cases hn : past[n]? with
    | none => exact hinner
    | some c' => exact hpast c' (List.mem_of_getElem? hn)

/-- Whatever is done with the cursor from `start` on, clones put back included, segments were popped
since or it is where it was. -/
theorem runOps_onward {path : Str} {start : CursorInner} (ops : List CursorOp)
    {past : List CursorInner} {inner c : CursorInner} (hpast : ∀ c ∈ past, Onward start c)
    (hinner : Onward start inner) (h : runOps path ops past inner = .ok c) : Onward start c := by
  induction ops generalizing past inner with
  | nil =>
    cases h
    exact hinner
  | cons op ops ih =>
    rw [runOps] at h
    cases hstep : step path past inner op with
    | error p =>
      rw [hstep] at h
      cases h
    | ok inner' =>
      rw [hstep] at h
      refine ih (fun c' hc' => ?_) (step_onward hpast hinner hstep) h
      rcases List.mem_append.mp hc' with hc' | hc'
      · exact hpast c' hc'
      · rw [List.mem_singleton.mp hc']
        exact hinner

end Cursor

/-! ## Where the cursor can get -/

/-- The operation, with `n` more positions before those it can put back. -/
def CursorOp.after (n : Nat) : CursorOp → CursorOp
  | .restore m => .restore (n + m)
  | op => op

namespace Cursor

/-- The cursor got from `start` to `c` by its operations. -/
def Reaches (path : Str) (start c : CursorInner) : Prop := ∃ ops, runOps path ops [] start = .ok c

variable {path : Str} {start inner c : CursorInner}

theorem Reaches.refl (path : Str) (c : CursorInner) : Reaches path c c := ⟨[], rfl⟩

theorem Reaches.onward (h : Reaches path start c) : start.Onward c := by
  obtain ⟨ops, hops⟩ := h
  exact runOps_onward ops (fun _ hc => by cases hc) (.refl start) hops

/-- Operations go on from where others ended. -/
theorem runOps_append (ops : List CursorOp) {past : List CursorInner}
    (h : runOps path ops past start = .ok inner) :
    ∃ past', ∀ ops', runOps path (ops ++ ops') past start = runOps path ops' past' inner := by
  induction ops generalizing past start with
  | nil =>
    cases h
    exact ⟨past, fun ops' => rfl⟩
  | cons op ops ih =>
    rw [runOps] at h
    cases hstep : step path past start op with
    | error p =>
      rw [hstep] at h
      cases h
    | ok start' =>
      rw [hstep] at h
      obtain ⟨past', hpast'⟩ := ih h
      refine ⟨past', fun ops' => ?_⟩
      rw [List.cons_append, runOps, hstep]
      exact hpast' ops'

theorem step_after (past' past : List CursorInner) (op : CursorOp) :
    step path (past' ++ past) inner (op.after past'.length) = step path past inner op := by
  cases op with
  | restore n => simp [CursorOp.after, step, List.getElem?_append_right]
  | nextSegment => rfl
  | count => rfl
  | remainingPath => rfl

theorem runOps_after (ops : List CursorOp) (past' past : List CursorInner) :
    runOps path (ops.map (CursorOp.after past'.length)) (past' ++ past) inner =
      runOps path ops past inner := by
  induction ops generalizing past inner with
  | nil => rfl
  | cons op ops ih =>
    rw [List.map_cons, runOps, runOps, step_after]
    cases step path past inner op with
    | error p => rfl
    | ok inner' =>
      simp only [List.append_assoc]
      exact ih (past ++ [inner])

theorem Reaches.trans (h : Reaches path start inner) (h' : Reaches path inner c) :
    Reaches path start c := by
  obtain ⟨ops, hops⟩ := h
  obtain ⟨ops', hops'⟩ := h'
  obtain ⟨past, hpast⟩ := runOps_append ops hops
  refine ⟨ops ++ ops'.map (CursorOp.after past.length), ?_⟩
  have hafter : runOps path (ops'.map (CursorOp.after past.length)) (past ++ []) inner =
      runOps path ops' [] inner := runOps_after ops' past []
  rw [hpast, ← hops', ← hafter, List.append_nil]

/-- The cursor got there by its operations, and segments were popped unless there were none. -/
structure Reads (path : Str) (inner c : CursorInner) : Prop where
  reaches : Reaches path inner c
  moves : c = inner → inner.pos = Utf8.len path

theorem reads_nextSegment {s : Option Str} (h : nextSegment path inner = .ok (s, c)) :
    Reads path inner c := by
  refine ⟨⟨[.nextSegment], ?_⟩, fun hc => ?_⟩
  · simp [runOps, step, h, Except.map]
  · rcases nextSegment_cases h with ⟨hend, -, -⟩ | ⟨-, -, hp⟩
    · exact hend
    · rw [hc] at hp
      omega

theorem reads_count {n : Nat} (h : count path inner = .ok (n, c)) : Reads path inner c := by
  refine ⟨⟨[.count], ?_⟩, fun hc => ?_⟩
  · simp [runOps, step, h, Except.map]
  · rw [count] at h
    split at h
    · cases h
    · next inner' hn =>
      cases h
      exact (reads_nextSegment hn).moves hc
    · next s inner' hn =>
      rcases hrest : count path inner' with p | ⟨m, c'⟩
      · rw [hrest] at h
        cases h
      · rw [hrest] at h
        cases h
        have hle := (count_onward hrest).popped_le
        rcases nextSegment_cases hn with ⟨-, hs, -⟩ | ⟨-, -, hp⟩
        · cases hs
        · rw [hc] at hle
          omega

/-- What pops on does not get back. -/
theorem Reads.trans (h : Reads path start inner) (h' : Reaches path inner c) :
    Reads path start c := by
  refine ⟨h.reaches.trans h', ?_⟩
  rintro rfl
  exact h.moves (h.reaches.onward.eq_of_trans h'.onward)

/-- `next_segment` does not get the cursor anywhere. -/
def Stuck (path : Str) (inner : CursorInner) : Prop :=
  ∀ s c, nextSegment path inner = .ok (s, c) → c = inner

/-- There is no segment left. -/
theorem stuck_of_end (h : inner.pos = Utf8.len path) : Stuck path inner := by
  intro s c hn
  rcases nextSegment_cases hn with ⟨-, -, hc⟩ | ⟨hne, -, -⟩
  · exact hc
  · exact absurd h hne

/-- There is no path. -/
theorem stuck_of_nil (hpath : path = []) (hpos : inner.pos = 1) : Stuck path inner := by
  intro s c hn
  obtain ⟨pos, popped⟩ := inner
  subst hpath hpos
  cases hn

theorem Stuck.count {n : Nat} (h : Stuck path inner) (hc : count path inner = .ok (n, c)) :
    c = inner := by
  rw [Cursor.count] at hc
  split at hc
  · cases hc
  · next inner' hn =>
    cases hc
    exact h _ _ hn
  · next s inner' hn =>
    -- a segment that was popped is counted
    rcases nextSegment_cases hn with ⟨-, hs, -⟩ | ⟨-, -, hp⟩
    · cases hs
    · rw [h _ _ hn] at hp
      omega

/-- A cursor that is stuck stays where it is, whatever is done with it. -/
theorem Stuck.runOps (h : Stuck path inner) (ops : List CursorOp) {past : List CursorInner}
    (hpast : ∀ c ∈ past, c = inner) (hrun : runOps path ops past inner = .ok c) : c = inner := by
  induction ops generalizing past with
  | nil =>
    cases hrun
    rfl
  | cons op ops ih =>
    have hstep : ∀ c', step path past inner op = .ok c' → c' = inner := by
      intro c' hc'
      cases op with
      | nextSegment =>
        rcases hn : Cursor.nextSegment path inner with p | ⟨s, c''⟩
        · rw [step, hn] at hc'
          cases hc'
        · rw [step, hn] at hc'
          cases hc'
          exact h _ _ hn
      | count =>
        rcases hn : Cursor.count path inner with p | ⟨n, c''⟩
        · rw [step, hn] at hc'
          cases hc'
        · rw [step, hn] at hc'
          cases hc'
          exact h.count hn
      | remainingPath =>
        rcases hr : Cursor.remainingPath path inner with p | s
        · rw [step, hr] at hc'
          cases hc'
        · rw [step, hr] at hc'
          cases hc'
          rfl
      | restore n =>
        cases hc'
        cases hn : past[n]? with
        | none => rfl
        | some c'' => exact hpast c'' (List.mem_of_getElem? hn)
    rw [Cursor.runOps] at hrun
    cases hop : step path past inner op with
    | error p =>
      rw [hop] at hrun
      cases hrun
    | ok c' =>
      rw [hop] at hrun
      cases hstep c' hop
      refine ih (fun c' hc' => ?_) hrun
      rcases List.mem_append.mp hc' with hc' | hc'
      · exact hpast c' hc'
      · exact List.mem_singleton.mp hc'

theorem Stuck.reaches (h : Stuck path inner) (hc : Reaches path inner c) : c = inner := by
  obtain ⟨ops, hops⟩ := hc
  exact h.runOps ops (fun _ hc => by cases hc) hops

end Cursor

/-! ## Endpoints -/

namespace Endpoint

/-- `preflight` moves the cursor by its operations only. -/
def MovesByOps (e : Endpoint ε Bd Env ts) : Prop :=
  ∀ cx l r s c, e.preflight cx = ⟨l, .ok (r, s, c)⟩ → Cursor.Reaches cx.path cx.cursor c

/-- `preflight` leaves the cursor alone, at every request and wherever it stands. -/
def IgnoresPath (e : Endpoint ε Bd Env ts) : Prop :=
  ∀ cx l r s c, e.preflight cx = ⟨l, .ok (r, s, c)⟩ → c = cx.cursor

/-- `preflight` pops segments, at every request and wherever the cursor stands, unless there are
none left. -/
def ReadsPath (e : Endpoint ε Bd Env ts) : Prop :=
  ∀ cx l r s c, e.preflight cx = ⟨l, .ok (r, s, c)⟩ → Cursor.Reads cx.path cx.cursor c

/-- The leaves move the cursor by its operations only; there is no other way to it. -/
def UsesCursor : {ts : List Type} → Endpoint ε Bd Env ts → Prop
  | _, .leaf σ a init => (Endpoint.leaf σ a init : Endpoint ε Bd Env _).MovesByOps
  | _, .oneshot σ a init => (Endpoint.oneshot σ a init : Endpoint ε Bd Env _).MovesByOps
  | _, .future _ _ _ => True
  | _, .and e1 e2 => e1.UsesCursor ∧ e2.UsesCursor
  | _, .or e1 e2 => e1.UsesCursor ∧ e2.UsesCursor
  | _, .orStrict e1 e2 => e1.UsesCursor ∧ e2.UsesCursor
  | _, .map e _ => e.UsesCursor
  | _, .mapErr e _ => e.UsesCursor
  | _, .andThen _ e _ _ => e.UsesCursor
  | _, .recover _ e _ _ => e.UsesCursor
  | _, .boxed e => e.UsesCursor

/-- Each leaf reads the path or ignores it, as the leaves of the library do; none pops segments at
some requests only. -/
def PlainLeaves : {ts : List Type} → Endpoint ε Bd Env ts → Prop
  | _, .leaf σ a init =>
    (Endpoint.leaf σ a init : Endpoint ε Bd Env _).IgnoresPath ∨
      (Endpoint.leaf σ a init : Endpoint ε Bd Env _).ReadsPath
  | _, .oneshot σ a init =>
    (Endpoint.oneshot σ a init : Endpoint ε Bd Env _).IgnoresPath ∨
      (Endpoint.oneshot σ a init : Endpoint ε Bd Env _).ReadsPath
  | _, .future _ _ _ => True
  | _, .and e1 e2 => e1.PlainLeaves ∧ e2.PlainLeaves
  | _, .or e1 e2 => e1.PlainLeaves ∧ e2.PlainLeaves
  | _, .orStrict e1 e2 => e1.PlainLeaves ∧ e2.PlainLeaves
  | _, .map e _ => e.PlainLeaves
  | _, .mapErr e _ => e.PlainLeaves
  | _, .andThen _ e _ _ => e.PlainLeaves
  | _, .recover _ e _ _ => e.PlainLeaves
  | _, .boxed e => e.PlainLeaves

/-- Each leaf that decides how `preflight` ends ignores the path, or there is no segment left.  Of an
`and` the left component decides, and the right one as well if the left one matches; of an `or` the
sides that match, or the right side if none does. -/
def Unmoved : {ts : List Type} → Endpoint ε Bd Env ts → PreflightContext → Prop
  | _, .leaf σ a init, cx =>
    (Endpoint.leaf σ a init : Endpoint ε Bd Env _).IgnoresPath ∨ cx.cursor.pos = Utf8.len cx.path
  | _, .oneshot σ a init, cx =>
    (Endpoint.oneshot σ a init : Endpoint ε Bd Env _).IgnoresPath ∨
      cx.cursor.pos = Utf8.len cx.path
  | _, .future _ _ _, _ => True
  | _, .and e1 e2, cx => e1.Unmoved cx ∧ ((∃ c, e1.Matches cx c) → e2.Unmoved cx)
  | _, .or e1 e2, cx =>
    ((∃ c, e1.Matches cx c) → e1.Unmoved cx) ∧
      ((∃ c, e2.Matches cx c) ∨ (¬ ∃ c, e1.Matches cx c) → e2.Unmoved cx)
  | _, .orStrict e1 e2, cx =>
    ((∃ c, e1.Matches cx c) → e1.Unmoved cx) ∧ ((¬ ∃ c, e1.Matches cx c) → e2.Unmoved cx)
  | _, .map e _, cx => e.Unmoved cx
  | _, .mapErr e _, cx => e.Unmoved cx
  | _, .andThen _ e _ _, cx => e.Unmoved cx
  | _, .recover _ e _ _, cx => e.Unmoved cx
  | _, .boxed e, cx => e.Unmoved cx

/-! ### Moves -/

theorem movesByOps_and {e1 : Endpoint ε Bd Env ts} {e2 : Endpoint ε Bd Env us} (h1 : e1.MovesByOps)
    (h2 : e2.MovesByOps) : (e1.and e2).MovesByOps := by
  intro cx l r s c h
  rcases hp1 : e1.preflight cx with ⟨l1, q | ⟨err | x, s1, c1⟩⟩
  · cases congrArg Traced.res ((AndAction.preflight_panic_left hp1).symm.trans h)
  · cases congrArg Traced.res ((AndAction.preflight_failed_left hp1).symm.trans h)
    exact h1 _ _ _ _ _ hp1
  · have hreach1 := h1 _ _ _ _ _ hp1
    rcases hp2 : e2.preflight { cx with cursor := c1 } with ⟨l2, q | ⟨err | y, s2, c2⟩⟩
    · cases congrArg Traced.res ((AndAction.preflight_panic_right hp1 hp2).symm.trans h)
    · cases congrArg Traced.res ((AndAction.preflight_failed_right hp1 hp2).symm.trans h)
      exact hreach1.trans (h2 _ _ _ _ _ hp2)
    · cases congrArg Traced.res ((AndAction.preflight_ok hp1 hp2).symm.trans h)
      exact hreach1.trans (h2 _ _ _ _ _ hp2)

theorem movesByOps_or {T1 T2 : Type} {e1 : Endpoint ε Bd Env [T1]} {e2 : Endpoint ε Bd Env [T2]}
    (h1 : e1.MovesByOps) (h2 : e2.MovesByOps) : (e1.or e2).MovesByOps := by
  intro cx l r s c h
  rcases hp1 : e1.preflight cx with ⟨l1, q | ⟨r1, s1, c1⟩⟩
  · cases congrArg Traced.res ((OrAction.preflight_panic_left hp1).symm.trans h)
  rcases hp2 : e2.preflight cx with ⟨l2, q | ⟨r2, s2, c2⟩⟩
  · cases congrArg Traced.res ((OrAction.preflight_panic_right hp1 hp2).symm.trans h)
  by_cases hleft : ∃ x, r1 = .ok x ∧ ∀ y, r2 = .ok y → c2.popped ≤ c1.popped
  · obtain ⟨x, rfl, hle⟩ := hleft
    cases congrArg Traced.res ((OrAction.preflight_left hp1 hp2 hle).symm.trans h)
    exact h1 _ _ _ _ _ hp1
  · -- the left side fails or has popped fewer segments
    have hlt : ∀ x, r1 = .ok x → ∀ y, r2 = .ok y → c1.popped < c2.popped := by
      intro x hx y hy
      by_contra hnot
      exact hleft ⟨x, hx, fun _ _ => by omega⟩
    rcases r2 with err2 | y
    · rcases r1 with err1 | x
      · cases congrArg Traced.res ((OrAction.preflight_neither hp1 hp2).symm.trans h)
        exact h2 _ _ _ _ _ hp2
      · exact absurd ⟨x, rfl, fun y hy => by cases hy⟩ hleft
    · cases congrArg Traced.res
        ((OrAction.preflight_right hp1 hp2 fun x hx => hlt x hx y rfl).symm.trans h)
      exact h2 _ _ _ _ _ hp2

theorem movesByOps_orStrict {e1 e2 : Endpoint ε Bd Env ts} (h1 : e1.MovesByOps)
    (h2 : e2.MovesByOps) : (e1.orStrict e2).MovesByOps := by
  intro cx l r s c h
  rcases hp1 : e1.preflight cx with ⟨l1, q | ⟨err1 | x, s1, c1⟩⟩
  · cases congrArg Traced.res ((OrStrictAction.preflight_panic_left hp1).symm.trans h)
  · rcases hp2 : e2.preflight cx with ⟨l2, q | ⟨err2 | y, s2, c2⟩⟩
    · cases congrArg Traced.res ((OrStrictAction.preflight_panic_right hp1 hp2).symm.trans h)
    · cases congrArg Traced.res ((OrStrictAction.preflight_neither hp1 hp2).symm.trans h)
      exact h2 _ _ _ _ _ hp2
    · cases congrArg Traced.res ((OrStrictAction.preflight_right hp1 hp2).symm.trans h)
      exact h2 _ _ _ _ _ hp2
  · cases congrArg Traced.res ((OrStrictAction.preflight_left hp1).symm.trans h)
    exact h1 _ _ _ _ _ hp1

/-- A combinator whose `preflight` ends with the cursor of its inner action. -/
theorem movesByOps_inner {e : Endpoint ε Bd Env ts} {e' : Endpoint ε Bd Env us} (he : e.MovesByOps)
    (hcursor : ∀ cx l r s c, e'.preflight cx = ⟨l, .ok (r, s, c)⟩ →
      ∃ l r s, e.preflight cx = ⟨l, .ok (r, s, c)⟩) : e'.MovesByOps := by
  intro cx l r s c h
  obtain ⟨l', r', s', h'⟩ := hcursor cx l r s c h
  exact he cx l' r' s' c h'

/-- What the leaves do, the whole does. -/
theorem UsesCursor.movesByOps {e : Endpoint ε Bd Env ts} (he : e.UsesCursor) : e.MovesByOps := by
  induction e with
  | leaf σ a init => exact he
  | oneshot σ a init => exact he
  | future Fut f init =>
    intro cx l r s c h
    cases congrArg Traced.res h
    exact .refl _ _
  | and e1 e2 ih1 ih2 => exact movesByOps_and (ih1 he.1) (ih2 he.2)
  | or e1 e2 ih1 ih2 => exact movesByOps_or (ih1 he.1) (ih2 he.2)
  | orStrict e1 e2 ih1 ih2 => exact movesByOps_orStrict (ih1 he.1) (ih2 he.2)
  | map e f ih =>
    refine movesByOps_inner (ih he) fun cx l r s c h => ?_
    obtain ⟨l1, r1, h1, -⟩ := MapAction.preflight_inv h
    exact ⟨l1, r1, s, h1⟩
  | mapErr e f ih =>
    refine movesByOps_inner (ih he) fun cx l r s c h => ?_
    obtain ⟨l1, r1, h1, -⟩ := MapErrAction.preflight_inv h
    exact ⟨l1, r1, s, h1⟩
  | andThen Fut e fut f ih =>
    refine movesByOps_inner (ih he) fun cx l r s c h => ?_
    obtain ⟨l1, r1, s1, h1, -⟩ := AndThenAction.preflight_inv h
    exact ⟨l1, r1, s1, h1⟩
  | recover Fut e fut f ih =>
    refine movesByOps_inner (ih he) fun cx l r s c h => ?_
    obtain ⟨l1, r1, s1, h1, -⟩ := RecoverAction.preflight_inv h
    exact ⟨l1, r1, s1, h1⟩
  | boxed e ih => exact movesByOps_inner (ih he) fun _ _ _ _ _ h => ⟨_, _, _, h⟩

/-- Where the cursor is stuck, `preflight` does not move it. -/
theorem UsesCursor.preflight_stuck {e : Endpoint ε Bd Env ts} (he : e.UsesCursor)
    {cx : PreflightContext} (hstuck : Cursor.Stuck cx.path cx.cursor) {l : List Event}
    {r : Except (Error ε) (Preflight (HList ts))} {s : e.Action} {c : CursorInner}
    (h : e.preflight cx = ⟨l, .ok (r, s, c)⟩) : c = cx.cursor :=
  hstuck.reaches (he.movesByOps cx l r s c h)

/-! ### Where `preflight` ends -/

/-- Where `preflight` leaves the cursor: where it was if the endpoint is `Unmoved`, and with plain
leaves only then. -/
structure Stands (e : Endpoint ε Bd Env ts) (cx : PreflightContext) (c : CursorInner) : Prop where
  stays : e.Unmoved cx → c = cx.cursor
  unmoved : e.PlainLeaves → c = cx.cursor → e.Unmoved cx

/-- However `preflight` ends. -/
def StandsAs (e : Endpoint ε Bd Env ts) : Prop :=
  ∀ cx l r s c, e.impl.preflight cx e.spawn = ⟨l, .ok (r, s, c)⟩ → e.Stands cx c

theorem standsAs_and {e1 : Endpoint ε Bd Env ts} {e2 : Endpoint ε Bd Env us} (m1 : e1.MovesByOps)
    (m2 : e2.MovesByOps) (h1 : e1.StandsAs) (h2 : e2.StandsAs) : (e1.and e2).StandsAs := by
  intro cx l r s c h
  replace h : (AndAction.action e1.impl e2.impl).preflight cx
    ⟨.init (some e1.spawn), .init (some e2.spawn)⟩ = ⟨l, .ok (r, s, c)⟩ := h
  rcases hp1 : e1.impl.preflight cx e1.spawn with ⟨l1, q | ⟨err | x, s1, c1⟩⟩
  · rw [AndAction.preflight_panic_left hp1] at h
    cases congrArg Traced.res h
  · rw [AndAction.preflight_failed_left hp1] at h
    cases congrArg Traced.res h
    have hs1 := h1 _ _ _ _ _ hp1
    have hnot : ¬ ∃ c', e1.Matches cx c' := fun ⟨c', hm⟩ => not_matches_of_failed hp1 hm
    exact ⟨fun hu => hs1.stays hu.1,
      fun hplain hc => ⟨hs1.unmoved hplain.1 hc, fun hm => (hnot hm).elim⟩⟩
  · -- the left component matched, so the right one ends the `preflight`
    have hmatch : ∃ c, e1.Matches cx c := ⟨c1, (matches_iff hp1).mpr rfl⟩
    have hs1 := h1 _ _ _ _ _ hp1
    have hend : ∀ {r2 s2 l2}, e2.impl.preflight { cx with cursor := c1 } e2.spawn =
        ⟨l2, .ok (r2, s2, c)⟩ → (e1.and e2).Stands cx c := by
      intro r2 s2 l2 hp2
      have hs2 := h2 _ _ _ _ _ hp2
      constructor
      · rintro ⟨hu1, hu2⟩
        have hstart : c1 = cx.cursor := hs1.stays hu1
        subst hstart
        exact hs2.stays (hu2 hmatch)
      · rintro hplain rfl
        have hstart : c1 = cx.cursor :=
          (m1 _ _ _ _ _ hp1).onward.eq_of_trans (m2 _ _ _ _ _ hp2).onward
        subst hstart
        exact ⟨hs1.unmoved hplain.1 rfl, fun _ => hs2.unmoved hplain.2 rfl⟩
    rcases hp2 : e2.impl.preflight { cx with cursor := c1 } e2.spawn with ⟨l2, q | ⟨err | y, s2, c2⟩⟩
    · rw [AndAction.preflight_panic_right hp1 hp2] at h
      cases congrArg Traced.res h
    · rw [AndAction.preflight_failed_right hp1 hp2] at h
      cases congrArg Traced.res h
      exact hend hp2
    · rw [AndAction.preflight_ok hp1 hp2] at h
      cases congrArg Traced.res h
      exact hend hp2

theorem standsAs_or {T1 T2 : Type} {e1 : Endpoint ε Bd Env [T1]} {e2 : Endpoint ε Bd Env [T2]}
    (m1 : e1.MovesByOps) (m2 : e2.MovesByOps) (h1 : e1.StandsAs) (h2 : e2.StandsAs) :
    (e1.or e2).StandsAs := by
  intro cx l r s c h
  replace h : (OrAction.action e1.impl e2.impl).preflight cx (.init e1.spawn e2.spawn) =
    ⟨l, .ok (r, s, c)⟩ := h
  rcases hp1 : e1.impl.preflight cx e1.spawn with ⟨l1, q | ⟨r1, s1, c1⟩⟩
  · rw [OrAction.preflight_panic_left hp1] at h
    cases congrArg Traced.res h
  have hs1 := h1 _ _ _ _ _ hp1
  rcases hp2 : e2.impl.preflight cx e2.spawn with ⟨l2, q | ⟨r2, s2, c2⟩⟩
  · rw [OrAction.preflight_panic_right hp1 hp2] at h
    cases congrArg Traced.res h
  have hs2 := h2 _ _ _ _ _ hp2
  rcases r1 with err1 | x
  · have hnot : ¬ ∃ c, e1.Matches cx c := fun ⟨c', hm⟩ => not_matches_of_failed hp1 hm
    have hc : c = c2 := by
      rcases r2 with err2 | y
      · rw [OrAction.preflight_neither hp1 hp2] at h
        cases congrArg Traced.res h
        rfl
      · rw [OrAction.preflight_right hp1 hp2 fun _ he => nomatch he] at h
        cases congrArg Traced.res h
        rfl
    subst hc
    exact ⟨fun hu => hs2.stays (hu.2 (Or.inr hnot)),
      fun hplain hc => ⟨fun hm => (hnot hm).elim, fun _ => hs2.unmoved hplain.2 hc⟩⟩
  · have hmatch1 : ∃ c, e1.Matches cx c := ⟨c1, (matches_iff hp1).mpr rfl⟩
    rcases r2 with err2 | y
    · have hnot : ¬ ∃ c, e2.Matches cx c := fun ⟨c', hm⟩ => not_matches_of_failed hp2 hm
      rw [OrAction.preflight_left hp1 hp2 fun _ he => nomatch he] at h
      cases congrArg Traced.res h
      refine ⟨fun hu => hs1.stays (hu.1 hmatch1), fun hplain hc =>
        ⟨fun _ => hs1.unmoved hplain.1 hc, ?_⟩⟩
      rintro (hm | hn)
      · exact (hnot hm).elim
      · exact (hn hmatch1).elim
    · -- both sides match: the cursor of the one that popped more segments is kept
      have hmatch2 : ∃ c, e2.Matches cx c := ⟨c2, (matches_iff hp2).mpr rfl⟩
      have hstay : (e1.or e2).Unmoved cx → c1 = cx.cursor ∧ c2 = cx.cursor :=
        fun hu => ⟨hs1.stays (hu.1 hmatch1), hs2.stays (hu.2 (Or.inl hmatch2))⟩
      have hunmoved : (e1.or e2).PlainLeaves → c1 = cx.cursor → c2 = cx.cursor →
          (e1.or e2).Unmoved cx := fun hplain hc1 hc2 =>
        ⟨fun _ => hs1.unmoved hplain.1 hc1, fun _ => hs2.unmoved hplain.2 hc2⟩
      rcases Nat.lt_or_ge c1.popped c2.popped with hlt | hge
      · rw [OrAction.preflight_right hp1 hp2 fun _ _ => hlt] at h
        cases congrArg Traced.res h
        refine ⟨fun hu => (hstay hu).2, fun hplain hc => ?_⟩
        obtain ⟨hc1, hc2⟩ := ((m1 _ _ _ _ _ hp1).onward.eq_iff_both (by omega)).mp hc
        exact hunmoved hplain hc1 hc2
      · rw [OrAction.preflight_left hp1 hp2 fun _ _ => hge] at h
        cases congrArg Traced.res h
        refine ⟨fun hu => (hstay hu).1, fun hplain hc => ?_⟩
        obtain ⟨hc2, hc1⟩ := ((m2 _ _ _ _ _ hp2).onward.eq_iff_both hge).mp hc
        exact hunmoved hplain hc1 hc2

theorem standsAs_orStrict {e1 e2 : Endpoint ε Bd Env ts} (h1 : e1.StandsAs) (h2 : e2.StandsAs) :
    (e1.orStrict e2).StandsAs := by
  intro cx l r s c h
  replace h : (OrStrictAction.action e1.impl e2.impl).preflight cx (.init e1.spawn e2.spawn) =
    ⟨l, .ok (r, s, c)⟩ := h
  rcases hp1 : e1.impl.preflight cx e1.spawn with ⟨l1, q | ⟨err1 | x, s1, c1⟩⟩
  · rw [OrStrictAction.preflight_panic_left hp1] at h
    cases congrArg Traced.res h
  · have hnot : ¬ ∃ c, e1.Matches cx c := fun ⟨c', hm⟩ => not_matches_of_failed hp1 hm
    rcases hp2 : e2.impl.preflight cx e2.spawn with ⟨l2, q | ⟨r2, s2, c2⟩⟩
    · rw [OrStrictAction.preflight_panic_right hp1 hp2] at h
      cases congrArg Traced.res h
    have hs2 := h2 _ _ _ _ _ hp2
    have hc : c = c2 := by
      rcases r2 with err2 | y
      · rw [OrStrictAction.preflight_neither hp1 hp2] at h
        cases congrArg Traced.res h
        rfl
      · rw [OrStrictAction.preflight_right hp1 hp2] at h
        cases congrArg Traced.res h
        rfl
    subst hc
    exact ⟨fun hu => hs2.stays (hu.2 hnot),
      fun hplain hc => ⟨fun hm => (hnot hm).elim, fun _ => hs2.unmoved hplain.2 hc⟩⟩
  · have hmatch1 : ∃ c, e1.Matches cx c := ⟨c1, (matches_iff hp1).mpr rfl⟩
    have hs1 := h1 _ _ _ _ _ hp1
    rw [OrStrictAction.preflight_left hp1] at h
    cases congrArg Traced.res h
    exact ⟨fun hu => hs1.stays (hu.1 hmatch1),
      fun hplain hc => ⟨fun _ => hs1.unmoved hplain.1 hc, fun hn => (hn hmatch1).elim⟩⟩

/-- A combinator whose `preflight` ends with the cursor of its inner action. -/
theorem standsAs_inner {e : Endpoint ε Bd Env ts} {e' : Endpoint ε Bd Env us} (he : e.StandsAs)
    (hcursor : ∀ cx l r s c, e'.impl.preflight cx e'.spawn = ⟨l, .ok (r, s, c)⟩ →
      ∃ l r s, e.impl.preflight cx e.spawn = ⟨l, .ok (r, s, c)⟩)
    (hunmoved : ∀ cx, e'.Unmoved cx ↔ e.Unmoved cx) (hplain : e'.PlainLeaves → e.PlainLeaves) :
    e'.StandsAs := by
  intro cx l r s c h
  obtain ⟨l', r', s', h'⟩ := hcursor cx l r s c h
  have hs := he cx l' r' s' c h'
  exact ⟨fun hu => hs.stays ((hunmoved cx).mp hu),
    fun hp hc => (hunmoved cx).mpr (hs.unmoved (hplain hp) hc)⟩

/-- A leaf. -/
theorem MovesByOps.standsAs {e : Endpoint ε Bd Env ts} (he : e.MovesByOps)
    (hunmoved : ∀ cx, e.Unmoved cx ↔ e.IgnoresPath ∨ cx.cursor.pos = Utf8.len cx.path)
    (hplain : e.PlainLeaves → e.IgnoresPath ∨ e.ReadsPath) : e.StandsAs := by
  intro cx l r s c h
  have hreach : Cursor.Reaches cx.path cx.cursor c := he cx l r s c h
  refine ⟨fun hu => ?_, fun hp hc => (hunmoved cx).mpr ?_⟩
  · rcases (hunmoved cx).mp hu with hignores | hend
    · exact hignores cx l r s c h
    · exact (Cursor.stuck_of_end hend).reaches hreach
  · rcases hplain hp with hignores | hreads
    · exact Or.inl hignores
    · exact Or.inr ((hreads cx l r s c h).moves hc)

theorem standsAs (e : Endpoint ε Bd Env ts) (he : e.UsesCursor) : e.StandsAs := by
  induction e with
  | leaf σ a init => exact MovesByOps.standsAs he (fun _ => Iff.rfl) id
  | oneshot σ a init => exact MovesByOps.standsAs he (fun _ => Iff.rfl) id
  | future Fut f init =>
    intro cx l r s c h
    cases congrArg Traced.res h
    exact ⟨fun _ => rfl, fun _ _ => trivial⟩
  | and e1 e2 ih1 ih2 => exact standsAs_and he.1.movesByOps he.2.movesByOps (ih1 he.1) (ih2 he.2)
  | or e1 e2 ih1 ih2 => exact standsAs_or he.1.movesByOps he.2.movesByOps (ih1 he.1) (ih2 he.2)
  | orStrict e1 e2 ih1 ih2 => exact standsAs_orStrict (ih1 he.1) (ih2 he.2)
  | map e f ih =>
    refine standsAs_inner (ih he) (fun cx l r s c h => ?_) (fun _ => Iff.rfl) id
    obtain ⟨l1, r1, h1, -⟩ := MapAction.preflight_inv h
    exact ⟨l1, r1, s, h1⟩
  | mapErr e f ih =>
    refine standsAs_inner (ih he) (fun cx l r s c h => ?_) (fun _ => Iff.rfl) id
    obtain ⟨l1, r1, h1, -⟩ := MapErrAction.preflight_inv h
    exact ⟨l1, r1, s, h1⟩
  | andThen Fut e fut f ih =>
    refine standsAs_inner (ih he) (fun cx l r s c h => ?_) (fun _ => Iff.rfl) id
    obtain ⟨l1, r1, s1, h1, -⟩ := AndThenAction.preflight_inv h
    exact ⟨l1, r1, s1, h1⟩
  | recover Fut e fut f ih =>
    refine standsAs_inner (ih he) (fun cx l r s c h => ?_) (fun _ => Iff.rfl) id
    obtain ⟨l1, r1, s1, h1, -⟩ := RecoverAction.preflight_inv h
    exact ⟨l1, r1, s1, h1⟩
  | boxed e ih =>
    exact standsAs_inner (ih he) (fun _ _ _ _ _ h => ⟨_, _, _, h⟩) (fun _ => Iff.rfl) id

/-! ## Leaves -/

variable {σ : Type}

theorem IgnoresPath.movesByOps {e : Endpoint ε Bd Env ts} (h : e.IgnoresPath) : e.MovesByOps := by
  intro cx l r s c hp
  rw [h cx l r s c hp]
  exact .refl _ _

theorem ReadsPath.movesByOps {e : Endpoint ε Bd Env ts} (h : e.ReadsPath) : e.MovesByOps :=
  fun cx l r s c hp => (h cx l r s c hp).reaches

theorem PlainLeaves.usesCursor {e : Endpoint ε Bd Env ts} (h : e.PlainLeaves) : e.UsesCursor := by
  induction e with
  | leaf σ a init => exact h.elim IgnoresPath.movesByOps ReadsPath.movesByOps
  | oneshot σ a init => exact h.elim IgnoresPath.movesByOps ReadsPath.movesByOps
  | future Fut f init => trivial
  | and e1 e2 ih1 ih2 => exact ⟨ih1 h.1, ih2 h.2⟩
  | or e1 e2 ih1 ih2 => exact ⟨ih1 h.1, ih2 h.2⟩
  | orStrict e1 e2 ih1 ih2 => exact ⟨ih1 h.1, ih2 h.2⟩
  | map e f ih => exact ih h
  | mapErr e f ih => exact ih h
  | andThen Fut e fut f ih => exact ih h
  | recover Fut e fut f ih => exact ih h
  | boxed e ih => exact ih h

theorem ignoresPath_oneshot {a : OneshotAction ε σ ts} {init : σ}
    (h : ∀ cx r c, a.preflight init cx = .ok (r, c) → c = cx.cursor) :
    (Endpoint.oneshot σ a init : Endpoint ε Bd Env ts).IgnoresPath := by
  intro cx l r s c hp
  obtain ⟨out, ha, -⟩ := OneshotAction.preflight_inv hp
  exact h cx out c ha

theorem readsPath_oneshot {a : OneshotAction ε σ ts} {init : σ}
    (h : ∀ cx r c, a.preflight init cx = .ok (r, c) → Cursor.Reads cx.path cx.cursor c) :
    (Endpoint.oneshot σ a init : Endpoint ε Bd Env ts).ReadsPath := by
  intro cx l r s c hp
  obtain ⟨out, ha, -⟩ := OneshotAction.preflight_inv hp
  exact h cx out c ha

theorem ignoresPath_leaf {a : LeafAction ε Bd Env σ ts} {init : σ}
    (h : ∀ cx r s c, a.preflight cx init = .ok (r, s, c) → c = cx.cursor) :
    (Endpoint.leaf σ a init : Endpoint ε Bd Env ts).IgnoresPath := by
  intro cx l r s c hp
  exact h cx r s c (LeafAction.preflight_inv hp)

theorem readsPath_segment (m : MatchSegment) :
    (Endpoint.oneshot MatchSegment MatchSegmentAction m : Endpoint ε Bd Env []).ReadsPath := by
  refine readsPath_oneshot fun cx r c h => ?_
  rcases hn : Cursor.nextSegment cx.path cx.cursor with p | ⟨_ | raw, c'⟩
  · simp [MatchSegmentAction, hn, bind, Except.bind] at h
  · simp only [MatchSegmentAction, hn, bind, Except.bind] at h
    cases h
    exact Cursor.reads_nextSegment hn
  · rw [MatchSegmentAction.preflight_eq m hn] at h
    cases h
    exact Cursor.reads_nextSegment hn

theorem ignoresPath_verb (method : Method) :
    (Endpoint.oneshot Unit (MatchVerbAction method) () : Endpoint ε Bd Env []).IgnoresPath := by
  refine ignoresPath_oneshot fun cx r c h => ?_
  simp only [MatchVerbAction] at h
  split at h <;> cases h <;> rfl

end Endpoint

/-! ## `recover` -/

namespace Endpoint

/-- An endpoint that has been recovered consumes no segments: its `preflight` succeeds with the
cursor where it was; a component after it in an `and` sees the segments it would see alone; and in
an `or` it is not preferred to a sibling that matched segments, on either side. -/
structure ConsumesNothing {T : Type} (e : Endpoint ε Bd Env [T]) (cx : PreflightContext) : Prop where
  cursor : ∃ l s, e.preflight cx = ⟨l, .ok (.ok .incomplete, s, cx.cursor)⟩
  followed : ∃ l, ∀ (us : List Type) (e2 : Endpoint ε Bd Env us),
    ((e.and e2).preflight cx).log = l ++ (e2.preflight cx).log.map (Event.under .right)
  not_preferred : ∀ (U : Type) (e2 : Endpoint ε Bd Env [U]) (l2 : List Event)
    (y : Preflight (HList [U])) (s2 : e2.Action) (c2 : CursorInner),
    e2.preflight cx = ⟨l2, .ok (.ok y, s2, c2)⟩ → cx.cursor.popped < c2.popped →
      (∃ l, (e.or e2).preflight cx = ⟨l, .ok (.ok (y.map fun out => .single (.inr out.head)),
        OrState.next y (.right s2), c2)⟩) ∧
      (∃ l, (e2.or e).preflight cx = ⟨l, .ok (.ok (y.map fun out => .single (.inl out.head)),
        OrState.next y (.left s2), c2)⟩)

/-- Everything follows from the cursor. -/
theorem ConsumesNothing.of_cursor {T : Type} {e : Endpoint ε Bd Env [T]} {cx : PreflightContext}
    {l : List Event} {s : e.Action}
    (h : e.preflight cx = ⟨l, .ok (.ok .incomplete, s, cx.cursor)⟩) : e.ConsumesNothing cx where
  cursor := ⟨l, s, h⟩
  followed := by
    refine ⟨l.map (Event.under .left), fun us e2 => ?_⟩
    show ((AndAction.action e.impl e2.impl).preflight cx
      ⟨.init (some e.spawn), .init (some e2.spawn)⟩).log = _
    rcases h2 : e2.impl.preflight cx e2.spawn with ⟨l2, q | ⟨err | y, s2, c2⟩⟩
    · rw [AndAction.preflight_panic_right h h2, Endpoint.preflight, h2]
    · rw [AndAction.preflight_failed_right h h2, Endpoint.preflight, h2]
    · rw [AndAction.preflight_ok h h2, Endpoint.preflight, h2]
  not_preferred := by
    intro U e2 l2 y s2 c2 h2 hlt
    exact ⟨⟨_, OrAction.preflight_right h h2 fun _ _ => hlt⟩,
      ⟨_, OrAction.preflight_left h2 h fun _ _ => by omega⟩⟩

end Endpoint

/-- **When a recovered endpoint consumes nothing:** if no leaf that decided how it failed looks at
the path, or there was no segment left; and where each leaf either reads the path or ignores it, as
those of the library do, only then. -/
theorem recover_consumes_nothing_iff {T Fut : Type} (e : Endpoint ε Bd Env [T]) (he : e.UsesCursor)
    (fut : FutureAction ε Env Fut T) (f : Error ε → Fut) {cx : PreflightContext} {l : List Event}
    {err : Error ε} {s : e.Action} {c : CursorInner}
    (h : e.preflight cx = ⟨l, .ok (.error err, s, c)⟩) :
    (e.Unmoved cx → (e.recover Fut fut f).ConsumesNothing cx) ∧
      (e.PlainLeaves → ((e.recover Fut fut f).ConsumesNothing cx ↔ e.Unmoved cx)) := by
  have hstands : e.Stands cx c := e.standsAs he cx l _ s c h
  have hrecover : (e.recover Fut fut f).preflight cx =
      ⟨l.map (Event.under .inner) ++ [⟨[], .call⟩], .ok (.ok .incomplete, ⟨s, some (f err)⟩, c)⟩ :=
    RecoverAction.preflight_failed h
  have hsuffices : e.Unmoved cx → (e.recover Fut fut f).ConsumesNothing cx := by
    intro hu
    rw [hstands.stays hu] at hrecover
    exact .of_cursor hrecover
  refine ⟨hsuffices, fun hplain => ⟨?_, hsuffices⟩⟩
  rintro ⟨⟨l', s', hcursor⟩, -, -⟩
  rw [hrecover] at hcursor
  cases congrArg Traced.res hcursor
  exact hstands.unmoved hplain rfl

/-- The first `preflight` of `GET /a`. -/
def preflightA : PreflightContext := .new (.new 0 getA)

/-- `post().map(…)`, which does not look at the path, is recovered at `GET /a`. -/
theorem recover_consumes_nothing_post :
    ((Endpoint.map (Verb.post : Endpoint Empty Unit Unit []) fun _ => 1).recover Nat readyFuture
      fun _ => 0).ConsumesNothing preflightA := by
  have hfailed : ∃ l s, (Endpoint.map (Verb.post : Endpoint Empty Unit Unit []) fun _ => 1).preflight
      preflightA = ⟨l, .ok (.error (.methodNotAllowed "invalid method"), s, ⟨1, 0⟩)⟩ := ⟨_, _, rfl⟩
  obtain ⟨l, s, hfailed⟩ := hfailed
  have hignores : (Verb.post : Endpoint Empty Unit Unit []).IgnoresPath :=
    Endpoint.ignoresPath_verb .post
  have huses : (Endpoint.map (Verb.post : Endpoint Empty Unit Unit []) fun _ => 1).UsesCursor :=
    hignores.movesByOps
  exact ((recover_consumes_nothing_iff _ huses readyFuture _ hfailed).2
    (Or.inl hignores)).mpr (Or.inl hignores)

/-- `segment("b").map(…)`. -/
def segmentB : Endpoint Empty Unit Unit [Nat] :=
  .map (.oneshot MatchSegment MatchSegmentAction (segment "b".toList)) fun _ => 1

/-- At `GET /a` it fails, and when it has been recovered the segment `a` is gone. -/
theorem recover_consumes_segment :
    segmentB.Fails preflightA ∧
      (segmentB.recover Nat readyFuture fun _ => 0).Matches preflightA ⟨2, 1⟩ ∧
      ¬ (segmentB.recover Nat readyFuture fun _ => 0).ConsumesNothing preflightA := by
  have hnext : Cursor.nextSegment preflightA.path preflightA.cursor =
      .ok (some "a".toList, ⟨2, 1⟩) := rfl
  have hleaf : (MatchSegmentAction (ε := Empty)).preflight (segment "b".toList) preflightA =
      .ok (.error notMatched, ⟨2, 1⟩) := by
    rw [MatchSegmentAction.preflight_eq _ hnext, if_neg (by decide)]
  have hsegment : (MatchSegmentAction.action :
        EndpointAction Empty Unit Unit (Option MatchSegment) []).preflight preflightA
      (some (segment "b".toList)) =
      ⟨[⟨[], .preflight ⟨1, 0⟩ .err⟩], .ok (.error (notMatched : Error Empty), none, ⟨2, 1⟩)⟩ := by
    simp only [OneshotAction.action, hleaf]
    rfl
  have hfailed := MapAction.preflight_eq (f := fun _ => 1) hsegment
  obtain ⟨l, s, hrecover⟩ : ∃ l s,
      (segmentB.recover Nat readyFuture fun _ => 0).preflight preflightA =
        ⟨l, .ok (.ok .incomplete, s, ⟨2, 1⟩)⟩ :=
    ⟨_, _, RecoverAction.preflight_failed hfailed⟩
  refine ⟨⟨_, _, _, _, hfailed⟩, ⟨_, _, _, hrecover⟩, fun h => ?_⟩
  obtain ⟨l', s', hcursor⟩ := h.cursor
  cases congrArg Traced.res (hrecover.symm.trans hcursor)

end Finchers
