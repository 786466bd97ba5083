import Finchers.Service

/-!
# The cursor stays within the path

* `Cursor.At path a b inner` — the cursor stands after `a` and before `b`, on a character boundary;
* `nextSegment_end`, `nextSegment_slash`, `nextSegment_last` — what `next_segment` does there;
* `Cursor.step_at` — every operation of a cursor that stands in the path leaves it in the path;
* `runOps_ok_iff` — **from the cursor of a new `PreflightContext` no sequence of operations ever
  slices the path where it must not, iff the request target is not in authority form**.
-/

set_option autoImplicit false

namespace Finchers

namespace Cursor

/-- The cursor stands between the parts `a` and `b` of the path. -/
structure At (path a b : Str) (inner : CursorInner) : Prop where
  split : path = a ++ b
  pos : Utf8.len a = inner.pos

theorem At.pos_le {path a b : Str} {inner : CursorInner} (h : At path a b inner) :
    inner.pos ≤ Utf8.len path := by
  rw [h.split, Utf8.len_append, h.pos]
  omega

theorem At.pos_eq_iff {path a b : Str} {inner : CursorInner} (h : At path a b inner) :
    inner.pos = Utf8.len path ↔ b = [] := by
  rw [h.split, Utf8.len_append, h.pos, ← Utf8.len_eq_zero_iff]
  omega

theorem At.sliceFrom {path a b : Str} {inner : CursorInner} (h : At path a b inner) :
    Utf8.sliceFrom path inner.pos = some b := by
  rw [h.split, ← h.pos, Utf8.sliceFrom_append]

/-- A cursor that slices the path stands in it. -/
theorem at_of_sliceFrom {path b : Str} {inner : CursorInner}
    (h : Utf8.sliceFrom path inner.pos = some b) : ∃ a, At path a b inner := by
  obtain ⟨a, ha, hpos⟩ := Utf8.sliceFrom_eq_some_iff.mp h
  exact ⟨a, ha, hpos⟩

theorem nextSegment_end {path a : Str} {inner : CursorInner} (h : At path a [] inner) :
    nextSegment path inner = .ok (none, inner) := by
  rw [nextSegment, if_pos (h.pos_eq_iff.mpr rfl)]

theorem nextSegment_slash {path a s t : Str} {inner : CursorInner}
    (h : At path a (s ++ '/' :: t) inner) (hs : '/' ∉ s) :
    nextSegment path inner =
      .ok (some s, ⟨inner.pos + (Utf8.len s + 1), inner.popped + 1⟩) := by
  have hne : ¬ inner.pos = Utf8.len path := fun he => by
    have := h.pos_eq_iff.mp he
    simp at this
  have hslice : Utf8.slice path inner.pos (inner.pos + Utf8.len s) = some s := by
    rw [h.split, ← h.pos, Utf8.slice_append]
  rw [nextSegment, if_neg hne, h.sliceFrom]
  simp only [index, Utf8.find_eq_some_iff.mpr ⟨s, t, rfl, hs, rfl⟩, bind, Except.bind, hslice]
  rfl

theorem nextSegment_last {path a b : Str} {inner : CursorInner} (h : At path a b inner)
    (hne : b ≠ []) (hb : '/' ∉ b) :
    nextSegment path inner = .ok (some b, ⟨Utf8.len path, inner.popped + 1⟩) := by
  have hpos : ¬ inner.pos = Utf8.len path := fun he => hne (h.pos_eq_iff.mp he)
  rw [nextSegment, if_neg hpos, h.sliceFrom]
  simp only [index, Utf8.find_eq_none_iff.mpr hb, bind, Except.bind]
  rfl

theorem At.slash {path a s t : Str} {inner : CursorInner} (h : At path a (s ++ '/' :: t) inner)
    (popped : Nat) :
    At path (a ++ (s ++ ['/'])) t ⟨inner.pos + (Utf8.len s + 1), popped⟩ := by
  refine ⟨by rw [h.split]; simp, ?_⟩
  have hslash : ('/' : Char).utf8Size = 1 := by decide
  simp [h.pos, hslash]

theorem At.end {path a b : Str} {inner : CursorInner} (h : At path a b inner) (popped : Nat) :
    At path (a ++ b) [] ⟨Utf8.len path, popped⟩ :=
  ⟨by rw [h.split, List.append_nil], by rw [h.split]⟩

/-- What `next_segment` does to a cursor that stands in the path: it stays where it is at the
end, and otherwise advances by a segment. -/
theorem nextSegment_at {path a b : Str} {inner : CursorInner} (h : At path a b inner) :
    (b = [] ∧ nextSegment path inner = .ok (none, inner)) ∨
    ∃ s a' b' inner', nextSegment path inner = .ok (some s, inner') ∧ At path a' b' inner' ∧
      inner.pos < inner'.pos := by
  rcases hf : Utf8.find '/' b with _ | n
  · by_cases hb : b = []
    · subst hb
      exact Or.inl ⟨rfl, nextSegment_end h⟩
    · have hlast := nextSegment_last h hb (Utf8.find_eq_none_iff.mp hf)
      refine Or.inr ⟨b, _, _, _, hlast, h.end _, ?_⟩
      have hne : ¬ inner.pos = Utf8.len path := fun he => hb (h.pos_eq_iff.mp he)
      have := h.pos_le
      show inner.pos < Utf8.len path
      omega
  · obtain ⟨s, t, rfl, hs, -⟩ := Utf8.find_eq_some_iff.mp hf
    refine Or.inr ⟨s, _, _, _, nextSegment_slash h hs, h.slash _, ?_⟩
    show inner.pos < inner.pos + (Utf8.len s + 1)
    omega

/-- After a segment the cursor stands further on in the path. -/
theorem At.next {path a b s : Str} {inner inner' : CursorInner} (h : At path a b inner)
    (hn : nextSegment path inner = .ok (some s, inner')) : ∃ a' b', At path a' b' inner' := by
  rcases nextSegment_at h with ⟨-, hnone⟩ | ⟨s', a', b', next, hnext, hat, -⟩
  · rw [hnone] at hn
    cases hn
  · rw [hnext] at hn
    cases hn
    exact ⟨a', b', hat⟩

/-- A segment is only yielded by a cursor that stands in the path. -/
theorem at_of_nextSegment {path s : Str} {inner inner' : CursorInner}
    (h : nextSegment path inner = .ok (some s, inner')) : ∃ a b, At path a b inner := by
  unfold nextSegment at h
  split at h
  · cases h
  · cases hb : Utf8.sliceFrom path inner.pos with
    | none => rw [hb] at h; cases h
    | some b =>
      obtain ⟨a, ha⟩ := at_of_sliceFrom hb
      exact ⟨a, b, ha⟩

/-- A segment has no slash in it. -/
theorem not_mem_of_nextSegment {path s : Str} {inner inner' : CursorInner}
    (h : nextSegment path inner = .ok (some s, inner')) : '/' ∉ s := by
  obtain ⟨a, b, hat⟩ := at_of_nextSegment h
  rcases hf : Utf8.find '/' b with _ | n
  · have hb := Utf8.find_eq_none_iff.mp hf
    by_cases hne : b = []
    · subst hne
      rw [nextSegment_end hat] at h
      cases h
    · rw [nextSegment_last hat hne hb] at h
      cases h
      exact hb
  · obtain ⟨s', t, rfl, hs, -⟩ := Utf8.find_eq_some_iff.mp hf
    rw [nextSegment_slash hat hs] at h
    cases h
    exact hs

theorem nextSegment_pos {path s : Str} {inner inner' : CursorInner}
    (h : nextSegment path inner = .ok (some s, inner')) :
    inner.pos < inner'.pos ∧ inner'.pos ≤ Utf8.len path := by
  obtain ⟨a, b, hat⟩ := at_of_nextSegment h
  rcases nextSegment_at hat with ⟨-, hn⟩ | ⟨s', a', b', inner₁, hn, hat', hlt⟩
  · rw [hn] at h; cases h
  · rw [hn] at h; cases h
    exact ⟨hlt, hat'.pos_le⟩

/-- `Iterator::count`: pop the segments that are left. -/
def count (path : Str) (inner : CursorInner) : Except ActionPanic (Nat × CursorInner) :=
  match _h : nextSegment path inner with
  | .error p => .error p
  | .ok (none, inner') => .ok (0, inner')
  | .ok (some _, inner') => do
    let (n, inner'') ← count path inner'
    return (n + 1, inner'')
termination_by Utf8.len path - inner.pos
decreasing_by
  have := nextSegment_pos _h
  omega

theorem count_at {path a b : Str} {inner : CursorInner} (h : At path a b inner) :
    ∃ n inner', count path inner = .ok (n, inner') ∧ At path path [] inner' := by
  induction hm : Utf8.len path - inner.pos using Nat.strongRecOn generalizing a b inner with
  | ind m ih =>
    rcases nextSegment_at h with ⟨rfl, hn⟩ | ⟨s, a', b', inner', hn, hat, hlt⟩
    · refine ⟨0, inner, ?_, ?_⟩
      · rw [count, hn]
      · have hsplit := h.split
        rw [List.append_nil] at hsplit
        exact ⟨by rw [List.append_nil], by rw [hsplit]; exact h.pos⟩
    · have hle := hat.pos_le
      obtain ⟨n, inner'', hc, hend⟩ := ih _ (by omega) hat rfl
      refine ⟨n + 1, inner'', ?_, hend⟩
      rw [count, hn]
      simp only [hc]
      rfl

theorem count_end {path a : Str} {inner : CursorInner} (h : At path a [] inner) :
    count path inner = .ok (0, inner) := by
  rw [count, nextSegment_end h]

end Cursor

/-! ## Sequences of operations -/

/-- What endpoints do with the cursor of their context.  `or` and `or_strict` clone the context
and put a clone back; `restore n` puts the cursor back to where it was after `n` operations. -/
inductive CursorOp where
  | nextSegment
  | count
  | remainingPath
  | restore (n : Nat)
  deriving DecidableEq, Repr

namespace Cursor

/-- One operation; `past` are the earlier positions. -/
def step (path : Str) (past : List CursorInner) (inner : CursorInner) :
    CursorOp → Except ActionPanic CursorInner
  | .nextSegment => (nextSegment path inner).map (·.2)
  | .count => (count path inner).map (·.2)
  | .remainingPath => (remainingPath path inner).map (fun _ => inner)
  | .restore n => .ok (past[n]?.getD inner)

def runOps (path : Str) : List CursorOp → List CursorInner → CursorInner →
    Except ActionPanic CursorInner
  | [], _, inner => .ok inner
  | op :: ops, past, inner =>
    match step path past inner op with
    | .ok inner' => runOps path ops (past ++ [inner]) inner'
    | .error p => .error p

/-- The cursor stands somewhere in the path. -/
def Within (path : Str) (inner : CursorInner) : Prop := ∃ a b, At path a b inner

/-- **No operation panics or leaves the path.** -/
theorem step_at {path : Str} {past : List CursorInner} {inner : CursorInner}
    (hpast : ∀ c ∈ past, Within path c) (h : Within path inner) (op : CursorOp) :
    ∃ inner', step path past inner op = .ok inner' ∧ Within path inner' := by
  obtain ⟨a, b, hat⟩ := h
  cases op with
  | nextSegment =>
    rcases nextSegment_at hat with ⟨-, hn⟩ | ⟨s, a', b', inner', hn, hat', -⟩
    · exact ⟨inner, by rw [step, hn]; rfl, a, b, hat⟩
    · exact ⟨inner', by rw [step, hn]; rfl, a', b', hat'⟩
  | count =>
    obtain ⟨n, inner', hc, hat'⟩ := count_at hat
    exact ⟨inner', by rw [step, hc]; rfl, path, [], hat'⟩
  | remainingPath =>
    exact ⟨inner, by rw [step, remainingPath, hat.sliceFrom]; rfl, a, b, hat⟩
  | restore n =>
    refine ⟨past[n]?.getD inner, rfl, ?_⟩
    cases hn : past[n]? with
    | none => exact ⟨a, b, hat⟩
    | some c => exact hpast c (List.mem_of_getElem? hn)

theorem runOps_at {path : Str} (ops : List CursorOp) {past : List CursorInner}
    {inner : CursorInner} (hpast : ∀ c ∈ past, Within path c) (h : Within path inner) :
    ∃ inner', runOps path ops past inner = .ok inner' ∧ Within path inner' := by
  induction ops generalizing past inner with
  | nil => exact ⟨inner, rfl, h⟩
  | cons op ops ih =>
    obtain ⟨inner₁, hstep, h₁⟩ := step_at hpast h op
    have hpast' : ∀ c ∈ past ++ [inner], Within path c := by
      intro c hc
      rcases List.mem_append.mp hc with hc | hc
      · exact hpast c hc
      · rw [List.mem_singleton.mp hc]; exact h
    obtain ⟨inner₂, hrun, h₂⟩ := ih hpast' h₁
    exact ⟨inner₂, by rw [runOps, hstep]; exact hrun, h₂⟩

/-- Position 1 is in the path of every target that has one: it is after the leading slash, or
after the asterisk. -/
theorem within_start {uri : Uri} (h : uri.isAuthorityForm = false) (popped : Nat) :
    Within uri.path ⟨1, popped⟩ := by
  have hroot : ∀ path : Str, path.head? = some '/' → Within path ⟨1, popped⟩ := by
    intro path hp
    obtain ⟨rest, rfl⟩ := List.head?_eq_some_iff.mp hp
    exact ⟨['/'], rest, rfl, rfl⟩
  cases uri with
  | origin pq => exact hroot _ pq.rooted
  | absolute s a pq => exact hroot _ pq.rooted
  | asterisk => exact ⟨['*'], [], rfl, rfl⟩
  | authority a => cases h

/-- Without a path, the start position is out of bounds, and every operation that looks at the
path panics. -/
theorem runOps_nil_path (ops : List CursorOp) (past : List CursorInner) (popped : Nat)
    (hpast : ∀ c ∈ past, c = ⟨1, popped⟩) :
    runOps [] ops past ⟨1, popped⟩ = .ok ⟨1, popped⟩ ∨
      runOps [] ops past ⟨1, popped⟩ = .error .slice := by
  induction ops generalizing past with
  | nil => exact Or.inl rfl
  | cons op ops ih =>
    cases op with
    | nextSegment => exact Or.inr rfl
    | count =>
      refine Or.inr ?_
      have hc : count [] ⟨1, popped⟩ = .error .slice := by
        rw [count]
        rfl
      rw [runOps, step, hc]
      rfl
    | remainingPath => exact Or.inr rfl
    | restore n =>
      have hr : past[n]?.getD ⟨1, popped⟩ = ⟨1, popped⟩ := by
        cases hn : past[n]? with
        | none => rfl
        | some c => exact hpast c (List.mem_of_getElem? hn)
      rw [runOps, step, hr]
      refine ih _ ?_
      intro c hc
      rcases List.mem_append.mp hc with hc | hc
      · exact hpast c hc
      · exact List.mem_singleton.mp hc

/-- **Path matching cannot panic, iff the request target is not in authority form.**  In every
other form, whatever the endpoints do with the cursor of the context that `AppFuture` creates,
every slice of the path is in bounds and on a character boundary. -/
theorem runOps_ok_iff (addr : Nat) (request : Request) (ops : List CursorOp) :
    (∃ inner, runOps request.uri.path ops []
        (PreflightContext.new (Context.new addr request)).cursor = .ok inner ∧
      inner.pos ≤ Utf8.len request.uri.path) ↔ request.uri.isAuthorityForm = false := by
  refine ⟨fun h => ?_, fun h => ?_⟩
  · obtain ⟨inner, hrun, hle⟩ := h
    by_contra hauth
    have hnil := request.uri.path_eq_nil_iff.mpr ((Bool.not_eq_false _).mp hauth)
    rw [hnil] at hrun hle
    rcases runOps_nil_path ops [] 0 (fun c hc => absurd hc List.not_mem_nil) with hok | herr
    · rw [show (PreflightContext.new (Context.new addr request)).cursor = ⟨1, 0⟩ from rfl, hok] at hrun
      cases hrun
      exact absurd hle (by decide)
    · rw [show (PreflightContext.new (Context.new addr request)).cursor = ⟨1, 0⟩ from rfl, herr] at hrun
      cases hrun
  · obtain ⟨inner, hrun, a, b, hat⟩ := runOps_at ops
      (fun c hc => absurd hc List.not_mem_nil) (within_start h 0)
    exact ⟨inner, hrun, hat.pos_le⟩

/-- `CONNECT example.com:443`: the first look at the path panics. -/
theorem nextSegment_connect_panics :
    runOps (Uri.authority "example.com:443".toList).path [.nextSegment] []
      (PreflightContext.new (Context.new 0
        ⟨.connect, .authority "example.com:443".toList, []⟩)).cursor = .error .slice := rfl

end Cursor

end Finchers
