import Finchers.Cursor
import Mathlib.Data.List.ReduceOption

/-!
# The segments of a path

* `segments` — the pieces of a path between slashes, without an empty last piece;
* `Walk` — what calls of `next_segment` have yielded, the text they took off the path, and the
  cursor they left;
* `Walk.Inv` — what was yielded and what is left make up the segments, what was taken and what is
  left make up the path;
* `walk_spec` — **any number of calls from a new `PreflightContext` keep the invariant**.
-/

set_option autoImplicit false

namespace Finchers

/-! ## Pieces between slashes -/

/-- The pieces of a path, split at its slashes, without the last piece when that is empty. -/
def segments (s : Str) : List Str :=
  let pieces := s.splitOn '/'
  if pieces.getLast? = some [] then pieces.dropLast else pieces

@[simp] theorem segments_nil : segments [] = [] := rfl

/-- The segment before the first slash, and the segments after it. -/
theorem segments_slash {s : Str} (hs : '/' ∉ s) (t : Str) :
    segments (s ++ '/' :: t) = s :: segments t := by
  have hsplit : (s ++ '/' :: t).splitOn '/' = s :: t.splitOn '/' :=
    List.splitOn_append_cons_self_of_not_mem hs t
  obtain ⟨p, ps, hp⟩ := List.exists_cons_of_ne_nil (List.splitOn_ne_nil '/' t)
  simp only [segments, hsplit, hp, List.getLast?_cons_cons, List.dropLast_cons_cons]
  split <;> rfl

/-- Without a slash there is one segment, unless the text is empty. -/
theorem segments_last {s : Str} (hs : '/' ∉ s) (hne : s ≠ []) : segments s = [s] := by
  have hsplit : s.splitOn '/' = [s] := List.splitOn_eq_singleton hs
  simp [segments, hsplit, hne]

/-! ## Calls of `next_segment` -/

namespace Cursor

/-- The text that a call yielding `s` takes off the path: the segment, and the slash after it
if the cursor steps over one. -/
def taken (inner inner' : CursorInner) (s : Str) : Str :=
  if inner'.pos = inner.pos + Utf8.len s then s else s ++ ['/']

end Cursor

/-- The answers of the calls so far, the text they took, and the cursor. -/
structure Walk where
  answers : List (Option Str)
  text : Str
  inner : CursorInner

namespace Walk

/-- One more call of `next_segment`. -/
def next (path : Str) (w : Walk) : Except ActionPanic Walk := do
  let (answer, inner') ← Cursor.nextSegment path w.inner
  let text := match answer with
    | some s => Cursor.taken w.inner inner' s
    | none => []
  return ⟨w.answers ++ [answer], w.text ++ text, inner'⟩

/-- `n` more calls. -/
def walk (path : Str) : Nat → Walk → Except ActionPanic Walk
  | 0, w => .ok w
  | n + 1, w =>
    match w.next path with
    | .ok w' => walk path n w'
    | .error p => .error p

/-- No call yet. -/
def start (inner : CursorInner) : Walk := ⟨[], [], inner⟩

/-- What has been yielded. -/
def yielded (w : Walk) : List Str := w.answers.reduceOption

/-- The calls yielded the first segments of `whole` and then answered `None` `idle` times;
`rest` is the text after the cursor. -/
structure Inv (path whole : Str) (w : Walk) (rest : Str) (idle : Nat) : Prop where
  stands : Cursor.At path ('/' :: w.text) rest w.inner
  spelled : w.text ++ rest = whole
  yields : segments whole = w.yielded ++ segments rest
  popped : w.inner.popped = w.yielded.length
  silent : w.answers = w.yielded.map some ++ List.replicate idle none
  ends : idle ≠ 0 → rest = []
  plain : ∀ s ∈ w.yielded, '/' ∉ s

theorem Inv.length_eq {path whole rest : Str} {w : Walk} {idle : Nat}
    (h : w.Inv path whole rest idle) : w.answers.length = w.yielded.length + idle := by
  have := congrArg List.length h.silent
  simpa only [List.length_append, List.length_map, List.length_replicate] using this

@[simp] theorem yielded_append_some (answers : List (Option Str)) (text : Str) (s : Str)
    (inner : CursorInner) :
    yielded ⟨answers ++ [some s], text, inner⟩ = answers.reduceOption ++ [s] := by
  simp [yielded, List.reduceOption_append]

@[simp] theorem yielded_append_none (answers : List (Option Str)) (text : Str)
    (inner : CursorInner) :
    yielded ⟨answers ++ [none], text, inner⟩ = answers.reduceOption := by
  simp [yielded, List.reduceOption_append]

/-- At the end of the path a call answers `None` and changes nothing else. -/
theorem next_end {path whole : Str} {w : Walk} {idle : Nat} (h : w.Inv path whole [] idle) :
    ∃ w', w.next path = .ok w' ∧ w'.Inv path whole [] (idle + 1) ∧
      w'.answers = w.answers ++ [none] := by
  refine ⟨⟨w.answers ++ [none], w.text ++ [], w.inner⟩, ?_, ?_, rfl⟩
  · rw [next, Cursor.nextSegment_end h.stands]
    rfl
  · refine ⟨?_, ?_, ?_, ?_, ?_, fun _ => rfl, ?_⟩
    · simpa using h.stands
    · simpa using h.spelled
    · rw [yielded_append_none]
      exact h.yields
    · rw [yielded_append_none]
      exact h.popped
    · rw [yielded_append_none, List.replicate_succ', ← List.append_assoc]
      exact congrArg (· ++ [none]) h.silent
    · rw [yielded_append_none]
      exact h.plain

/-- A call that yields: the next segment is taken off what is left. -/
theorem next_yields {path whole s rest rest' : Str} {w : Walk} {idle : Nat}
    {inner' : CursorInner} (h : w.Inv path whole rest idle) (hne : rest ≠ [])
    (hstep : Cursor.nextSegment path w.inner = .ok (some s, inner'))
    (hat : Cursor.At path ('/' :: (w.text ++ Cursor.taken w.inner inner' s)) rest' inner')
    (hspell : Cursor.taken w.inner inner' s ++ rest' = rest)
    (hseg : segments rest = s :: segments rest') (hs : '/' ∉ s)
    (hpop : inner'.popped = w.inner.popped + 1) :
    ∃ w', w.next path = .ok w' ∧ w'.Inv path whole rest' 0 ∧
      w'.answers = w.answers ++ [some s] := by
  have hidle : idle = 0 := by
    by_contra hidle
    exact hne (h.ends hidle)
  refine ⟨⟨w.answers ++ [some s], w.text ++ Cursor.taken w.inner inner' s, inner'⟩, ?_, ?_, rfl⟩
  · rw [next, hstep]
    rfl
  · refine ⟨hat, ?_, ?_, ?_, ?_, fun hz => absurd rfl hz, ?_⟩
    · rw [List.append_assoc, hspell]
      exact h.spelled
    · rw [yielded_append_some, List.append_assoc, List.singleton_append, ← hseg]
      exact h.yields
    · rw [yielded_append_some, List.length_append, List.length_singleton, hpop, h.popped]
      rfl
    · have hsilent := h.silent
      rw [hidle, List.replicate_zero, List.append_nil] at hsilent
      rw [yielded_append_some, List.map_append, List.replicate_zero, List.append_nil]
      exact congrArg (· ++ [some s]) hsilent
    · rw [yielded_append_some]
      intro x hx
      rcases List.mem_append.mp hx with hx | hx
      · exact h.plain x hx
      · rw [List.mem_singleton.mp hx]
        exact hs

/-- What one call does to a walk. -/
theorem next_inv {path whole rest : Str} {w : Walk} {idle : Nat}
    (h : w.Inv path whole rest idle) :
    ∃ w' rest' idle', w.next path = .ok w' ∧ w'.Inv path whole rest' idle' ∧
      w'.answers.length = w.answers.length + 1 := by
  have hlen : ∀ {w' : Walk} {a : Option Str}, w'.answers = w.answers ++ [a] →
      w'.answers.length = w.answers.length + 1 := by
    intro w' a ha
    rw [ha, List.length_append, List.length_singleton]
  rcases hf : Utf8.find '/' rest with _ | n
  · have hslash := Utf8.find_eq_none_iff.mp hf
    by_cases hne : rest = []
    · subst hne
      obtain ⟨w', hn, hinv, ha⟩ := next_end h
      exact ⟨w', [], idle + 1, hn, hinv, hlen ha⟩
    · -- the last segment: no slash after it
      have hstep := Cursor.nextSegment_last h.stands hne hslash
      have htaken : Cursor.taken w.inner ⟨Utf8.len path, w.inner.popped + 1⟩ rest = rest := by
        refine if_pos ?_
        show Utf8.len path = _
        rw [h.stands.split, Utf8.len_append, h.stands.pos]
      obtain ⟨w', hn, hinv, ha⟩ := next_yields h hne hstep
        (by rw [htaken]; exact h.stands.end _) (by rw [htaken, List.append_nil])
        ((segments_last hslash hne).trans (by rw [segments_nil])) hslash rfl
      exact ⟨w', [], 0, hn, hinv, hlen ha⟩
  · obtain ⟨s, t, rfl, hs, -⟩ := Utf8.find_eq_some_iff.mp hf
    have hstep := Cursor.nextSegment_slash h.stands hs
    have htaken : Cursor.taken w.inner
        ⟨w.inner.pos + (Utf8.len s + 1), w.inner.popped + 1⟩ s = s ++ ['/'] := by
      refine if_neg ?_
      show ¬ w.inner.pos + (Utf8.len s + 1) = w.inner.pos + Utf8.len s
      omega
    obtain ⟨w', hn, hinv, ha⟩ := next_yields h (by simp) hstep
      (by rw [htaken]; exact h.stands.slash _) (by rw [htaken]; simp)
      (segments_slash hs t) hs rfl
    exact ⟨w', t, 0, hn, hinv, hlen ha⟩

theorem walk_inv {path whole : Str} (n : Nat) {rest : Str} {w : Walk} {idle : Nat}
    (h : w.Inv path whole rest idle) :
    ∃ w' rest' idle', walk path n w = .ok w' ∧ w'.Inv path whole rest' idle' ∧
      w'.answers.length = w.answers.length + n := by
  induction n generalizing w rest idle with
  | zero => exact ⟨w, rest, idle, rfl, h, rfl⟩
  | succ n ih =>
    obtain ⟨w₁, rest₁, idle₁, hn, hinv, hlen⟩ := next_inv h
    obtain ⟨w₂, rest₂, idle₂, hw, hinv₂, hlen₂⟩ := ih hinv
    refine ⟨w₂, rest₂, idle₂, ?_, hinv₂, by omega⟩
    rw [walk, hn]
    exact hw

theorem start_inv (whole : Str) : (start ⟨1, 0⟩).Inv ('/' :: whole) whole whole 0 :=
  ⟨⟨rfl, rfl⟩, rfl, rfl, rfl, rfl, fun hz => absurd rfl hz, by simp [yielded, start]⟩

/-- The answers of a walk are the segments, as far as it went, and then `None`. -/
theorem Inv.answers_eq {path whole rest : Str} {w : Walk} {idle : Nat}
    (h : w.Inv path whole rest idle) :
    w.answers = ((segments whole).take w.answers.length).map some ++
      List.replicate (w.answers.length - (segments whole).length) none := by
  have hlen := h.length_eq
  by_cases hidle : idle = 0
  · have htake : (segments whole).take w.answers.length = w.yielded := by
      rw [h.yields, hlen, hidle, Nat.add_zero, List.take_left]
    have hzero : w.answers.length - (segments whole).length = idle := by
      rw [h.yields, List.length_append]
      omega
    rw [htake, hzero]
    exact h.silent
  · have hseg : segments whole = w.yielded := by
      rw [h.yields, h.ends hidle, segments_nil, List.append_nil]
    have hmore : w.answers.length - w.yielded.length = idle := by omega
    rw [hseg, List.take_of_length_le (by omega), hmore]
    exact h.silent

/-- `next_segment` answers `None` iff nothing of the path remains. -/
theorem Inv.rest_eq_nil_iff {path whole rest : Str} {w : Walk} {idle : Nat}
    (h : w.Inv path whole rest idle) :
    rest = [] ↔ ∃ inner', Cursor.nextSegment path w.inner = .ok (none, inner') := by
  constructor
  · rintro rfl
    exact ⟨w.inner, Cursor.nextSegment_end h.stands⟩
  · rintro ⟨inner', hn⟩
    rcases Cursor.nextSegment_at h.stands with ⟨rfl, -⟩ | ⟨s, a', b', inner₁, hs, -, -⟩
    · rfl
    · rw [hs] at hn
      cases hn

/-- **`next_segment` yields the segments of the path in order, and then `None` for ever.**  After
any number of calls from the cursor of a new `PreflightContext`, the counter is the number of
segments yielded, no segment has a slash in it, and what was taken off the path followed by
`remaining_path` is the path after its leading slash. -/
theorem walk_spec (addr : Nat) (request : Request) (hroot : request.uri.path.head? = some '/')
    (n : Nat) :
    ∃ w, walk request.uri.path n (start (PreflightContext.new (Context.new addr request)).cursor)
        = .ok w ∧
      w.answers = ((segments request.uri.path.tail).take n).map some ++
        List.replicate (n - (segments request.uri.path.tail).length) none ∧
      w.inner.popped = w.yielded.length ∧
      (∀ s ∈ w.yielded, '/' ∉ s) ∧
      ∃ rest, Cursor.remainingPath request.uri.path w.inner = .ok rest ∧
        w.text ++ rest = request.uri.path.tail ∧
        (rest = [] ↔ ∃ inner', Cursor.nextSegment request.uri.path w.inner = .ok (none, inner')) := by
  obtain ⟨whole, hpath⟩ := List.head?_eq_some_iff.mp hroot
  rw [hpath, List.tail_cons]
  obtain ⟨w, rest, idle, hw, hinv, hlen⟩ := walk_inv n (start_inv whole)
  have hn : w.answers.length = n := by
    rw [hlen]
    show 0 + n = n
    omega
  refine ⟨w, hw, ?_, hinv.popped, hinv.plain, rest, ?_, hinv.spelled, hinv.rest_eq_nil_iff⟩
  · rw [← hn]
    exact hinv.answers_eq
  · rw [Cursor.remainingPath, hinv.stands.sliceFrom]
    rfl

/-- `/foo//bar/`: an empty segment inside is yielded, an empty last one is not. -/
theorem walk_spec_inner_slashes :
    ∃ w, walk "/foo//bar/".toList 5 (start ⟨1, 0⟩) = .ok w ∧
      w.answers = [some "foo".toList, some [], some "bar".toList, none, none] := by
  let request : Request := ⟨.get, .origin ⟨"/foo//bar/".toList, none, rfl⟩, []⟩
  obtain ⟨w, hw, ha, -⟩ := walk_spec 0 request rfl 5
  exact ⟨w, hw, ha.trans (by decide)⟩

end Walk

end Finchers
