import Finchers.Endpoints.Fs

/-!
# Which file a `dir` endpoint opens

The decoded rest of the request path is joined to the root as it is: a rest that begins with a slash
replaces the root, and `..` leads out of it.

* `requested` — the decoded rest of the request path, if there is one;
* `opens_iff` — `preflight` opens exactly the requested file, or `index.html` in it;
* `StaysWithin` — the requested components do not lead out of the root, or lead back into it;
* `dir_within_iff` — **`dir` opens nothing outside its root iff the requested components stay there**.
-/

set_option autoImplicit false

namespace Finchers

open UnixPath

namespace DirAction

/-- `preflight` of a new action for `root` passes `path` to `NamedFile::open`. -/
def Opens (ε Io : Type) (isDir : Str → Bool) (root : Str) (cx : PreflightContext) (path : Str) :
    Prop :=
  ∃ (r : Except (Error ε) (Preflight (HList [NamedFile Io]))) (s : DirAction) (c : CursorInner),
    preflight isDir cx (.new root) = .ok (r, s, c) ∧ s.state = .opening (NamedFile.open path)

/-- The decoded rest of the request path. -/
def requested (cx : PreflightContext) : Option Str :=
  match Cursor.remainingPath cx.path cx.cursor with
  | .ok remaining => (EncodedStr.percentDecode remaining).toOption
  | .error _ => none

/-- The components that are followed from the root: those of the requested path, and the name of
the index if that is a directory. -/
def followed (isDir : Str → Bool) (root text : Str) : List Name :=
  components text ++ (if isDir (join root text) then ["index.html".toList] else [])

/-- An absolute path leads to the root or below it if the root is the start of its names; another
one, if it comes back down along the names of the root that it went up. -/
def StaysWithin (root : Location) (absolute : Bool) (cs : List Name) : Prop :=
  if absolute then root.absolute = true ∧ root.names <+: (relative cs).names
  else (root.absolute = true ∨ (relative cs).ups ≤ root.names.length) ∧
    root.names.drop (root.names.length - (relative cs).ups) <+: (relative cs).names

instance (root : Location) (absolute : Bool) (cs : List Name) :
    Decidable (StaysWithin root absolute cs) :=
  inferInstanceAs (Decidable (if absolute then _ else _))

/-- The file for a requested path. -/
def target (isDir : Str → Bool) (root text : Str) : Str :=
  if isDir (join root text) then join (join root text) "index.html".toList else join root text

/-- `preflight` opens exactly the file for the requested path. -/
theorem opens_iff {ε Io : Type} (isDir : Str → Bool) (root : Str) (cx : PreflightContext)
    (path : Str) :
    Opens ε Io isDir root cx path ↔ ∃ text, requested cx = some text ∧
      path = target isDir root text := by
  unfold Opens requested preflight
  rcases hrem : Cursor.remainingPath cx.path cx.cursor with p | remaining
  · simp [bind, Except.bind]
  · have hslice : Utf8.sliceFrom cx.path cx.cursor.pos = some remaining := by
      unfold Cursor.remainingPath Cursor.index at hrem
      split at hrem
      · cases hrem
        assumption
      · cases hrem
    obtain ⟨a, hat⟩ := Cursor.at_of_sliceFrom hslice
    obtain ⟨n, inner', hcount, -⟩ := Cursor.count_at hat
    simp only [bind, Except.bind, hcount]
    rcases EncodedStr.percentDecode remaining with err | text
    · refine ⟨fun h => ?_, fun h => ?_⟩
      · obtain ⟨r, s, c, h, hs⟩ := h
        cases h
        cases hs
      · obtain ⟨text, h, -⟩ := h
        cases h
    · refine ⟨fun h => ?_, fun h => ?_⟩
      · obtain ⟨r, s, c, h, hs⟩ := h
        cases h
        refine ⟨text, rfl, ?_⟩
        have hopen := DirState.opening.inj hs
        exact (Option.some.inj (congrArg OpenNamedFile.path hopen)).symm
      · obtain ⟨_, h, rfl⟩ := h
        cases h
        exact ⟨_, _, _, rfl, rfl⟩

theorem isAbsolute_index : isAbsolute "index.html".toList = false := rfl

theorem resolve_target {isDir : Str → Bool} {root text : Str} (l : Location)
    (h : resolve (join root text) = l.walk (components text)) :
    resolve (target isDir root text) = l.walk (followed isDir root text) := by
  unfold target followed
  split
  · rw [resolve_join _ _ isAbsolute_index, h, Location.walk_append]
    rfl
  · rw [h, List.append_nil]

/-- The file for a requested path lies in the root iff the components that lead to it stay there. -/
theorem target_within_iff (isDir : Str → Bool) (root text : Str) :
    (resolve (target isDir root text)).Within (resolve root) ↔
      StaysWithin (resolve root) (isAbsolute text) (followed isDir root text) := by
  unfold StaysWithin
  by_cases habs : isAbsolute text = true
  · have hjoin : resolve (join root text) = Location.walk ⟨true, 0, []⟩ (components text) := by
      rw [join_absolute _ _ habs, resolve, habs]
    rw [resolve_target _ hjoin, Location.walk_eq, habs, if_pos rfl]
    simp only [Location.climb, Location.down, List.take_nil, List.nil_append]
    refine ⟨fun h => ⟨h.absolute.symm, h.names⟩, fun h => ⟨h.1.symm, ?_, h.2⟩⟩
    exact (resolve_ups_of_absolute root h.1).symm
  · have hrel : isAbsolute text = false := (Bool.not_eq_true _).mp habs
    rw [resolve_target _ (resolve_join root text hrel), Location.walk_within_iff, hrel,
      if_neg Bool.false_ne_true]

/-- **A `dir` endpoint opens nothing outside its root iff the requested components stay there**, for
every root, request path and cursor, and whatever the file system answers to `is_dir`. -/
theorem dir_within_iff (ε Io : Type) (isDir : Str → Bool) (root : Str) (cx : PreflightContext) :
    (∀ path, Opens ε Io isDir root cx path → (resolve path).Within (resolve root)) ↔
      ∀ text, requested cx = some text →
        StaysWithin (resolve root) (isAbsolute text) (followed isDir root text) := by
  refine ⟨fun h text htext => ?_, fun h path hopens => ?_⟩
  · rw [← target_within_iff]
    exact h _ ((opens_iff isDir root cx _).mpr ⟨text, htext, rfl⟩)
  · obtain ⟨text, htext, rfl⟩ := (opens_iff isDir root cx path).mp hopens
    rw [target_within_iff]
    exact h text htext

/-- `GET //etc/passwd` at `dir("/srv")`: the rest of the path after its first slash is absolute. -/
theorem dir_opens_outside :
    ¬ ∀ path, Opens Empty Empty (fun _ => false) "/srv".toList
        (.new (.new 0 ⟨.get, .origin ⟨"//etc/passwd".toList, none, rfl⟩, []⟩)) path →
      (resolve path).Within (resolve "/srv".toList) := by
  rw [dir_within_iff]
  intro h
  have hreq : requested (.new (.new 0 ⟨.get, .origin ⟨"//etc/passwd".toList, none, rfl⟩, []⟩)) =
      some "/etc/passwd".toList := by
    have hdec : EncodedStr.percentDecode "/etc/passwd".toList = .ok "/etc/passwd".toList :=
      Utf8.decode_bytes "/etc/passwd".toList
    have hrem : Cursor.remainingPath "//etc/passwd".toList ⟨1, 0⟩ =
        .ok "/etc/passwd".toList := rfl
    unfold requested
    show (match Cursor.remainingPath "//etc/passwd".toList ⟨1, 0⟩ with
      | .ok remaining => (EncodedStr.percentDecode remaining).toOption
      | .error _ => none) = _
    rw [hrem]
    simp only [hdec]
    rfl
  have hstay := h _ hreq
  revert hstay
  decide

end DirAction

end Finchers
