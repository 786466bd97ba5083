import Finchers.Endpoint.ExtractPath

/-!
# The grammar of path literals

Which literals `parse_path` accepts, and as which components.

* `parsePathSliced` — `parse_path` with its slices, which may be out of range;
* `SegmentOf`, `Derives`, `LiteralOf` — the grammar of literals, with the components they stand for;
* `parseSegments_cons_ok` — what the loop makes of one segment; `parseSegments_ok_iff` — the
  induction over the segments;
* `printPath` — components written as a literal;
* `parsePath_grammar` — **a literal is accepted iff the grammar derives it, and what is printed is
  read back**.
-/

set_option autoImplicit false

namespace Finchers

variable {ε : Type} {T : PathTypes ε}

/-! ## Slices -/

/-- The loop of `parse_path` with the slices it takes; `none` stands for a panic. -/
def parseSegmentsSliced (T : PathTypes ε) :
    List Str → Option (Except String (List (Component T.Ty)))
  | [] => some (.ok [])
  | segment :: rest =>
    if segment = [] then
      if rest ≠ [] then some (.error "a path segment must not be empty") else some (.ok [])
    else if segment.head? = some '<' then
      if segment.getLast? ≠ some '>' then
        some (.error "a segment that extracts a parameter must be end with '>'")
      else if ¬ segment.all (fun c => c.toNat < 128) then
        some (.error "non-ascii character(s) in the parameter position")
      else do
        let tyStr ← Utf8.slice segment 1 (Utf8.len segment - 1)
        if ['.', '.'].isPrefixOf tyStr then
          let inner ← Utf8.sliceFrom tyStr 2
          match T.parseStr inner with
          | .error e => return .error e
          | .ok ty =>
            if rest ≠ [] then return .error "the catch-all parameter must be at the end of path"
            else return .ok [.catchAllParam ty]
        else
          match T.parseStr tyStr with
          | .error e => return .error e
          | .ok ty => return (← parseSegmentsSliced T rest).map (.singleParam ty :: ·)
    else do return (← parseSegmentsSliced T rest).map (.static segment :: ·)

/-- `parse_path` with its slices. -/
def parsePathSliced (T : PathTypes ε) (s : Str) : Option (Except String (List (Component T.Ty))) :=
  let s := s.trim
  if s = [] then some (.error "the path literal must not be empty")
  else if s.head? ≠ some '/' then some (.error "the path literal must start with a slash")
  else if s = ['/'] then some (.ok [])
  else parseSegmentsSliced T ((s.splitOn '/').drop 1)

/-- A segment between `<` and `>`. -/
theorem exists_inner {segment : Str} (hhead : segment.head? = some '<')
    (hlast : segment.getLast? = some '>') : ∃ t, segment = '<' :: (t ++ ['>']) := by
  cases segment with
  | nil => cases hhead
  | cons c tail =>
    have hc : c = '<' := by simpa using hhead
    subst hc
    have hne : tail ≠ [] := by
      rintro rfl
      simp at hlast
    have htail : tail.getLast? = some '>' := by
      rw [List.getLast?_cons_of_ne_nil hne] at hlast
      exact hlast
    refine ⟨tail.dropLast, ?_⟩
    rw [List.dropLast_append_getLast? '>' htail]

/-- The slice between `<` and `>` is in range. -/
theorem slice_inner (t : Str) :
    Utf8.slice ('<' :: (t ++ ['>'])) 1 (Utf8.len ('<' :: (t ++ ['>'])) - 1) = some t := by
  have hlen : Utf8.len ('<' :: (t ++ ['>'])) - 1 = Utf8.len ['<'] + Utf8.len t := by
    simp only [Utf8.len_cons, Utf8.len_append, Utf8.len_nil]
    have h1 : '<'.utf8Size = 1 := rfl
    have h2 : '>'.utf8Size = 1 := rfl
    omega
  rw [hlen]
  exact Utf8.slice_append ['<'] t ['>']

/-- The slice after the dots is in range. -/
theorem sliceFrom_dots {t : Str} (h : ['.', '.'].isPrefixOf t = true) :
    Utf8.sliceFrom t 2 = some (t.drop 2) := by
  obtain ⟨u, rfl⟩ := List.isPrefixOf_iff_prefix.mp h
  exact Utf8.sliceFrom_append ['.', '.'] u

/-- No slice of the loop is out of range. -/
theorem parseSegmentsSliced_eq (segments : List Str) :
    parseSegmentsSliced T segments = some (parseSegments T segments) := by
  induction segments with
  | nil => rfl
  | cons segment rest ih =>
    rw [parseSegmentsSliced, parseSegments]
    by_cases hempty : segment = []
    · simp only [hempty, if_true]
      split <;> rfl
    simp only [if_neg hempty]
    by_cases hhead : segment.head? = some '<'
    · simp only [if_pos hhead]
      by_cases hlast : segment.getLast? = some '>'
      · simp only [hlast, ne_eq, not_true_eq_false, if_false]
        by_cases hascii : segment.all (fun c => c.toNat < 128) = true
        · obtain ⟨t, rfl⟩ := exists_inner hhead hlast
          have hinner : ('<' :: (t ++ ['>'])).tail.dropLast = t := by simp
          simp only [hascii, not_true_eq_false, if_false, slice_inner, hinner, Option.bind_eq_bind,
            Option.bind_some]
          by_cases hdots : ['.', '.'].isPrefixOf t = true
          · simp only [hdots, if_true, sliceFrom_dots hdots, Option.bind_some]
            cases T.parseStr (t.drop 2) with
            | error e => rfl
            | ok ty =>
              dsimp only
              split <;> rfl
          · simp only [hdots, Bool.false_eq_true, if_false, ih, Option.bind_some]
            cases T.parseStr t with
            | error e => rfl
            | ok ty => rfl
        · simp [hascii]
      · simp [hlast]
    · simp only [if_neg hhead, ih, Option.bind_eq_bind, Option.bind_some]
      rfl

theorem parsePathSliced_eq (s : Str) : parsePathSliced T s = some (parsePath T s) := by
  simp only [parsePathSliced, parsePath, parseSegmentsSliced_eq]
  split
  · rfl
  · split
    · rfl
    · split <;> rfl

/-! ## The grammar -/

def Component.isCatchAll {Ty : Type} : Component Ty → Bool
  | .catchAllParam _ => true
  | _ => false

def isAscii (s : Str) : Bool := s.all fun c => c.toNat < 128

/-- A segment and the component that it stands for. -/
inductive SegmentOf (T : PathTypes ε) : Str → Component T.Ty → Prop
  | static {t : Str} (hne : t ≠ []) (hhead : t.head? ≠ some '<') : SegmentOf T t (.static t)
  | single {t : Str} {ty : T.Ty} (hdots : ['.', '.'].isPrefixOf t = false) (hascii : isAscii t = true)
      (hty : T.parseStr t = .ok ty) : SegmentOf T ('<' :: (t ++ ['>'])) (.singleParam ty)
  | catchAll {t : Str} {ty : T.Ty} (hascii : isAscii t = true) (hty : T.parseStr t = .ok ty) :
      SegmentOf T ('<' :: '.' :: '.' :: (t ++ ['>'])) (.catchAllParam ty)

/-- Segments led by slashes, with a closing slash or none; nothing comes after a catch-all
parameter. -/
inductive Derives (T : PathTypes ε) : Str → List (Component T.Ty) → Prop
  | done : Derives T [] []
  | slash : Derives T ['/'] []
  | segment {t rest : Str} {c : Component T.Ty} {cs : List (Component T.Ty)} (hslash : '/' ∉ t)
      (hc : SegmentOf T t c) (hcatch : c.isCatchAll = false) (hrest : Derives T rest cs) :
      Derives T ('/' :: (t ++ rest)) (c :: cs)
  | last {t : Str} {c : Component T.Ty} (hslash : '/' ∉ t) (hc : SegmentOf T t c)
      (hcatch : c.isCatchAll = true) : Derives T ('/' :: t) [c]

/-- A literal and the components that it stands for. -/
def LiteralOf (T : PathTypes ε) (lit : Str) (cs : List (Component T.Ty)) : Prop :=
  lit ≠ [] ∧ Derives T lit cs

/-! ## One segment -/

theorem isAscii_between (t : Str) : isAscii ('<' :: (t ++ ['>'])) = isAscii t := by
  have hlt : decide ('<'.toNat < 128) = true := rfl
  have hgt : decide ('>'.toNat < 128) = true := rfl
  simp only [isAscii, List.all_cons, List.all_append, List.all_nil, hlt, hgt, Bool.true_and,
    Bool.and_true]

theorem isAscii_dots (t : Str) : isAscii ('.' :: '.' :: t) = isAscii t := by
  have hdot : decide ('.'.toNat < 128) = true := rfl
  simp only [isAscii, List.all_cons, hdot, Bool.true_and]

/-- The loop at a segment between `<` and `>`. -/
theorem parseSegments_between {t : Str} (hascii : isAscii t = true) (rest : List Str) :
    parseSegments T (('<' :: (t ++ ['>'])) :: rest) =
      if ['.', '.'].isPrefixOf t then
        match T.parseStr (t.drop 2) with
        | .error e => .error e
        | .ok ty =>
          if rest ≠ [] then .error "the catch-all parameter must be at the end of path"
          else .ok [.catchAllParam ty]
      else
        match T.parseStr t with
        | .error e => .error e
        | .ok ty => (parseSegments T rest).map (.singleParam ty :: ·) := by
  have hinner : ('<' :: (t ++ ['>'])).tail.dropLast = t := by simp
  have hlast : ('<' :: (t ++ ['>'])).getLast? = some '>' := by
    rw [← List.cons_append, List.getLast?_append]
    rfl
  have hall : ('<' :: (t ++ ['>'])).all (fun c => c.toNat < 128) = true := by
    rw [← isAscii_between] at hascii
    exact hascii
  rewrite [parseSegments, if_neg (List.cons_ne_nil _ _), if_pos List.head?_cons,
    if_neg (not_not_intro hlast), if_neg (not_not_intro hall), hinner]
  rfl

theorem parseSegments_static {t : Str} (hne : t ≠ []) (hhead : t.head? ≠ some '<')
    (rest : List Str) :
    parseSegments T (t :: rest) = (parseSegments T rest).map (.static t :: ·) := by
  rw [parseSegments, if_neg hne, if_neg hhead]

theorem parseSegments_single {t : Str} {ty : T.Ty} (hdots : ['.', '.'].isPrefixOf t = false)
    (hascii : isAscii t = true) (hty : T.parseStr t = .ok ty) (rest : List Str) :
    parseSegments T (('<' :: (t ++ ['>'])) :: rest) =
      (parseSegments T rest).map (.singleParam ty :: ·) := by
  rw [parseSegments_between hascii, if_neg (by simp [hdots]), hty]

theorem parseSegments_catchAll {t : Str} {ty : T.Ty} (hascii : isAscii t = true)
    (hty : T.parseStr t = .ok ty) :
    parseSegments T ['<' :: '.' :: '.' :: (t ++ ['>'])] = .ok [.catchAllParam ty] := by
  have hdots : ['.', '.'].isPrefixOf ('.' :: '.' :: t) = true := rfl
  have hdrop : ('.' :: '.' :: t).drop 2 = t := rfl
  have h := parseSegments_between (T := T) (t := '.' :: '.' :: t) (isAscii_dots t ▸ hascii) []
  rw [if_pos hdots, hdrop, hty] at h
  exact h

/-- A component that is not a catch-all parameter is put before those of the other segments. -/
theorem parseSegments_segment {t : Str} {c : Component T.Ty} (hc : SegmentOf T t c)
    (hcatch : c.isCatchAll = false) (rest : List Str) :
    parseSegments T (t :: rest) = (parseSegments T rest).map (c :: ·) := by
  cases hc with
  | static hne hhead => exact parseSegments_static hne hhead rest
  | single hdots hascii hty => exact parseSegments_single hdots hascii hty rest
  | catchAll => cases hcatch

theorem parseSegments_last {t : Str} {c : Component T.Ty} (hc : SegmentOf T t c)
    (hcatch : c.isCatchAll = true) : parseSegments T [t] = .ok [c] := by
  cases hc with
  | static => cases hcatch
  | single => cases hcatch
  | catchAll hascii hty => exact parseSegments_catchAll hascii hty

/-- An accepted segment that begins like a parameter lies between `<` and `>`. -/
theorem between_of_ok {segment : Str} {rest : List Str} {cs : List (Component T.Ty)}
    (hhead : segment.head? = some '<') (h : parseSegments T (segment :: rest) = .ok cs) :
    ∃ t, segment = '<' :: (t ++ ['>']) ∧ isAscii t = true := by
  have hne : segment ≠ [] := by
    rintro rfl
    cases hhead
  rw [parseSegments, if_neg hne, if_pos hhead] at h
  by_cases hlast : segment.getLast? = some '>'
  · rw [if_neg (not_not_intro hlast)] at h
    by_cases hascii : isAscii segment = true
    · obtain ⟨t, rfl⟩ := exists_inner hhead hlast
      exact ⟨t, rfl, isAscii_between t ▸ hascii⟩
    · unfold isAscii at hascii
      rw [if_pos hascii] at h
      cases h
  · rw [if_pos hlast] at h
    cases h

/-- What is accepted with a segment between `<` and `>` at its head: a catch-all parameter, or a
parameter before the components of the other segments. -/
theorem parseSegments_between_ok {t : Str} (hascii : isAscii t = true) {rest : List Str}
    {cs : List (Component T.Ty)} (h : parseSegments T (('<' :: (t ++ ['>'])) :: rest) = .ok cs) :
    (∃ c, SegmentOf T ('<' :: (t ++ ['>'])) c ∧ c.isCatchAll = true ∧ rest = [] ∧ cs = [c]) ∨
    (∃ c cs', SegmentOf T ('<' :: (t ++ ['>'])) c ∧ c.isCatchAll = false ∧
      parseSegments T rest = .ok cs' ∧ cs = c :: cs') := by
  rw [parseSegments_between hascii] at h
  cases hdots : ['.', '.'].isPrefixOf t with
  | true =>
    obtain ⟨u, rfl⟩ := List.isPrefixOf_iff_prefix.mp hdots
    rw [if_pos hdots] at h
    cases hty : T.parseStr u with
    | error e =>
      simp only [List.cons_append, List.nil_append, List.drop_succ_cons, List.drop_zero, hty] at h
      cases h
    | ok ty =>
      simp only [List.cons_append, List.nil_append, List.drop_succ_cons, List.drop_zero, hty] at h
      split at h
      · cases h
      · rename_i hrest
        cases h
        exact Or.inl ⟨_, .catchAll (isAscii_dots u ▸ hascii) hty, rfl, not_not.mp hrest, rfl⟩
  | false =>
    rw [if_neg (by simp [hdots])] at h
    cases hty : T.parseStr t with
    | error e =>
      rw [hty] at h
      cases h
    | ok ty =>
      rw [hty] at h
      obtain ⟨cs', hrest, rfl⟩ := map_cons_eq_ok h
      exact Or.inr ⟨_, cs', .single hdots hascii hty, rfl, hrest, rfl⟩

/-- What an accepted list of segments begins with: the empty piece after a closing slash, a
catch-all parameter, or another component. -/
theorem parseSegments_cons_ok {segment : Str} {rest : List Str} {cs : List (Component T.Ty)}
    (h : parseSegments T (segment :: rest) = .ok cs) :
    (segment = [] ∧ rest = [] ∧ cs = []) ∨
    (∃ c, SegmentOf T segment c ∧ c.isCatchAll = true ∧ rest = [] ∧ cs = [c]) ∨
    (∃ c cs', SegmentOf T segment c ∧ c.isCatchAll = false ∧ parseSegments T rest = .ok cs' ∧
      cs = c :: cs') := by
  by_cases hne : segment = []
  · rw [parseSegments, if_pos hne] at h
    split at h
    · cases h
    · rename_i hrest
      cases h
      exact Or.inl ⟨hne, not_not.mp hrest, rfl⟩
  right
  by_cases hhead : segment.head? = some '<'
  · obtain ⟨t, rfl, hascii⟩ := between_of_ok hhead h
    exact parseSegments_between_ok hascii h
  · rw [parseSegments_static hne hhead] at h
    obtain ⟨cs', hrest, rfl⟩ := map_cons_eq_ok h
    exact Or.inr ⟨_, cs', .static hne hhead, rfl, hrest, rfl⟩

/-! ## The segments of a literal -/

/-- Segments led by slashes; the last may be empty. -/
inductive Slashed : Str → Prop
  | nil : Slashed []
  | cons {t rest : Str} (hslash : '/' ∉ t) (hrest : Slashed rest) : Slashed ('/' :: (t ++ rest))

/-- A text is a segment with such segments behind it. -/
theorem exists_slashed (s : Str) : ∃ t rest, s = t ++ rest ∧ '/' ∉ t ∧ Slashed rest := by
  induction s with
  | nil => exact ⟨[], [], rfl, by simp, .nil⟩
  | cons c s ih =>
    obtain ⟨t, rest, rfl, hslash, hrest⟩ := ih
    by_cases hc : c = '/'
    · subst hc
      exact ⟨[], _, rfl, by simp, .cons hslash hrest⟩
    · refine ⟨c :: t, rest, rfl, ?_, hrest⟩
      simp only [List.mem_cons, not_or]
      exact ⟨fun heq => hc heq.symm, hslash⟩

theorem slashed_of_head {s : Str} (h : s.head? = some '/') : Slashed s := by
  obtain ⟨t, rest, rfl, hslash, hrest⟩ := exists_slashed s
  cases t with
  | nil => exact hrest
  | cons c t =>
    have hc : c = '/' := by simpa using h
    subst hc
    simp at hslash

/-- What the loop runs over. -/
def literalSegments (s : Str) : List Str := (s.splitOn '/').drop 1

theorem Slashed.head {s : Str} (h : Slashed s) (hne : s ≠ []) : s.head? = some '/' := by
  cases h with
  | nil => exact absurd rfl hne
  | cons => rfl

@[simp] theorem literalSegments_nil : literalSegments [] = [] := rfl

theorem literalSegments_cons {t rest : Str} (hslash : '/' ∉ t) (hrest : Slashed rest) :
    literalSegments ('/' :: (t ++ rest)) = t :: literalSegments rest := by
  have hlead (u : Str) : ('/' :: u).splitOn '/' = [] :: u.splitOn '/' :=
    List.splitOn_append_cons_self [] u
  rw [literalSegments, hlead, List.drop_one, List.tail_cons]
  cases hrest with
  | nil => rw [List.append_nil, List.splitOn_eq_singleton hslash, literalSegments_nil]
  | cons =>
    rw [List.splitOn_append_cons_self_of_not_mem hslash, literalSegments, hlead, List.drop_one,
      List.tail_cons]

/-- There are no pieces only if there is no text. -/
theorem Slashed.eq_nil {s : Str} (h : Slashed s) (hsegs : literalSegments s = []) : s = [] := by
  cases h with
  | nil => rfl
  | cons hslash hrest =>
    rw [literalSegments_cons hslash hrest] at hsegs
    cases hsegs

/-- An accepted list of segments is derived by the grammar. -/
theorem derives_of_parse {s : Str} (hs : Slashed s) :
    ∀ {cs}, parseSegments T (literalSegments s) = .ok cs → Derives T s cs := by
  induction hs with
  | nil =>
    intro cs h
    cases h
    exact .done
  | @cons t rest hslash hrest ih =>
    intro cs h
    rw [literalSegments_cons hslash hrest] at h
    rcases parseSegments_cons_ok h with ⟨rfl, hlast, rfl⟩ | ⟨c, hc, hcatch, hlast, rfl⟩ |
      ⟨c, cs', hc, hcatch, hok, rfl⟩
    · rw [hrest.eq_nil hlast]
      exact .slash
    · rw [hrest.eq_nil hlast, List.append_nil]
      exact .last hslash hc hcatch
    · exact .segment hslash hc hcatch (ih hok)

theorem Derives.slashed {s : Str} {cs : List (Component T.Ty)} (h : Derives T s cs) : Slashed s := by
  induction h with
  | done => exact .nil
  | slash => exact .cons (t := []) (by simp) .nil
  | segment hslash hc hcatch hrest ih => exact .cons hslash ih
  | @last t c hslash hc hcatch =>
    have h := Slashed.cons hslash .nil
    rwa [List.append_nil] at h

/-- What the grammar derives is accepted, as the same components. -/
theorem Derives.parse {s : Str} {cs : List (Component T.Ty)} (h : Derives T s cs) :
    parseSegments T (literalSegments s) = .ok cs := by
  induction h with
  | done => rfl
  | slash => rfl
  | segment hslash hc hcatch hrest ih =>
    rw [literalSegments_cons hslash hrest.slashed, parseSegments_segment hc hcatch, ih]
    rfl
  | @last t c hslash hc hcatch =>
    have hsegs := literalSegments_cons hslash .nil
    rw [List.append_nil, literalSegments_nil] at hsegs
    rw [hsegs]
    exact parseSegments_last hc hcatch

theorem parseSegments_ok_iff {s : Str} (hs : Slashed s) {cs : List (Component T.Ty)} :
    parseSegments T (literalSegments s) = .ok cs ↔ Derives T s cs :=
  ⟨derives_of_parse hs, Derives.parse⟩

/-- **`parse_path` accepts the literals of the grammar.** -/
theorem parsePath_ok_iff (s : Str) (cs : List (Component T.Ty)) :
    parsePath T s = .ok cs ↔ LiteralOf T s.trim cs := by
  unfold parsePath LiteralOf
  dsimp only
  by_cases hne : s.trim = []
  · rw [if_pos hne]
    exact ⟨by rintro ⟨⟩, fun h => absurd hne h.1⟩
  rw [if_neg hne]
  by_cases hhead : s.trim.head? = some '/'
  · have hs := slashed_of_head hhead
    rw [if_neg (not_not_intro hhead)]
    by_cases hroot : s.trim = ['/']
    · have hok : parseSegments T (literalSegments ['/']) = .ok [] := rfl
      rw [if_pos hroot, ← hok, ← hroot, parseSegments_ok_iff hs]
      exact ⟨fun h => ⟨hne, h⟩, fun h => h.2⟩
    · rw [if_neg hroot]
      exact ⟨fun h => ⟨hne, derives_of_parse hs h⟩, fun h => h.2.parse⟩
  · rw [if_pos hhead]
    exact ⟨by rintro ⟨⟩, fun h => absurd (h.2.slashed.head h.1) hhead⟩

/-! ## Printed components -/

/-- A component as a segment; `text` writes a type. -/
def Component.print {Ty : Type} (text : Ty → Str) : Component Ty → Str
  | .static s => s
  | .singleParam ty => '<' :: (text ty ++ ['>'])
  | .catchAllParam ty => '<' :: '.' :: '.' :: (text ty ++ ['>'])

/-- The components, led by slashes. -/
def led {Ty : Type} (text : Ty → Str) (cs : List (Component Ty)) : Str :=
  cs.flatMap fun c => '/' :: c.print text

/-- Components as a literal, with a closing slash where there is nothing else or `trim` would cut
the last segment. -/
def printPath {Ty : Type} (text : Ty → Str) (cs : List (Component Ty)) : Str :=
  let s := led text cs
  if s ≠ [] ∧ s.trim = s then s else s ++ ['/']

/-- A component whose printed form is a segment for it. -/
def Component.Printable (T : PathTypes ε) (text : T.Ty → Str) (c : Component T.Ty) : Prop :=
  SegmentOf T (c.print text) c ∧ '/' ∉ c.print text

/-- Components that can stand in a literal together: a catch-all parameter at the end only. -/
def Component.Valid (T : PathTypes ε) (text : T.Ty → Str) (cs : List (Component T.Ty)) : Prop :=
  (∀ c ∈ cs, c.Printable T text) ∧ ∀ c ∈ cs.dropLast, c.isCatchAll = false

theorem dropWhile_eq_self {p : Char → Bool} {s : Str} {c : Char} (h : s.head? = some c)
    (hc : p c = false) : s.dropWhile p = s := by
  cases s with
  | nil => rfl
  | cons d s =>
    have hd : d = c := by simpa using h
    rw [List.dropWhile_cons_of_neg (by simp [hd, hc])]

/-- Nothing is trimmed between two characters that are not white space. -/
theorem trim_eq_self {s : Str} {c d : Char} (hhead : s.head? = some c) (hc : isWhitespace c = false)
    (hlast : s.getLast? = some d) (hd : isWhitespace d = false) : s.trim = s := by
  rw [← List.head?_reverse] at hlast
  rw [Str.trim, dropWhile_eq_self hhead hc, dropWhile_eq_self hlast hd, List.reverse_reverse]

section

variable {text : T.Ty → Str} {cs : List (Component T.Ty)}

theorem led_head (hne : led text cs ≠ []) : (led text cs).head? = some '/' := by
  cases cs with
  | nil => exact absurd rfl hne
  | cons => rfl

/-- Components without a catch-all parameter before what the grammar derives. -/
theorem Derives.led_append (hprint : ∀ c ∈ cs, c.Printable T text)
    (hcatch : ∀ c ∈ cs, c.isCatchAll = false) {rest : Str} {cs' : List (Component T.Ty)}
    (hrest : Derives T rest cs') : Derives T (led text cs ++ rest) (cs ++ cs') := by
  induction cs with
  | nil => exact hrest
  | cons c cs ih =>
    rw [List.forall_mem_cons] at hprint hcatch
    have htail := ih hprint.2 hcatch.2
    have hcons : led text (c :: cs) ++ rest =
        '/' :: (c.print text ++ (led text cs ++ rest)) := by
      simp [led]
    rw [hcons]
    exact .segment hprint.1.2 hprint.1.1 hcatch.1 htail

/-- A list whose last component is a catch-all parameter, or one without. -/
theorem Component.Valid.last (h : Valid T text cs) :
    (∀ c ∈ cs, c.isCatchAll = false) ∨
    ∃ init c, cs = init ++ [c] ∧ c.isCatchAll = true ∧ (∀ c ∈ init, c.isCatchAll = false) := by
  rcases List.eq_nil_or_concat cs with rfl | ⟨init, c, rfl⟩
  · exact Or.inl (by simp)
  · have hinit := h.2
    rw [List.concat_eq_append, List.dropLast_concat] at hinit
    rw [List.concat_eq_append]
    cases hc : c.isCatchAll with
    | true => exact Or.inr ⟨init, c, rfl, hc, hinit⟩
    | false =>
      left
      intro d hd
      rcases List.mem_append.mp hd with hd | hd
      · exact hinit d hd
      · rw [List.mem_singleton.mp hd]
        exact hc

theorem led_concat (init : List (Component T.Ty)) (c : Component T.Ty) :
    led text (init ++ [c]) = led text init ++ '/' :: c.print text := by
  simp [led]

/-- A printed catch-all parameter is not cut by `trim`. -/
theorem led_trim {init : List (Component T.Ty)} {c : Component T.Ty}
    (hc : c.isCatchAll = true) : (led text (init ++ [c])).trim = led text (init ++ [c]) := by
  have hlast : (led text (init ++ [c])).getLast? = some '>' := by
    cases c with
    | static => cases hc
    | singleParam => cases hc
    | catchAllParam ty =>
      have hsplit : led text (init ++ [.catchAllParam ty]) =
          (led text init ++ '/' :: '<' :: '.' :: '.' :: text ty) ++ ['>'] := by
        rw [led_concat]
        simp [Component.print]
      rw [hsplit, List.getLast?_append]
      rfl
  have hne : led text (init ++ [c]) ≠ [] := by
    rw [led_concat]
    simp
  exact trim_eq_self (led_head hne) rfl hlast rfl

/-- **The grammar derives what is printed.** -/
theorem printPath_literal (h : Component.Valid T text cs) :
    LiteralOf T (printPath text cs).trim cs := by
  have hled : Derives T (led text cs) cs := by
    rcases h.last with hno | ⟨init, c, rfl, hc, hinit⟩
    · have hd := Derives.led_append h.1 hno .done
      rwa [List.append_nil, List.append_nil] at hd
    · obtain ⟨hprint, hlast⟩ := List.forall_mem_append.mp h.1
      rw [led_concat]
      have hc' := hlast c (List.mem_singleton_self c)
      exact Derives.led_append hprint hinit (.last hc'.2 hc'.1 hc)
  unfold printPath
  dsimp only
  split
  · rename_i htrim
    rw [htrim.2]
    exact ⟨htrim.1, hled⟩
  · rename_i htrim
    have hhead : (led text cs ++ ['/']).head? = some '/' := by
      by_cases hne : led text cs = []
      · rw [hne]
        rfl
      · rw [List.head?_append, led_head hne]
        rfl
    have hlast : (led text cs ++ ['/']).getLast? = some '/' := by
      rw [List.getLast?_append]
      rfl
    rw [trim_eq_self hhead rfl hlast rfl]
    refine ⟨by simp, ?_⟩
    rcases h.last with hno | ⟨init, c, rfl, hc, hinit⟩
    · have hd := Derives.led_append h.1 hno .slash
      rwa [List.append_nil] at hd
    · refine absurd ⟨?_, led_trim hc⟩ htrim
      rw [led_concat]
      simp

/-- The components of a literal are valid, for some way to write their types. -/
theorem Derives.valid {s : Str} (h : Derives T s cs) : ∃ text, Component.Valid T text cs := by
  -- a text that can be written after `<` can be written after `<..` as well
  have htext : ∀ ty : T.Ty, ∃ u,
      ((∃ t, SegmentOf T t (.singleParam ty) ∧ '/' ∉ t) →
        (Component.singleParam ty).Printable T fun _ => u) ∧
      ((∃ t, SegmentOf T t (.catchAllParam ty) ∧ '/' ∉ t) →
        (Component.catchAllParam ty).Printable T fun _ => u) := by
    intro ty
    by_cases hsingle : ∃ t, SegmentOf T t (.singleParam ty) ∧ '/' ∉ t
    · obtain ⟨t, hseg, hslash⟩ := hsingle
      cases hseg with
      | @single u _ hdots hascii hty =>
        have hu : '/' ∉ ('<' :: '.' :: '.' :: (u ++ ['>'])) := by simpa using hslash
        exact ⟨u, fun _ => ⟨.single hdots hascii hty, hslash⟩, fun _ => ⟨.catchAll hascii hty, hu⟩⟩
    · by_cases hcatch : ∃ t, SegmentOf T t (.catchAllParam ty) ∧ '/' ∉ t
      · obtain ⟨t, hseg, hslash⟩ := hcatch
        cases hseg with
        | @catchAll u _ hascii hty =>
          exact ⟨u, fun h => absurd h hsingle, fun _ => ⟨.catchAll hascii hty, hslash⟩⟩
      · exact ⟨[], fun h => absurd h hsingle, fun h => absurd h hcatch⟩
  choose text htext using htext
  refine ⟨text, ?_⟩
  have hprint : ∀ {t : Str} {c : Component T.Ty}, SegmentOf T t c → '/' ∉ t →
      c.Printable T text := by
    intro t c hseg hslash
    cases c with
    | static s =>
      cases hseg with
      | static hne hhead => exact ⟨.static hne hhead, hslash⟩
    | singleParam ty => exact (htext ty).1 ⟨t, hseg, hslash⟩
    | catchAllParam ty => exact (htext ty).2 ⟨t, hseg, hslash⟩
  induction h with
  | done => exact ⟨by simp, by simp⟩
  | slash => exact ⟨by simp, by simp⟩
  | @segment t rest c cs hslash hc hcatch hrest ih =>
    refine ⟨List.forall_mem_cons.mpr ⟨hprint hc hslash, ih.1⟩, ?_⟩
    cases cs with
    | nil => simp
    | cons d cs => exact List.forall_mem_cons.mpr ⟨hcatch, ih.2⟩
  | @last t c hslash hc hcatch =>
    exact ⟨List.forall_mem_singleton.mpr (hprint hc hslash), by simp⟩

end

/-! ## The grammar, and printing -/

/-- **The grammar of path literals.**  Whatever texts are types, `parse_path` slices no text out of
range; it accepts exactly the literals that the grammar derives, and returns their segments as
components; valid components, printed, are parsed as themselves; and what it returns is valid. -/
theorem parsePath_grammar (T : PathTypes ε) :
    (∀ s, parsePathSliced T s = some (parsePath T s)) ∧
    (∀ s cs, parsePath T s = .ok cs ↔ LiteralOf T s.trim cs) ∧
    (∀ text cs, Component.Valid T text cs → parsePath T (printPath text cs) = .ok cs) ∧
    ∀ s cs, parsePath T s = .ok cs → ∃ text, Component.Valid T text cs := by
  refine ⟨parsePathSliced_eq, parsePath_ok_iff, ?_, ?_⟩
  · intro text cs h
    exact (parsePath_ok_iff _ _).mpr (printPath_literal h)
  · intro s cs h
    exact ((parsePath_ok_iff s cs).mp h).2.valid

/-- A static segment with a blank at its end is printed with a closing slash. -/
example : printPath (fun (_ : Unit) => "T".toList) [.singleParam (), .static "a ".toList] =
    "/<T>/a /".toList := by decide

end Finchers
