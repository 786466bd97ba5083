import Mathlib.Data.List.Induction

/-!
# Lexical resolution of paths

A path is a text whose components stand between slashes; an empty component and `.` stay where
they are, `..` goes up.  `resolve` follows the components of a path without a look at the file
system: from the root if the path begins with a slash, from an unknown directory otherwise.

* `join` — appending one path to another; a path that begins with a slash replaces the base;
* `resolve_join` — resolving a joined path is resolving the base and walking on from there;
* `Location.walk_eq` — where a walk leads: up some directories, and down from there;
* `Location.walk_within_iff` — a walk ends at its start or below it iff it comes back down along
  the names that it went up.
-/

set_option autoImplicit false

namespace UnixPath

/-- A component of a path. -/
abbrev Name := List Char

/-- The path begins at the root. -/
def isAbsolute (p : List Char) : Bool := p.head? == some '/'

def components (p : List Char) : List Name := p.splitOn '/'

/-- Append `p` to `base`, with a slash between them where there is none. -/
def join (base p : List Char) : List Char :=
  if isAbsolute p then p
  else if base = [] ∨ base.getLast? = some '/' then base ++ p
  else base ++ '/' :: p

/-- A resolved path: `ups` directories up from an unknown one, or at the root, and then down. -/
structure Location where
  absolute : Bool
  ups : Nat
  names : List Name
  deriving DecidableEq, Repr

namespace Location

/-- Follow one component. -/
def enter (l : Location) (c : Name) : Location :=
  if c = [] ∨ c = ['.'] then l
  else if c = ['.', '.'] then
    if l.names = [] then (if l.absolute then l else { l with ups := l.ups + 1 })
    else { l with names := l.names.dropLast }
  else { l with names := l.names ++ [c] }

/-- Follow some components. -/
def walk (l : Location) (cs : List Name) : Location := cs.foldl enter l

/-- The location is `base` or lies below it. -/
structure Within (l base : Location) : Prop where
  absolute : l.absolute = base.absolute
  ups : l.ups = base.ups
  names : base.names <+: l.names

/-- Up `k` directories; the root has nothing above it. -/
def climb (l : Location) (k : Nat) : Location where
  absolute := l.absolute
  ups := if l.absolute then l.ups else l.ups + (k - l.names.length)
  names := l.names.take (l.names.length - k)

end Location

/-- Where the path leads, from the root or from an unknown directory. -/
def resolve (p : List Char) : Location := Location.walk ⟨isAbsolute p, 0, []⟩ (components p)

/-- Where the components lead from an unknown directory. -/
def relative (cs : List Name) : Location := Location.walk ⟨false, 0, []⟩ cs

namespace Location

theorem walk_append (l : Location) (cs ds : List Name) :
    l.walk (cs ++ ds) = (l.walk cs).walk ds := List.foldl_append

theorem climb_zero (l : Location) : l.climb 0 = l := by
  unfold climb
  simp

theorem enter_absolute (l : Location) (c : Name) : (l.enter c).absolute = l.absolute := by
  unfold enter
  split
  · rfl
  · split
    · split
      · split <;> rfl
      · rfl
    · rfl

theorem walk_absolute (l : Location) (cs : List Name) : (l.walk cs).absolute = l.absolute := by
  induction cs generalizing l with
  | nil => rfl
  | cons c cs ih => exact (ih (l.enter c)).trans (l.enter_absolute c)

/-- Going up once more, from where a climb ends. -/
theorem climb_enter_up (l : Location) (k : Nat) :
    (l.climb k).enter ['.', '.'] = l.climb (k + 1) := by
  unfold enter
  rw [if_neg (by decide), if_pos rfl]
  by_cases hk : k < l.names.length
  · have hne : (l.climb k).names ≠ [] := by
      intro hnil
      have hlen := congrArg List.length hnil
      unfold climb at hlen
      rw [List.length_take, List.length_nil] at hlen
      omega
    rw [if_neg hne]
    unfold climb
    simp only [List.dropLast_eq_take, List.take_take, List.length_take, mk.injEq, true_and]
    refine ⟨?_, ?_⟩
    · split
      · rfl
      · omega
    · congr 1
      omega
  · have h0 : l.names.length - k = 0 := by omega
    have h1 : l.names.length - (k + 1) = 0 := by omega
    have hnil : (l.climb k).names = [] := by
      unfold climb
      simp only
      rw [h0, List.take_zero]
    rw [if_pos hnil]
    unfold climb
    simp only [h0, h1, List.take_zero]
    by_cases ha : l.absolute = true
    · simp [ha]
    · simp only [ha, Bool.false_eq_true, if_false, mk.injEq, and_true, true_and]
      omega

/-- The location with some more names. -/
def down (l : Location) (ns : List Name) : Location := { l with names := l.names ++ ns }

/-- One step after a climb and a descent. -/
theorem down_enter (l r : Location) (c : Name) (hr : r.absolute = false) :
    ((l.climb r.ups).down r.names).enter c =
      (l.climb (r.enter c).ups).down (r.enter c).names := by
  by_cases h1 : c = [] ∨ c = ['.']
  · have he : ∀ x : Location, x.enter c = x := fun x => by rw [enter, if_pos h1]
    rw [he, he]
  by_cases h2 : c = ['.', '.']
  · subst h2
    by_cases hnil : r.names = []
    · have he : r.enter ['.', '.'] = { r with ups := r.ups + 1 } := by
        unfold enter
        rw [if_neg h1, if_pos rfl, if_pos hnil, hr]
        rfl
      have hd : ∀ x : Location, x.down [] = x := fun x => by
        unfold down
        rw [List.append_nil]
      rw [he, hnil]
      rw [hd, hd, climb_enter_up]
    · have he : r.enter ['.', '.'] = { r with names := r.names.dropLast } := by
        unfold enter
        rw [if_neg h1, if_pos rfl, if_neg hnil]
      rw [he]
      unfold enter
      rw [if_neg h1, if_pos rfl, if_neg (by simp [down, hnil])]
      unfold down
      simp only
      rw [List.dropLast_append_of_ne_nil hnil]
  · have he : ∀ x : Location, x.enter c = { x with names := x.names ++ [c] } := fun x => by
      rw [enter, if_neg h1, if_neg h2]
    rw [he, he]
    unfold down
    simp only [List.append_assoc]

/-- Where a walk leads: up as far as the components go up from an unknown directory, and from
there down to where they end. -/
theorem walk_eq (l : Location) (cs : List Name) :
    l.walk cs = (l.climb (relative cs).ups).down (relative cs).names := by
  unfold relative
  induction cs using List.reverseRecOn with
  | nil =>
    show l = (l.climb 0).down []
    rw [climb_zero, down, List.append_nil]
  | append_singleton cs c ih =>
    have hr : (Location.walk ⟨false, 0, []⟩ cs).absolute = false := walk_absolute _ cs
    rw [walk_append, walk_append, ih]
    exact down_enter l _ c hr

/-- A walk ends at its start or below it iff it comes back down along the names it went up. -/
theorem walk_within_iff (l : Location) (cs : List Name) :
    (l.walk cs).Within l ↔
      (l.absolute = true ∨ (relative cs).ups ≤ l.names.length) ∧
        l.names.drop (l.names.length - (relative cs).ups) <+: (relative cs).names := by
  rw [walk_eq]
  generalize (relative cs).ups = k
  generalize (relative cs).names = ns
  have hnames : l.names <+: l.names.take (l.names.length - k) ++ ns ↔
      l.names.drop (l.names.length - k) <+: ns := by
    have hsplit := List.take_append_drop (l.names.length - k) l.names
    have hinj : l.names.take (l.names.length - k) ++ l.names.drop (l.names.length - k) <+:
        l.names.take (l.names.length - k) ++ ns ↔ l.names.drop (l.names.length - k) <+: ns :=
      List.prefix_append_right_inj _
    rw [hsplit] at hinj
    exact hinj
  refine ⟨fun h => ⟨?_, hnames.mp h.names⟩, fun h => ⟨rfl, ?_, hnames.mpr h.2⟩⟩
  · have hups := h.ups
    unfold climb down at hups
    simp only at hups
    split at hups
    · exact Or.inl ‹_›
    · exact Or.inr (by omega)
  · unfold climb down
    simp only
    split
    · rfl
    · have hle := h.1.resolve_left ‹_›
      omega

end Location

/-! ## Joined paths -/

theorem components_append_slash (p q : List Char) :
    components (p ++ '/' :: q) = components p ++ components q := List.splitOn_append_cons_self p q

/-- Resolving a joined path is resolving the base and walking on from there. -/
theorem resolve_join (base p : List Char) (hp : isAbsolute p = false) :
    resolve (join base p) = (resolve base).walk (components p) := by
  unfold join
  rw [hp, if_neg Bool.false_ne_true]
  by_cases hnil : base = []
  · subst hnil
    rw [if_pos (Or.inl rfl), List.nil_append]
    unfold resolve
    rw [hp]
    rfl
  by_cases hlast : base.getLast? = some '/'
  · rw [if_pos (Or.inr hlast)]
    obtain ⟨b, rfl⟩ := List.getLast?_eq_some_iff.mp hlast
    have habs : isAbsolute (b ++ ['/'] ++ p) = isAbsolute (b ++ ['/']) := by
      unfold isAbsolute
      cases b <;> rfl
    unfold resolve
    rw [habs, List.append_assoc, List.singleton_append, components_append_slash,
      components_append_slash, Location.walk_append, Location.walk_append]
    rfl
  · rw [if_neg (by simp [hnil, hlast])]
    have habs : isAbsolute (base ++ '/' :: p) = isAbsolute base := by
      unfold isAbsolute
      cases base with
      | nil => exact absurd rfl hnil
      | cons _ _ => rfl
    unfold resolve
    rw [habs, components_append_slash, Location.walk_append]

theorem join_absolute (base p : List Char) (hp : isAbsolute p = true) : join base p = p := by
  rw [join, if_pos hp]

/-- An absolute path resolves to the names that its components lead down to. -/
theorem resolve_absolute (p : List Char) (hp : isAbsolute p = true) :
    resolve p = ⟨true, 0, (relative (components p)).names⟩ := by
  unfold resolve
  rw [hp, Location.walk_eq]
  simp [Location.climb, Location.down]

theorem resolve_ups_of_absolute (p : List Char) (hp : (resolve p).absolute = true) :
    (resolve p).ups = 0 := by
  have hp' : isAbsolute p = true := (Location.walk_absolute _ _).symm.trans hp
  rw [resolve_absolute p hp']

end UnixPath
