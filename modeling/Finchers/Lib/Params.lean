import Mathlib.Data.List.TakeDrop
import Mathlib.Data.List.TakeWhile
import Finchers.Lib.FieldValue

/-!
# Values with parameters

A header such as `Content-Type` or `Set-Cookie` holds a list of parameters, `name` or `name=value`,
with `; ` between them.  A reader splits it at every `;`, and a piece at its first `=`, and leaves out
the white space around names and values.

* `Param.text`, `print` — how parameters are written;
* `Param.read`, `read` — how they are read;
* `length_splitOn` — how many pieces there are between separators;
* `read_print_iff` — **what was written is read back iff no value has a `;` or white space around
  it.**
-/

set_option autoImplicit false

/-! ## Splitting at a separator -/

namespace List

variable {α : Type} [DecidableEq α] {A B : List α} {x : α}

/-- A list is split at the first occurrence of an element. -/
theorem span_ne_of_not_mem (hA : x ∉ A) : (A ++ x :: B).span (· != x) = (A, x :: B) := by
  have hall : ∀ b ∈ A, (b != x) = true := by
    intro b hb
    rw [bne_iff_ne]
    rintro rfl
    exact hA hb
  rw [List.span_eq_takeWhile_dropWhile, List.takeWhile_append_of_pos hall,
    List.dropWhile_append_of_pos hall]
  simp

theorem span_ne_of_none (hA : x ∉ A) : A.span (· != x) = (A, []) := by
  have hall : ∀ b ∈ A, (b != x) = true := by
    intro b hb
    rw [bne_iff_ne]
    rintro rfl
    exact hA hb
  rw [List.span_eq_takeWhile_dropWhile, List.takeWhile_eq_self_iff.mpr hall,
    List.dropWhile_eq_nil_iff.mpr hall]

/-- There is one piece more than there are separators. -/
theorem length_splitOn (x : α) (A : List α) : (A.splitOn x).length = A.count x + 1 := by
  induction A with
  | nil => rfl
  | cons a A ih =>
    rw [List.splitOn_cons_eq_if_modifyHead, List.count_cons]
    by_cases ha : (a == x) = true
    · rw [if_pos ha, if_pos ha, List.length_cons, ih]
    · rw [if_neg ha, if_neg ha, List.length_modifyHead, ih, Nat.add_zero]

/-- What becomes of each element is that element, iff this is so of the whole list. -/
theorem flatMap_eq_self_iff {α : Type} {f : α → List α} (hf : ∀ a, f a ≠ []) (A : List α) :
    A.flatMap f = A ↔ ∀ a ∈ A, f a = [a] := by
  have hlength : ∀ A : List α, A.length ≤ (A.flatMap f).length := by
    intro A
    induction A with
    | nil => exact Nat.le_refl _
    | cons a A ih =>
      have hpos := List.length_pos_of_ne_nil (hf a)
      rw [List.flatMap_cons, List.length_append, List.length_cons]
      omega
  induction A with
  | nil => simp
  | cons a A ih =>
    rw [List.flatMap_cons, List.forall_mem_cons]
    refine Iff.trans ?_ (and_congr_right' ih)
    constructor
    · intro h
      have hlen := congrArg List.length h
      have hpos := List.length_pos_of_ne_nil (hf a)
      have hrest := hlength A
      rw [List.length_append, List.length_cons] at hlen
      obtain ⟨b, hb⟩ := List.length_eq_one_iff.mp (show (f a).length = 1 by omega)
      rw [hb, List.singleton_append, List.cons.injEq] at h
      rw [hb]
      exact ⟨congrArg (fun c => [c]) h.1, h.2⟩
    · rintro ⟨ha, hA⟩
      rw [ha, hA]
      rfl

end List

namespace Params

open FieldValue

/-- A parameter, by the bytes of its name and of its value. -/
structure Param where
  name : List UInt8
  value : Option (List UInt8)
  deriving DecidableEq

def Param.text : Param → List UInt8
  | ⟨name, none⟩ => name
  | ⟨name, some value⟩ => name ++ 61 :: value

/-- Some parameters, a separator and a blank between them. -/
def print (p : Param) (ps : List Param) : List UInt8 :=
  p.text ++ ps.flatMap fun q => 59 :: 32 :: q.text

/-- One piece between separators. -/
def Param.read (piece : List UInt8) : Param :=
  match piece.span (· != 61) with
  | (name, []) => ⟨trim name, none⟩
  | (name, _ :: value) => ⟨trim name, some (trim value)⟩

def read (line : List UInt8) : List Param := (line.splitOn 59).map Param.read

/-- Nothing in the name is a separator or white space. -/
def Param.Plain (p : Param) : Prop := ∀ b ∈ p.name, b ≠ 59 ∧ b ≠ 61 ∧ isSpace b = false

/-- The value has no separator of parameters and no white space around it. -/
def Param.Clean (p : Param) : Prop := ∀ v, p.value = some v → 59 ∉ v ∧ trim v = v

instance (p : Param) : Decidable p.Clean :=
  decidable_of_iff (p.value.all fun v => decide (59 ∉ v ∧ trim v = v) : Bool) (by
    unfold Param.Clean
    cases p.value with
    | none => simp
    | some v => simp)

/-! ## White space -/

theorem trim_of_none {l : List UInt8} (h : ∀ b ∈ l, isSpace b = false) : trim l = l := by
  have hdrop : ∀ {t : List UInt8}, (∀ b ∈ t, isSpace b = false) → t.dropWhile isSpace = t := by
    intro t ht
    cases t with
    | nil => rfl
    | cons b t =>
      have hb := ht b List.mem_cons_self
      rw [List.dropWhile_cons_of_neg (by rw [hb]; exact Bool.false_ne_true)]
  unfold trim
  rw [hdrop h, hdrop fun b hb => h b (List.mem_reverse.mp hb), List.reverse_reverse]

theorem trim_blank (l : List UInt8) : trim (32 :: l) = trim l := by
  have hspace : isSpace 32 = true := rfl
  unfold trim
  rw [List.dropWhile_cons_of_pos hspace]

/-! ## Reading what was written -/

/-- The text of a parameter as one piece. -/
theorem read_text {p : Param} (hp : p.Plain) :
    Param.read p.text = ⟨p.name, p.value.map trim⟩ := by
  have hequals : 61 ∉ p.name := fun h => (hp 61 h).2.1 rfl
  have htrim : trim p.name = p.name := trim_of_none fun b hb => (hp b hb).2.2
  obtain ⟨name, value⟩ := p
  cases value with
  | none =>
    unfold Param.read Param.text
    rw [List.span_ne_of_none hequals]
    exact congrArg (Param.mk · none) htrim
  | some v =>
    unfold Param.read Param.text
    rw [List.span_ne_of_not_mem hequals]
    exact congrArg (Param.mk · (some (trim v))) htrim

/-- A blank before it changes nothing. -/
theorem read_blank (piece : List UInt8) : Param.read (32 :: piece) = Param.read piece := by
  have hspan : (32 :: piece).span (· != 61) =
      (32 :: (piece.span (· != 61)).1, (piece.span (· != 61)).2) := by
    simp [List.span_eq_takeWhile_dropWhile]
  unfold Param.read
  rw [hspan]
  rcases piece.span (· != 61) with ⟨name, _ | ⟨b, value⟩⟩
  · exact congrArg (Param.mk · none) (trim_blank name)
  · exact congrArg (Param.mk · (some (trim value))) (trim_blank name)

/-- The separators in the text of a parameter are those of its value. -/
theorem not_mem_text_iff {p : Param} (hp : p.Plain) :
    59 ∉ p.text ↔ ∀ v, p.value = some v → 59 ∉ v := by
  have hname : 59 ∉ p.name := fun h => (hp 59 h).1 rfl
  obtain ⟨name, value⟩ := p
  have hname : 59 ∉ name := hname
  cases value with
  | none => simp [Param.text, hname]
  | some v => simp [Param.text, hname]

/-- A later parameter is read as itself iff its value is clean. -/
theorem read_later_iff {p : Param} (hp : p.Plain) : read (32 :: p.text) = [p] ↔ p.Clean := by
  have hblank : (32 :: p.text).count 59 = p.text.count 59 :=
    List.count_cons_of_ne (by decide)
  have hclean : p.Clean ↔ 59 ∉ p.text ∧ p.value.map trim = p.value := by
    rw [not_mem_text_iff hp]
    unfold Param.Clean
    cases p.value with
    | none => simp
    | some v => simp
  rw [hclean]
  constructor
  · intro h
    have hlen := congrArg List.length h
    rw [read, List.length_map, List.length_splitOn, hblank, List.length_singleton] at hlen
    have hnone : 59 ∉ p.text := List.count_eq_zero.mp (by omega)
    have hsplit : (32 :: p.text).splitOn 59 = [32 :: p.text] :=
      List.splitOn_eq_singleton (by simp [hnone])
    rw [read, hsplit, List.map_singleton, read_blank, read_text hp] at h
    exact ⟨hnone, congrArg Param.value (List.singleton_inj.mp h)⟩
  · rintro ⟨hnone, hvalue⟩
    have hsplit : (32 :: p.text).splitOn 59 = [32 :: p.text] :=
      List.splitOn_eq_singleton (by simp [hnone])
    rw [read, hsplit, List.map_singleton, read_blank, read_text hp, hvalue]

/-- The first parameter is read up to the first separator, and each later one by itself. -/
theorem read_print {p : Param} (hp : p.Plain) (hclean : p.Clean) (ps : List Param) :
    read (print p ps) = p :: ps.flatMap fun q => read (32 :: q.text) := by
  have hnone : 59 ∉ p.text := (not_mem_text_iff hp).mpr fun v hv => (hclean v hv).1
  have htrim : p.value.map trim = p.value := by
    cases hv : p.value with
    | none => rfl
    | some v => exact congrArg some (hclean v hv).2
  have hrest : ∀ (piece : List UInt8) (ps : List Param),
      read (piece ++ ps.flatMap fun q => 59 :: 32 :: q.text) =
        read piece ++ ps.flatMap fun q => read (32 :: q.text) := by
    intro piece ps
    induction ps generalizing piece with
    | nil => simp
    | cons q ps ih =>
      rw [List.flatMap_cons, List.flatMap_cons, List.cons_append, read,
        List.splitOn_append_cons_self, List.map_append]
      exact congrArg (read piece ++ ·) (ih (32 :: q.text))
  have hfirst : read p.text = [p] := by
    rw [read, List.splitOn_eq_singleton hnone, List.map_singleton, read_text hp, htrim]
  rw [print, hrest, hfirst]
  rfl

/-- **What was written is read back iff the values are clean.** -/
theorem read_print_iff {p : Param} (hp : p.Plain) (hclean : p.Clean) {ps : List Param}
    (hps : ∀ q ∈ ps, q.Plain) : read (print p ps) = p :: ps ↔ ∀ q ∈ ps, q.Clean := by
  have hne : ∀ q : Param, read (32 :: q.text) ≠ [] := by
    intro q h
    exact List.splitOn_ne_nil 59 _ (List.map_eq_nil_iff.mp h)
  rw [read_print hp hclean, List.cons_inj_right, List.flatMap_eq_self_iff hne]
  exact forall₂_congr fun q hq => read_later_iff (hps q hq)

example : read (print ⟨[97], some [49]⟩ [⟨[98], none⟩, ⟨[99], some [61]⟩]) =
    [⟨[97], some [49]⟩, ⟨[98], none⟩, ⟨[99], some [61]⟩] := by decide

end Params
