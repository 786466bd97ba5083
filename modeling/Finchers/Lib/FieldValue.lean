import Mathlib.Data.List.Basic

/-!
# Header fields as lists

The lines of a header field make up one value, joined by commas, and the value can be read as a
list of elements between commas; white space around an element and the case of its letters do
not matter.

* `joined` — the value of a field; `joined_eq_some_iff` — a value without a comma is a single line;
* `elements` — the elements of a value; `HasElement` — a field has an element;
* `hasElement_iff` — **a field has the elements that its lines have**.
-/

set_option autoImplicit false

namespace FieldValue

/-- A line, or a value, by its bytes. -/
abbrev Line := List UInt8

/-- The lines of a field as one value: a comma and a blank stand between them. -/
def joined : List Line → Option Line
  | [] => none
  | line :: lines => some (line ++ lines.flatMap fun l => 44 :: 32 :: l)

/-- Blanks and tabs. -/
def isSpace (b : UInt8) : Bool := b == 32 || b == 9

/-- Without the white space around it. -/
def trim (l : Line) : Line := ((l.dropWhile isSpace).reverse.dropWhile isSpace).reverse

/-- A letter in lower case. -/
def lower (b : UInt8) : UInt8 := if 65 ≤ b ∧ b ≤ 90 then b + 32 else b

/-- An element as it is compared. -/
def element (l : Line) : Line := (trim l).map lower

/-- The elements between the commas of a value. -/
def elements (l : Line) : List Line := (l.splitOn 44).map element

/-- The field has the element `e`, which is in lower case. -/
def HasElement (lines : List Line) (e : Line) : Prop := ∃ v, joined lines = some v ∧ e ∈ elements v

/-! ## Single lines -/

/-- A value without a comma is that of a single line. -/
theorem joined_eq_some_iff {lines : List Line} {v : Line} (hv : 44 ∉ v) :
    joined lines = some v ↔ lines = [v] := by
  cases lines with
  | nil => simp [joined]
  | cons line lines =>
    constructor
    · intro h
      have hline := Option.some.inj h
      cases lines with
      | nil =>
        rw [List.flatMap_nil, List.append_nil] at hline
        rw [hline]
      | cons l ls =>
        refine absurd ?_ hv
        rw [← hline]
        simp
    · intro h
      rw [h]
      simp [joined]

/-! ## Elements -/

/-- An element after a blank. -/
theorem element_blank (l : Line) : element (32 :: l) = element l := by
  have hspace : isSpace 32 = true := rfl
  unfold element trim
  rw [List.dropWhile_cons_of_pos hspace]

theorem elements_blank (l : Line) : elements (32 :: l) = elements l := by
  have hne : ((32 : UInt8) == 44) = false := rfl
  obtain ⟨e, es, hsplit⟩ := List.exists_cons_of_ne_nil (List.splitOn_ne_nil 44 l)
  unfold elements
  rw [List.splitOn_cons_eq_if_modifyHead, hne, if_neg Bool.false_ne_true, hsplit]
  simp only [List.modifyHead_cons, List.map_cons, element_blank]

/-- The elements on both sides of a comma. -/
theorem elements_append_comma (a b : Line) : elements (a ++ 44 :: b) = elements a ++ elements b := by
  unfold elements
  rw [List.splitOn_append_cons_self, List.map_append]

theorem elements_joined (line : Line) (lines : List Line) :
    elements (line ++ lines.flatMap fun l => 44 :: 32 :: l) =
      elements line ++ lines.flatMap elements := by
  induction lines generalizing line with
  | nil => simp
  | cons l ls ih =>
    rw [List.flatMap_cons, List.cons_append, List.cons_append, elements_append_comma,
      elements_blank, ih, List.flatMap_cons]

/-- **A field has the elements that its lines have.** -/
theorem hasElement_iff {lines : List Line} {e : Line} :
    HasElement lines e ↔ ∃ line ∈ lines, e ∈ elements line := by
  unfold HasElement
  cases lines with
  | nil => simp [joined]
  | cons line lines =>
    simp only [joined, Option.some.injEq, exists_eq_left', elements_joined, List.mem_append,
      List.mem_flatMap, List.mem_cons, exists_eq_or_imp]

end FieldValue
