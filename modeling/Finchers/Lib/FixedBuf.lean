import Mathlib.Data.List.Basic

/-!
# Writing into a buffer that does not grow

A buffer with a fixed capacity: a write stores as many bytes as there is room for.  `writeAll`
repeats it until everything is stored and fails with `writeZero` once a write stores nothing;
`writeFmt` writes the pieces of a formatted text one after the other and stops at the first
failure.

* `writeAll_spec`, `writeFmt_data` — what ends up in the buffer is the text, cut off at the
  capacity.
-/

set_option autoImplicit false

/-- The bytes stored, within the capacity. -/
structure FixedBuf where
  data : List UInt8
  capacity : Nat
  fits : data.length ≤ capacity

namespace FixedBuf

inductive WriteError where
  | writeZero
  deriving DecidableEq, Repr

def empty (capacity : Nat) : FixedBuf := ⟨[], capacity, Nat.zero_le _⟩

/-- The room that is left. -/
def remaining (b : FixedBuf) : Nat := b.capacity - b.data.length

/-- Store a prefix of `src`, as long as there is room; the result says how much was stored. -/
def write (b : FixedBuf) (src : List UInt8) : Nat × FixedBuf :=
  let n := min b.remaining src.length
  (n, ⟨b.data ++ src.take n, b.capacity, by
    have := b.fits
    simp only [List.length_append, List.length_take, remaining, n]
    omega⟩)

def writeAll (b : FixedBuf) (src : List UInt8) : Except WriteError Unit × FixedBuf :=
  if src = [] then (.ok (), b)
  else
    match b.write src with
    | (0, b') => (.error .writeZero, b')
    | (n + 1, b') => writeAll b' (src.drop (n + 1))
termination_by src.length
decreasing_by
  rename_i hsrc
  have := List.length_pos_of_ne_nil hsrc
  simp only [List.length_drop]
  omega

def writeFmt (b : FixedBuf) : List (List UInt8) → Except WriteError Unit × FixedBuf
  | [] => (.ok (), b)
  | piece :: pieces =>
    match b.writeAll piece with
    | (.ok (), b') => b'.writeFmt pieces
    | (.error e, b') => (.error e, b')

/-- The buffer after storing as much of `src` as there is room for. -/
def fill (b : FixedBuf) (src : List UInt8) : FixedBuf := (b.write src).2

theorem fill_data (b : FixedBuf) (src : List UInt8) :
    (b.fill src).data = b.data ++ src.take b.remaining := by
  have h : src.take (min b.remaining src.length) = src.take b.remaining := by
    rw [List.take_eq_take_iff]
    omega
  simp only [fill, write, h]

theorem fill_remaining (b : FixedBuf) (src : List UInt8) :
    (b.fill src).remaining = b.remaining - src.length := by
  have := b.fits
  simp only [remaining, fill, write, List.length_append, List.length_take]
  omega

theorem ext {b c : FixedBuf} (hd : b.data = c.data) (hc : b.capacity = c.capacity) : b = c := by
  cases b; cases c; cases hd; cases hc; rfl

/-- `writeAll` stores what fits, and succeeds iff that is everything. -/
theorem writeAll_spec (b : FixedBuf) (src : List UInt8) :
    b.writeAll src =
      (if src.length ≤ b.remaining then .ok () else .error .writeZero, b.fill src) := by
  have hfits := b.fits
  by_cases hsrc : src = []
  · subst hsrc
    rw [writeAll, if_pos rfl, List.length_nil, if_pos (Nat.zero_le _)]
    exact congrArg _ (ext (by rw [fill_data, List.take_nil, List.append_nil]) rfl)
  have hpos := List.length_pos_of_ne_nil hsrc
  rw [writeAll, if_neg hsrc]
  by_cases hle : src.length ≤ b.remaining
  · -- one write stores everything, and nothing is left for the next one
    obtain ⟨n, hn⟩ : ∃ n, src.length = n + 1 := ⟨src.length - 1, by omega⟩
    have hw : b.write src = (n + 1, b.fill src) := by
      simp only [fill, write, Prod.mk.injEq, and_true]
      omega
    rw [if_pos hle, hw]
    simp only
    rw [List.drop_of_length_le (by omega), writeAll, if_pos rfl]
  · rw [if_neg hle]
    by_cases hz : b.remaining = 0
    · have hw : b.write src = (0, b.fill src) := by
        simp only [fill, write, Prod.mk.injEq, and_true]
        omega
      rw [hw]
    · -- the first write fills the buffer, the second one stores nothing
      obtain ⟨n, hn⟩ : ∃ n, b.remaining = n + 1 := ⟨b.remaining - 1, by omega⟩
      have hw : b.write src = (n + 1, b.fill src) := by
        simp only [fill, write, Prod.mk.injEq, and_true]
        omega
      have hne : src.drop (n + 1) ≠ [] := by
        rw [Ne, List.drop_eq_nil_iff]
        omega
      have hz' : (b.fill src).remaining = 0 := by
        rw [fill_remaining]
        omega
      have hw' : (b.fill src).write (src.drop (n + 1)) = (0, b.fill src) := by
        simp only [write, hz', Nat.zero_min, List.take_zero, List.append_nil]
      rw [hw]
      simp only
      rw [writeAll, if_neg hne, hw']

theorem fill_fill (b : FixedBuf) (s t : List UInt8) : (b.fill s).fill t = b.fill (s ++ t) := by
  refine ext ?_ rfl
  rw [fill_data, fill_data, fill_data, fill_remaining, List.append_assoc, List.take_append]

theorem fill_eq_self {b : FixedBuf} (h : b.remaining = 0) (s : List UInt8) : b.fill s = b := by
  refine ext ?_ rfl
  rw [fill_data, h, List.take_zero, List.append_nil]

/-- Whether or not a piece failed to fit, the buffer holds the text up to the capacity. -/
theorem writeFmt_snd (b : FixedBuf) (pieces : List (List UInt8)) :
    (b.writeFmt pieces).2 = b.fill pieces.flatten := by
  induction pieces generalizing b with
  | nil =>
    rw [writeFmt, List.flatten_nil]
    exact ext (by rw [fill_data, List.take_nil, List.append_nil]) rfl
  | cons piece pieces ih =>
    rw [writeFmt, writeAll_spec]
    by_cases hle : piece.length ≤ b.remaining
    · rw [if_pos hle]
      simp only
      rw [ih, fill_fill, List.flatten_cons]
    · rw [if_neg hle]
      have hz : (b.fill piece).remaining = 0 := by
        rw [fill_remaining]
        omega
      rw [List.flatten_cons, ← fill_fill, fill_eq_self hz]

/-- Into an empty buffer, a formatted text is cut off at the capacity. -/
theorem writeFmt_data (capacity : Nat) (pieces : List (List UInt8)) :
    ((empty capacity).writeFmt pieces).2.data = pieces.flatten.take capacity := by
  rw [writeFmt_snd, fill_data]
  simp [empty, remaining]

end FixedBuf
