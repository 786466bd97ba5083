import Finchers.Common
import Mathlib.Data.Fin.Tuple.Basic

/-!
# Tuples

A tuple has a component at each position.  The source converts tuples to heterogeneous lists and
back, and combines two of them as lists.

* `Tuple.hlist`, `HList.tuple` — the conversions, which are inverse to each other;
* `HList.components` — the components of a list with their types; `components_combine` — the
  components of a combination are those of both sides;
* `HList.combine_assoc` — **combining is associative**, and `()` is neutral.
-/

set_option autoImplicit false

namespace Finchers

variable {ts us vs : List Type}

/-- A tuple with components of the types `ts`. -/
def Tuple (ts : List Type) : Type := (i : Fin ts.length) → ts.get i

/-- `Tuple::hlist`. -/
def Tuple.hlist : {ts : List Type} → Tuple ts → HList ts
  | [], _ => HList.nil
  | _ :: ts, x =>
    let tail : Tuple ts := fun i => x i.succ
    (x ⟨0, Nat.succ_pos _⟩, tail.hlist)

/-- `HList::tuple`. -/
def HList.tuple : {ts : List Type} → HList ts → Tuple ts
  | [], _ => fun i => i.elim0
  | _ :: _, (head, tail) => Fin.cons head tail.tuple

/-- `Combine::combine`. -/
def Tuple.combine (x : Tuple ts) (y : Tuple us) : Tuple (ts ++ us) := (x.hlist.combine y.hlist).tuple

theorem HList.hlist_tuple (l : HList ts) : l.tuple.hlist = l := by
  induction ts with
  | nil => rfl
  | cons t ts ih =>
    obtain ⟨head, tail⟩ := l
    exact congrArg (Prod.mk head) (ih tail)

theorem Tuple.tuple_hlist (x : Tuple ts) : x.hlist.tuple = x := by
  induction ts with
  | nil =>
    funext i
    exact i.elim0
  | cons t ts ih =>
    funext i
    refine Fin.cases rfl (fun j => ?_) i
    exact congrFun (ih fun i => x i.succ) j

/-! ## Components -/

namespace HList

/-- The components, each with its type. -/
def components : {ts : List Type} → HList ts → List (Σ T : Type, T)
  | [], _ => []
  | t :: _, (head, tail) => ⟨t, head⟩ :: tail.components

/-- **The components of a combination are those of both sides.** -/
theorem components_combine (x : HList ts) (y : HList us) :
    (x.combine y).components = x.components ++ y.components := by
  induction ts with
  | nil => rfl
  | cons t ts ih =>
    obtain ⟨head, tail⟩ := x
    exact congrArg (List.cons ⟨t, head⟩) (ih tail)

end HList

theorem Tuple.components_combine (x : Tuple ts) (y : Tuple us) :
    (x.combine y).hlist.components = x.hlist.components ++ y.hlist.components := by
  rw [combine, HList.hlist_tuple, HList.components_combine]

/-! ## Associativity -/

namespace HList

/-- The same list under another name of its type. -/
def retype (h : ts = us) (x : HList ts) : HList us := h ▸ x

theorem retype_cons {T : Type} (h : ts = us) (head : T) (tail : HList ts) :
    retype (congrArg (List.cons T) h) (head, tail) = (head, retype h tail) := by
  subst h
  rfl

/-- **Combining is associative.** -/
theorem combine_assoc (x : HList ts) (y : HList us) (z : HList vs) :
    retype (List.append_assoc ts us vs) ((x.combine y).combine z) = x.combine (y.combine z) := by
  induction ts with
  | nil => rfl
  | cons t ts ih =>
    obtain ⟨head, tail⟩ := x
    refine (retype_cons (List.append_assoc ts us vs) head ((tail.combine y).combine z)).trans ?_
    exact congrArg (Prod.mk head) (ih tail)

/-- `()` is neutral on the right. -/
theorem combine_nil (x : HList ts) : retype (List.append_nil ts) (x.combine HList.nil) = x := by
  induction ts with
  | nil => rfl
  | cons t ts ih =>
    obtain ⟨head, tail⟩ := x
    refine (retype_cons (List.append_nil ts) head (tail.combine HList.nil)).trans ?_
    exact congrArg (Prod.mk head) (ih tail)

end HList

end Finchers
