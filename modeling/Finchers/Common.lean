import Mathlib.Data.List.Basic

/-!
# Tuples as heterogeneous lists

The output of an endpoint is a tuple; the source converts tuples to heterogeneous lists
(`HNil`, `HCons`) and back, and combines two outputs by concatenating the lists.  A tuple is
modelled by its heterogeneous list.
-/

set_option autoImplicit false

namespace Finchers

/-- `HNil` / `HCons`, indexed by the types of the components. -/
def HList : List Type → Type
  | [] => Unit
  | t :: ts => t × HList ts

/-- The tuple `()`. -/
def HList.nil : HList [] := ()

/-- The tuple `(x,)`. -/
def HList.single {T : Type} (x : T) : HList [T] := (x, ())

/-- The component of a tuple `(x,)`. -/
def HList.head {T : Type} {ts : List Type} (l : HList (T :: ts)) : T := l.1

@[simp] theorem HList.head_single {T : Type} (x : T) : (HList.single x).head = x := rfl

/-- `CombineList::combine`. -/
def HList.combine : {ts us : List Type} → HList ts → HList us → HList (ts ++ us)
  | [], _, _, other => other
  | _ :: _, _, (h, tail), other => (h, HList.combine tail other)

/-- A sequence that returned. -/
theorem bind_eq_ok_iff {E A B : Type} {x : Except E A} {f : A → Except E B} {b : B} :
    (x >>= f) = .ok b ↔ ∃ a, x = .ok a ∧ f a = .ok b := by
  cases x <;> simp [bind, Except.bind]

end Finchers
