import Mathlib.Data.List.Basic

/-!
# Computations with a log that may panic

`Traced P E α` is the result of a computation that records events of type `E` while it runs
and ends with a value or with a panic of type `P`.  The log of a panicking computation is
kept: it says what happened up to the panic.

* `Traced.bind_eq` — a computation that returned is followed by its continuation, and the
  logs are concatenated;
* `Traced.bind_eq_ok_iff` — the inversion: a sequence that returned, returned at each step;
* `Traced.mapLog` — renaming the events, which commutes with everything else.
-/

set_option autoImplicit false

namespace Resumable

/-- A log of events and a value, or the panic that ended the computation. -/
structure Traced (P E α : Type) where
  log : List E
  res : Except P α

namespace Traced

variable {P E E' α β : Type}

@[ext] theorem ext {m n : Traced P E α} (hl : m.log = n.log) (hr : m.res = n.res) : m = n := by
  cases m; cases n; cases hl; cases hr; rfl

/-- A computation that returns at once and records nothing. -/
protected def pure (a : α) : Traced P E α := ⟨[], .ok a⟩

/-- Sequencing; a panic skips the continuation. -/
protected def bind (m : Traced P E α) (f : α → Traced P E β) : Traced P E β :=
  match m.res with
  | .error p => ⟨m.log, .error p⟩
  | .ok a => ⟨m.log ++ (f a).log, (f a).res⟩

instance : Monad (Traced P E) where
  pure := Traced.pure
  bind := Traced.bind

/-- A computation that panics. -/
def panic (p : P) : Traced P E α := ⟨[], .error p⟩

/-- Record one event. -/
def emit (e : E) : Traced P E Unit := ⟨[e], .ok ()⟩

/-- Rename the recorded events. -/
def mapLog (g : E → E') (m : Traced P E α) : Traced P E' α := ⟨m.log.map g, m.res⟩

/-- The same computation after some events have already been recorded. -/
def prepend (l : List E) (m : Traced P E α) : Traced P E α := ⟨l ++ m.log, m.res⟩

@[simp] theorem pure_def (a : α) : (pure a : Traced P E α) = ⟨[], .ok a⟩ := rfl

@[simp] theorem panic_log (p : P) : (panic p : Traced P E α).log = [] := rfl

@[simp] theorem panic_res (p : P) : (panic p : Traced P E α).res = .error p := rfl

@[simp] theorem prepend_res (l : List E) (m : Traced P E α) : (m.prepend l).res = m.res := rfl

@[simp] theorem mapLog_log (g : E → E') (m : Traced P E α) : (m.mapLog g).log = m.log.map g := rfl

@[simp] theorem mapLog_res (g : E → E') (m : Traced P E α) : (m.mapLog g).res = m.res := rfl

theorem prepend_nil (m : Traced P E α) : m.prepend [] = m := rfl

theorem prepend_prepend (l l' : List E) (m : Traced P E α) :
    (m.prepend l').prepend l = m.prepend (l ++ l') := by
  simp [prepend]

/-- A computation that returned is followed by its continuation. -/
theorem bind_eq {m : Traced P E α} {l : List E} {a : α} (h : m = ⟨l, .ok a⟩)
    (f : α → Traced P E β) : m >>= f = (f a).prepend l := by
  subst h; rfl

@[simp] theorem mk_ok_bind (l : List E) (a : α) (f : α → Traced P E β) :
    ((⟨l, .ok a⟩ : Traced P E α) >>= f) = (f a).prepend l := rfl

@[simp] theorem mk_error_bind (l : List E) (p : P) (f : α → Traced P E β) :
    ((⟨l, .error p⟩ : Traced P E α) >>= f) = ⟨l, .error p⟩ := rfl

@[simp] theorem emit_bind (e : E) (f : Unit → Traced P E β) :
    (emit e >>= f) = (f ()).prepend [e] := rfl

@[simp] theorem prepend_mk (l l' : List E) (r : Except P α) :
    (⟨l', r⟩ : Traced P E α).prepend l = ⟨l ++ l', r⟩ := rfl

@[simp] theorem mapLog_mk (g : E → E') (l : List E) (r : Except P α) :
    (⟨l, r⟩ : Traced P E α).mapLog g = ⟨l.map g, r⟩ := rfl

theorem prepend_eq_mk_iff {l l' : List E} {m : Traced P E α} {r : Except P α} :
    m.prepend l = ⟨l', r⟩ ↔ ∃ l₁, m = ⟨l₁, r⟩ ∧ l' = l ++ l₁ := by
  refine ⟨fun h => ?_, fun h => ?_⟩
  · have hlog : l ++ m.log = l' := congrArg Traced.log h
    have hres : m.res = r := congrArg Traced.res h
    exact ⟨m.log, Traced.ext rfl hres, hlog.symm⟩
  · obtain ⟨l₁, rfl, rfl⟩ := h
    rfl

theorem mapLog_prepend (g : E → E') (l : List E) (m : Traced P E α) :
    (m.prepend l).mapLog g = (m.mapLog g).prepend (l.map g) := by
  simp [prepend, mapLog]

/-- What was recorded before a sequence was recorded before its first step. -/
theorem prepend_bind (l : List E) (m : Traced P E α) (f : α → Traced P E β) :
    m.prepend l >>= f = (m >>= f).prepend l := by
  obtain ⟨lm, r⟩ := m
  cases r with
  | error p => rfl
  | ok a =>
    rw [prepend_mk, mk_ok_bind, mk_ok_bind, prepend_prepend]

/-- A sequence that returned, returned at each step. -/
theorem bind_eq_ok_iff {m : Traced P E α} {f : α → Traced P E β} {l : List E} {b : β} :
    m >>= f = ⟨l, .ok b⟩ ↔
      ∃ l₁ a l₂, m = ⟨l₁, .ok a⟩ ∧ f a = ⟨l₂, .ok b⟩ ∧ l = l₁ ++ l₂ := by
  constructor
  · intro h
    obtain ⟨ml, mr⟩ := m
    cases mr with
    | error p => cases h
    | ok a =>
      refine ⟨ml, a, (f a).log, rfl, ?_, ?_⟩
      · have hr := congrArg Traced.res h
        exact Traced.ext rfl hr
      · exact (congrArg Traced.log h).symm
  · rintro ⟨l₁, a, l₂, rfl, hf, rfl⟩
    rw [mk_ok_bind, hf, prepend_mk]

theorem mapLog_bind (g : E → E') (m : Traced P E α) (f : α → Traced P E β) :
    (m >>= f).mapLog g = m.mapLog g >>= fun a => (f a).mapLog g := by
  obtain ⟨l, r⟩ := m
  cases r with
  | error p => rfl
  | ok a =>
    rw [mk_ok_bind, mapLog_prepend]
    rfl

/-- The result of a sequence does not depend on the logs. -/
theorem bind_res (m : Traced P E α) (f : α → Traced P E β) :
    (m >>= f).res = m.res >>= fun a => (f a).res := by
  obtain ⟨l, r⟩ := m
  cases r <;> rfl

/-- Every computation returned or panicked. -/
theorem eq_ok_or_error (m : Traced P E α) :
    (∃ l a, m = ⟨l, .ok a⟩) ∨ ∃ l p, m = ⟨l, .error p⟩ := by
  obtain ⟨l, r⟩ := m
  cases r with
  | error p => exact Or.inr ⟨l, p, rfl⟩
  | ok a => exact Or.inl ⟨l, a, rfl⟩

end Traced

end Resumable
