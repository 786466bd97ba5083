import Finchers.Lib.Machine

/-!
# Machines that answer alike

Two machines whose polls answer alike: the same result, the same events and the same output up to
renaming, and states that are related again wherever both are not ready.

* `AlikeOn` — two outcomes of a poll; `Bisim` — related states have such outcomes;
* `Bisim.of_liftPoll` — **a machine that passes every poll on answers alike**.
-/

set_option autoImplicit false

namespace Resumable

variable {P Ev Ev' E T U σ μ W : Type}

/-- Two outcomes of a poll, the second with the events `g` and the output `f` of the first; `R`
relates the states they leave behind. -/
inductive AlikeOn (g : Ev → Ev') (f : T → U) (R : σ → μ → Prop) :
    Traced P Ev (Poll E T × σ × W) → Traced P Ev' (Poll E U × μ × W) → Prop
  | panic {l : List Ev} {l' : List Ev'} {p : P} (hl : l.map g = l') :
      AlikeOn g f R ⟨l, .error p⟩ ⟨l', .error p⟩
  | ready {l : List Ev} {l' : List Ev'} {x : T} {s : σ} {m : μ} {w : W} (hl : l.map g = l') :
      AlikeOn g f R ⟨l, .ok (.ok (.ready x), s, w)⟩ ⟨l', .ok (.ok (.ready (f x)), m, w)⟩
  | err {l : List Ev} {l' : List Ev'} {e : E} {s : σ} {m : μ} {w : W} (hl : l.map g = l') :
      AlikeOn g f R ⟨l, .ok (.error e, s, w)⟩ ⟨l', .ok (.error e, m, w)⟩
  | notReady {l : List Ev} {l' : List Ev'} {s : σ} {m : μ} {w : W} (hl : l.map g = l')
      (h : R s m) :
      AlikeOn g f R ⟨l, .ok (.ok .notReady, s, w)⟩ ⟨l', .ok (.ok .notReady, m, w)⟩

/-- Polls from related states answer alike. -/
def Bisim (g : Ev → Ev') (f : T → U) (R : σ → μ → Prop) (A : PollFn P Ev E σ W T)
    (B : PollFn P Ev' E μ W U) : Prop :=
  ∀ {s m}, R s m → ∀ w, AlikeOn g f R (A s w) (B m w)

/-- The same events before both outcomes. -/
theorem AlikeOn.prepend {g : Ev → Ev'} {f : T → U} {R : σ → μ → Prop}
    {t : Traced P Ev (Poll E T × σ × W)} {t' : Traced P Ev' (Poll E U × μ × W)}
    (h : AlikeOn g f R t t') {l : List Ev} {l' : List Ev'} (hl : l.map g = l') :
    AlikeOn g f R (t.prepend l) (t'.prepend l') := by
  have happ : ∀ {l₁ : List Ev} {l₁' : List Ev'}, l₁.map g = l₁' → (l ++ l₁).map g = l' ++ l₁' := by
    intro l₁ l₁' hl₁
    rw [List.map_append, hl, hl₁]
  cases h with
  | panic hl₁ => exact .panic (happ hl₁)
  | ready hl₁ => exact .ready (happ hl₁)
  | err hl₁ => exact .err (happ hl₁)
  | notReady hl₁ h => exact .notReady (happ hl₁) h

/-- A machine that passes every poll on answers like the one it passes them to. -/
theorem Bisim.of_liftPoll {g : Ev → Ev'} {f : T → U} {i : σ → μ} {A : PollFn P Ev E σ W T}
    {B : PollFn P Ev' E μ W U} (h : ∀ s w, B (i s) w = liftPoll g f i (A s w)) :
    Bisim g f (fun s m => m = i s) A B := by
  rintro s m rfl w
  rw [h]
  rcases (A s w).eq_ok_or_error with ⟨l, ⟨r, s', w'⟩, hA⟩ | ⟨l, p, hA⟩
  · rw [hA, liftPoll_mk_ok]
    match r with
    | .ok (.ready x) => exact .ready rfl
    | .ok .notReady => exact .notReady rfl rfl
    | .error e => exact .err rfl
  · rw [hA, liftPoll_mk_error]
    exact .panic rfl

end Resumable
