import Finchers.Lib.Traced
import Finchers.Lib.Run

/-!
# Monitored computations

A monitor reads the events that a computation records and rejects what must not happen.
`Accepts step ok m t Q` says that the monitor, started in `m`, accepts all events of `t`, that
`t` panics only as `ok` allows, and that `Q` holds of its result and of where the monitor is then.

* `accepts_pure`, `accepts_emit`, `accepts_mk_error` — the single steps;
* `accepts_bind` — **sequencing**;
* `Accepts.mono` — weakening the postcondition;
* `accepts_mapLog` — renamed events, read by a monitor that another one simulates;
* `Within`, `within_bind`, `within_mapLog` — the same for a monitor without memory, which allows some
  events and no others.
-/

set_option autoImplicit false

namespace Resumable

open Transition

variable {P Ev Ev' M N α β : Type} {step : M → Ev → Option M} {ok : P → Prop}

/-- The monitor accepts the events of `t`, its panic is allowed, and `Q` holds of its result. -/
structure Accepts (step : M → Ev → Option M) (ok : P → Prop) (m : M) (t : Traced P Ev α)
    (Q : α → M → Prop) : Prop where
  log : ∃ m', run step m t.log = some m' ∧ ∀ a, t.res = .ok a → Q a m'
  res : ∀ p, t.res = .error p → ok p

theorem accepts_pure {m : M} {a : α} {Q : α → M → Prop} (h : Q a m) :
    Accepts step ok m (pure a) Q where
  log := ⟨m, rfl, fun _ ha => by cases ha; exact h⟩
  res _ hp := by cases hp

theorem accepts_emit {m m' : M} {e : Ev} {Q : Unit → M → Prop} (he : step m e = some m')
    (h : Q () m') : Accepts step ok m (Traced.emit e) Q where
  log := ⟨m', run_cons.mpr ⟨m', he, rfl⟩, fun _ ha => by cases ha; exact h⟩
  res _ hp := by cases hp

/-- A computation that records one event and returns. -/
theorem accepts_mk_ok {m m' : M} {e : Ev} {a : α} {Q : α → M → Prop} (he : step m e = some m')
    (h : Q a m') : Accepts step ok m ⟨[e], .ok a⟩ Q where
  log := ⟨m', run_cons.mpr ⟨m', he, rfl⟩, fun _ ha => by cases ha; exact h⟩
  res _ hp := by cases hp

/-- A computation that records one event and panics. -/
theorem accepts_mk_error {m m' : M} {e : Ev} {p : P} {Q : α → M → Prop} (he : step m e = some m')
    (hp : ok p) : Accepts step ok m ⟨[e], .error p⟩ Q where
  log := ⟨m', run_cons.mpr ⟨m', he, rfl⟩, fun _ ha => by cases ha⟩
  res _ hp' := by cases hp'; exact hp

/-- Sequencing: the continuation is accepted from where the monitor is then. -/
theorem accepts_bind {m : M} {t : Traced P Ev α} {f : α → Traced P Ev β} {Q : β → M → Prop}
    (h : Accepts step ok m t fun a m' => Accepts step ok m' (f a) Q) :
    Accepts step ok m (t >>= f) Q := by
  obtain ⟨⟨m', hm, hQ⟩, hres⟩ := h
  obtain ⟨l, r⟩ := t
  cases r with
  | error p =>
    exact ⟨⟨m', hm, fun _ ha => by cases ha⟩, fun q hq => by cases hq; exact hres p rfl⟩
  | ok a =>
    obtain ⟨⟨m'', hm'', hQ'⟩, hres'⟩ := hQ a rfl
    exact ⟨⟨m'', run_append.mpr ⟨m', hm, hm''⟩, hQ'⟩, hres'⟩

theorem Accepts.mono {m : M} {t : Traced P Ev α} {Q Q' : α → M → Prop}
    (h : Accepts step ok m t Q) (hQ : ∀ a m', Q a m' → Q' a m') : Accepts step ok m t Q' := by
  obtain ⟨⟨m', hm, h⟩, hres⟩ := h
  exact ⟨⟨m', hm, fun a ha => hQ a m' (h a ha)⟩, hres⟩

/-- If every step of one monitor is one of the other, under the renaming `g` of events and the
embedding `put` of states, then what the one accepts is accepted by the other. -/
theorem accepts_mapLog {step' : N → Ev' → Option N} {g : Ev → Ev'} {put : M → N}
    (hstep : ∀ {m e m'}, step m e = some m' → step' (put m) (g e) = some (put m')) {m : M}
    {t : Traced P Ev α} {Q : α → M → Prop} (h : Accepts step ok m t Q) :
    Accepts step' ok (put m) (t.mapLog g) fun a n => ∃ m', n = put m' ∧ Q a m' := by
  obtain ⟨⟨m', hm, hQ⟩, hres⟩ := h
  have hrun : ∀ (l : List Ev) (m : M), run step m l = some m' →
      run step' (put m) (l.map g) = some (put m') := by
    intro l
    induction l with
    | nil =>
      intro m hm
      cases hm
      rfl
    | cons e l ih =>
      intro m hm
      obtain ⟨m₁, h₁, hm⟩ := run_cons.mp hm
      exact run_cons.mpr ⟨put m₁, hstep h₁, ih m₁ hm⟩
  exact ⟨⟨put m', hrun t.log m hm, fun a ha => ⟨m', rfl, hQ a ha⟩⟩, hres⟩

/-! ## Monitors without memory -/

/-- All events of `t` are allowed, and `Q` holds of its result. -/
structure Within (allowed : Ev → Prop) (t : Traced P Ev α) (Q : α → Prop) : Prop where
  log : ∀ e ∈ t.log, allowed e
  res : ∀ a, t.res = .ok a → Q a

section

variable {allowed : Ev → Prop} {allowed' : Ev' → Prop}

theorem within_pure {a : α} {Q : α → Prop} (h : Q a) :
    Within (P := P) allowed (pure a) Q where
  log _ he := by cases he
  res _ ha := by cases ha; exact h

theorem within_panic {p : P} {Q : α → Prop} : Within allowed (Traced.panic p) Q where
  log _ he := by cases he
  res _ ha := by cases ha

/-- A computation that has recorded `l`. -/
theorem within_mk_ok {l : List Ev} {a : α} {Q : α → Prop} (hl : ∀ e ∈ l, allowed e) (h : Q a) :
    Within (P := P) allowed ⟨l, .ok a⟩ Q where
  log := hl
  res _ ha := by cases ha; exact h

theorem within_mk_error {l : List Ev} {p : P} {Q : α → Prop} (hl : ∀ e ∈ l, allowed e) :
    Within allowed ⟨l, .error p⟩ Q where
  log := hl
  res _ ha := by cases ha

theorem within_bind {t : Traced P Ev α} {f : α → Traced P Ev β} {Q : β → Prop}
    (h : Within allowed t fun a => Within allowed (f a) Q) : Within allowed (t >>= f) Q := by
  obtain ⟨hlog, hres⟩ := h
  obtain ⟨l, r⟩ := t
  cases r with
  | error p => exact ⟨hlog, fun _ ha => by cases ha⟩
  | ok a =>
    obtain ⟨hlog', hres'⟩ := hres a rfl
    refine ⟨fun e he => ?_, hres'⟩
    rcases List.mem_append.mp he with he | he
    · exact hlog e he
    · exact hlog' e he

theorem Within.mono {t : Traced P Ev α} {Q Q' : α → Prop} (h : Within allowed t Q)
    (hQ : ∀ a, Q a → Q' a) : Within allowed t Q' :=
  ⟨h.log, fun a ha => hQ a (h.res a ha)⟩

theorem within_mapLog (g : Ev → Ev') (hg : ∀ e, allowed e → allowed' (g e)) {t : Traced P Ev α}
    {Q : α → Prop} (h : Within allowed t Q) : Within allowed' (t.mapLog g) Q := by
  refine ⟨fun e he => ?_, h.res⟩
  obtain ⟨e₀, he₀, rfl⟩ := List.mem_map.mp he
  exact hg e₀ (h.log e₀ he₀)

end

end Resumable
