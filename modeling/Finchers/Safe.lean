import Finchers.Conformance
import Finchers.Recovered

/-!
# Runs that do not panic

No site of the combinators panics in a run, whatever the leaves do.  A leaf that does not panic as
long as it is called in the right order, with a cursor that stands in the path, does not panic in a
run either.

* `Cursor.PopsTo` — from one position to another by popping segments;
* `Sound` — a computation that does not panic, sites of the library apart;
* `Safe` — an action with an invariant between its calls, which moves the cursor by segments only;
* `safe_and` … — one lemma for each combinator;
* `Endpoint.LeavesSafe`, `Endpoint.safe` — by induction on the tree;
* `drive_safe` — **a run of an endpoint with such leaves returns**.
-/

set_option autoImplicit false

namespace Finchers

open Resumable

variable {ε Bd Env σ τ : Type} {ts us : List Type}

/-! ## Cursors -/

namespace Cursor

/-- The cursor gets from one position to the other by popping segments. -/
inductive PopsTo (path : Str) : CursorInner → CursorInner → Prop where
  | refl (c : CursorInner) : PopsTo path c c
  | pop {c c' c'' : CursorInner} {s : Str} : nextSegment path c = .ok (some s, c') →
      PopsTo path c' c'' → PopsTo path c c''

/-- There is no segment left. -/
def AtEnd (path : Str) (c : CursorInner) : Prop := nextSegment path c = .ok (none, c)

variable {path : Str} {c c' c'' : CursorInner}

theorem PopsTo.trans (h : PopsTo path c c') (h' : PopsTo path c' c'') : PopsTo path c c'' := by
  induction h with
  | refl => exact h'
  | pop hn _ ih => exact .pop hn (ih h')

theorem PopsTo.within (h : PopsTo path c c') (hc : Within path c) : Within path c' := by
  induction h with
  | refl => exact hc
  | pop hn _ ih =>
    refine ih ?_
    obtain ⟨a, b, hat⟩ := hc
    rcases nextSegment_at hat with ⟨-, hend⟩ | ⟨s, a', b', inner', hn', hat', -⟩
    · rw [hn] at hend
      cases hend
    · rw [hn] at hn'
      cases hn'
      exact ⟨a', b', hat'⟩

/-- From the end there is nowhere to go. -/
theorem PopsTo.of_atEnd (h : PopsTo path c c') (hc : AtEnd path c) : c' = c := by
  cases h with
  | refl => rfl
  | pop hn _ =>
    rw [AtEnd, hn] at hc
    cases hc

/-- All ways to the end lead to the same position, with the same number of segments popped. -/
theorem PopsTo.end_unique (h : PopsTo path c c') (hend : AtEnd path c') (h' : PopsTo path c c'')
    (hend' : AtEnd path c'') : c' = c'' := by
  induction h with
  | refl => exact (h'.of_atEnd hend).symm
  | pop hn hrest ih =>
    cases h' with
    | refl =>
      rw [AtEnd, hn] at hend'
      cases hend'
    | pop hn' hrest' =>
      rw [hn] at hn'
      cases hn'
      exact ih hend hrest'

/-- `next_segment` moves the cursor by one segment, or not at all at the end. -/
theorem Within.nextSegment (h : Within path c) :
    ∃ s c', Cursor.nextSegment path c = .ok (s, c') ∧ PopsTo path c c' ∧
      (s = none → c' = c) := by
  obtain ⟨a, b, hat⟩ := h
  rcases nextSegment_at hat with ⟨-, hn⟩ | ⟨s, a', b', c', hn, -, -⟩
  · exact ⟨none, c, hn, .refl c, fun _ => rfl⟩
  · exact ⟨some s, c', hn, .pop hn (.refl c'), by rintro ⟨⟩⟩

theorem popsTo_count {n : Nat} (h : count path c = .ok (n, c')) :
    PopsTo path c c' ∧ AtEnd path c' := by
  induction n generalizing c with
  | zero =>
    rw [count] at h
    split at h
    · cases h
    · next c₁ hn =>
      cases h
      have hsame : c' = c := by
        rcases nextSegment_cases hn with ⟨-, -, hc⟩ | ⟨-, hsome, -⟩
        · exact hc
        · cases hsome
      subst hsame
      exact ⟨.refl c', hn⟩
    · next s c₁ hn =>
      rcases hrest : count path c₁ with p | ⟨m, c₂⟩
      · rw [hrest] at h
        cases h
      · rw [hrest] at h
        cases h
  | succ n ih =>
    rw [count] at h
    split at h
    · cases h
    · cases h
    · next s c₁ hn =>
      rcases hrest : count path c₁ with p | ⟨m, c₂⟩
      · rw [hrest] at h
        cases h
      · rw [hrest] at h
        cases h
        obtain ⟨hreach, hend⟩ := ih hrest
        exact ⟨.pop hn hreach, hend⟩

/-- What remains of the path, and the cursor once that has been popped. -/
theorem Within.rest (h : Within path c) : ∃ b n c', remainingPath path c = .ok b ∧
    count path c = .ok (n, c') ∧ PopsTo path c c' ∧ AtEnd path c' := by
  obtain ⟨a, b, hat⟩ := h
  obtain ⟨n, c', hcount, -⟩ := count_at hat
  obtain ⟨hreach, hend⟩ := popsTo_count hcount
  exact ⟨b, n, c', by rw [remainingPath, hat.sliceFrom]; rfl, hcount, hreach, hend⟩

end Cursor

/-! ## Actions -/

/-- A panic of a combinator. -/
def Panic.IsSite (p : Panic) : Prop := ∃ s, p = .site s

/-- The monitor that accepts everything. -/
def anyEvent (_ : Unit) (_ : Event) : Option Unit := some ()

/-- `t` does not panic, but for a site of the library, and `Q` holds of its result. -/
abbrev Sound {α : Type} (t : Traced Panic Event α) (Q : α → Prop) : Prop :=
  Resumable.Accepts anyEvent Panic.IsSite () t fun a _ => Q a

theorem sound_mk_ok {α : Type} {l : List Event} {a : α} {Q : α → Prop} (h : Q a) :
    Sound ⟨l, .ok a⟩ Q := by
  have hrun : Transition.run anyEvent () l = some () := by
    induction l with
    | nil => rfl
    | cons ev l ih => exact Transition.run_cons.mpr ⟨(), rfl, ih⟩
  exact ⟨⟨(), hrun, fun _ ha => by cases ha; exact h⟩, fun _ hp => by cases hp⟩

theorem sound_site {α : Type} {s : Site} {Q : α → Prop} : Sound (panicAt s) Q :=
  ⟨⟨(), rfl, fun _ ha => by cases ha⟩, fun _ hp => by cases hp; exact ⟨s, rfl⟩⟩

theorem sound_under {α : Type} {d : Dir} {t : Traced Panic Event α} {Q : α → Prop} (h : Sound t Q) :
    Sound (under d t) Q := by
  have hstep : ∀ {m : Unit} {ev : Event} {m' : Unit}, anyEvent m ev = some m' →
      anyEvent (id m) (ev.under d) = some (id m') := fun h => h
  exact (accepts_mapLog hstep h).mono fun a _ ⟨_, _, ha⟩ => ha

/-- A new action in the state `init` does not panic if it is called in the right order, with a cursor
that stands in the path, and moves the cursor by segments; between its calls `P` holds. -/
structure Safe (f : EndpointAction ε Bd Env σ ts) (init : σ) (P : σ → Prop) : Prop where
  preflight : ∀ cx, Cursor.Within cx.path cx.cursor → Sound (f.preflight cx init) fun a =>
    Cursor.PopsTo cx.path cx.cursor a.2.2 ∧ (a.1 = .ok .incomplete → P a.2.1)
  poll : ∀ s w, P s → Sound (f.pollAction s w) fun a => a.1 = .ok .notReady → P a.2.1

/-! ## Leaves -/

/-- What `Safe` says, of an action of the application. -/
structure LeafAction.Safe (a : LeafAction ε Bd Env σ ts) (init : σ) (P : σ → Prop) : Prop where
  preflight : ∀ cx, Cursor.Within cx.path cx.cursor → ∃ r s c,
    a.preflight cx init = .ok (r, s, c) ∧ Cursor.PopsTo cx.path cx.cursor c ∧
      (r = .ok .incomplete → P s)
  poll : ∀ s w, P s → ∃ r s' w',
    a.pollAction s w = .ok (r, s', w') ∧ (r = .ok .notReady → P s')

def OneshotAction.Safe (a : OneshotAction ε σ ts) (init : σ) : Prop :=
  ∀ cx, Cursor.Within cx.path cx.cursor → ∃ r c,
    a.preflight init cx = .ok (r, c) ∧ Cursor.PopsTo cx.path cx.cursor c

theorem safe_leaf {a : LeafAction ε Bd Env σ ts} {init : σ} {P : σ → Prop} (h : a.Safe init P) :
    Safe a.action init P where
  preflight cx hcx := by
    obtain ⟨r, s, c, hpre, hc, hP⟩ := h.preflight cx hcx
    have hlog : a.action.preflight cx init =
        ⟨[⟨[], .preflight cx.cursor (.of r)⟩], .ok (r, s, c)⟩ := by
      simp [LeafAction.action, hpre]
    rw [hlog]
    exact sound_mk_ok ⟨hc, hP⟩
  poll s w hs := by
    obtain ⟨r, s', w', hpoll, hP⟩ := h.poll s w hs
    have hlog : a.action.pollAction s w =
        ⟨[⟨[], .poll (.of r) (w.took w')⟩], .ok (r, s', w')⟩ := by
      simp [LeafAction.action, hpoll]
    rw [hlog]
    exact sound_mk_ok hP

theorem safe_oneshot {a : OneshotAction ε σ ts} {init : σ} (h : a.Safe init) :
    Safe (a.action : EndpointAction ε Bd Env (Option σ) ts) (some init) fun _ => False where
  preflight cx hcx := by
    obtain ⟨r, c, hpre, hc⟩ := h cx hcx
    have hlog : (a.action : EndpointAction ε Bd Env _ _).preflight cx (some init) =
        ⟨[⟨[], .preflight cx.cursor (.of (r.map Preflight.completed))⟩],
          .ok (r.map Preflight.completed, none, c)⟩ := by
      simp [OneshotAction.action, hpre]
    rw [hlog]
    refine sound_mk_ok ⟨hc, fun hr => ?_⟩
    rcases r with err | x
    · cases hr
    · cases hr
  poll s w hs := hs.elim

theorem safe_future {Fut : Type} (f : FutureAction ε Env Fut (HList ts)) (init : Fut) :
    Safe (f.action : EndpointAction ε Bd Env Fut ts) init fun _ => True where
  preflight cx _ := sound_mk_ok ⟨.refl cx.cursor, fun _ => trivial⟩
  poll _ _ _ := sound_mk_ok fun _ => trivial

/-! ## Combinators -/

/-- The invariant of the component of an `and`. -/
def MaybeDone.Kept {T : Type} (P : σ → Prop) (m : MaybeDone σ T) : Prop :=
  ∀ s, m = .inFlight s → P s

theorem maybeDone_preflight_sound {f : EndpointAction ε Bd Env σ ts} {init : σ} {P : σ → Prop}
    (h : Safe f init P) (cx : PreflightContext) (hcx : Cursor.Within cx.path cx.cursor) :
    Sound ((MaybeDone.action f).preflight cx (.init (some init))) fun a =>
      Cursor.PopsTo cx.path cx.cursor a.2.2 ∧
        ∀ x, a.1 = .ok x → x = .incomplete ∧ a.2.1.Kept P := by
  refine accepts_bind ((h.preflight cx hcx).mono ?_)
  rintro ⟨r, s, c⟩ - ⟨hc, hP⟩
  rcases r with err | (x | -)
  · exact accepts_pure ⟨hc, by rintro x ⟨⟩⟩
  · refine accepts_pure ⟨hc, ?_⟩
    rintro x ⟨⟩
    exact ⟨rfl, fun s hs => by cases hs⟩
  · refine accepts_pure ⟨hc, ?_⟩
    rintro x ⟨⟩
    exact ⟨rfl, fun s hs => by cases hs; exact hP rfl⟩

theorem maybeDone_poll_sound {f : EndpointAction ε Bd Env σ ts} {init : σ} {P : σ → Prop}
    (h : Safe f init P) {m : MaybeDone σ (HList ts)} (hm : m.Kept P) (w : World Bd Env) :
    Sound ((MaybeDone.action f).pollAction m w) fun a =>
      ∀ r, a.1 = .ok r → a.2.1.Kept P := by
  match m with
  | .init _ => exact sound_site
  | .gone => exact sound_site
  | .ready x => exact accepts_pure fun _ _ => hm
  | .inFlight s =>
    refine accepts_bind ((h.poll s w (hm s rfl)).mono ?_)
    rintro ⟨r, s', w'⟩ - hP
    rcases r with err | (x | -)
    · exact accepts_pure (by rintro r ⟨⟩)
    · exact accepts_pure fun _ _ s hs => by cases hs
    · exact accepts_pure fun _ _ s hs => by cases hs; exact hP rfl

theorem safe_and {e1 : EndpointAction ε Bd Env σ ts} {e2 : EndpointAction ε Bd Env τ us} {i1 : σ}
    {i2 : τ} {P1 : σ → Prop} {P2 : τ → Prop} (h1 : Safe e1 i1 P1) (h2 : Safe e2 i2 P2) :
    Safe (AndAction.action e1 e2) ⟨.init (some i1), .init (some i2)⟩ fun s =>
      s.f1.Kept P1 ∧ s.f2.Kept P2 where
  preflight cx hcx := by
    refine accepts_bind ((sound_under (maybeDone_preflight_sound h1 cx hcx)).mono ?_)
    rintro ⟨r1, f1, c1⟩ - ⟨hc1, hf1⟩
    rcases r1 with err | x1
    · exact accepts_pure ⟨hc1, by rintro ⟨⟩⟩
    obtain ⟨rfl, hf1⟩ := hf1 x1 rfl
    have hright := maybeDone_preflight_sound h2 { cx with cursor := c1 } (hc1.within hcx)
    refine accepts_bind ((sound_under hright).mono ?_)
    rintro ⟨r2, f2, c2⟩ - ⟨hc2, hf2⟩
    have hc : Cursor.PopsTo cx.path cx.cursor c2 := hc1.trans hc2
    rcases r2 with err | x2
    · exact accepts_pure ⟨hc, by rintro ⟨⟩⟩
    obtain ⟨rfl, hf2⟩ := hf2 x2 rfl
    exact accepts_pure ⟨hc, fun _ => ⟨hf1, hf2⟩⟩
  poll := by
    rintro ⟨f1, f2⟩ w ⟨hf1, hf2⟩
    refine accepts_bind ((sound_under (maybeDone_poll_sound h1 hf1 w)).mono ?_)
    rintro ⟨r1, f1', w1⟩ - hf1'
    rcases r1 with err | (x | -)
    · exact accepts_pure (by rintro ⟨⟩)
    · refine accepts_bind ((sound_under (maybeDone_poll_sound h2 hf2 w1)).mono ?_)
      rintro ⟨r2, f2', w2⟩ - hf2'
      rcases r2 with err | (x | -)
      · exact accepts_pure (by rintro ⟨⟩)
      · dsimp only
        split
        · exact accepts_pure (by rintro ⟨⟩)
        · exact sound_site
      · exact accepts_pure fun _ => ⟨hf1' _ rfl, hf2' _ rfl⟩
    · exact accepts_pure fun _ => ⟨hf1' _ rfl, hf2⟩

/-- The invariant of the side of an `or` or `or_strict` that was selected. -/
def OrState.Kept {L R : Type} (P1 : L → Prop) (P2 : R → Prop) (s : OrState L R) : Prop :=
  (∃ t, s = .left t ∧ P1 t) ∨ ∃ t, s = .right t ∧ P2 t

/-- A poll that is passed on to a component. -/
theorem sound_passed {S : Type} {e : EndpointAction ε Bd Env σ ts} {init : σ} {P : σ → Prop}
    {Q : S → Prop} (h : Safe e init P) (d : Dir)
    {out : Poll (Error ε) (HList ts) → Poll (Error ε) (HList us)}
    (hout : ∀ {r}, out r = .ok .notReady → r = .ok .notReady) {state : σ → S}
    (hstate : ∀ s, P s → Q (state s)) {s : σ} (hs : P s) (w : World Bd Env) :
    Sound (do
      let (r, s, w) ← under d (e.pollAction s w)
      return (out r, state s, w)) fun a => a.1 = .ok .notReady → Q a.2.1 := by
  refine accepts_bind ((sound_under (h.poll s w hs)).mono ?_)
  rintro ⟨r, s', w'⟩ - hP
  exact accepts_pure fun hr => hstate s' (hP (hout hr))

theorem orState_poll_sound {vs : List Type} {c : EndpointAction ε Bd Env (OrState σ τ) vs}
    {e1 : EndpointAction ε Bd Env σ ts} {e2 : EndpointAction ε Bd Env τ us} {i1 : σ} {i2 : τ}
    {P1 : σ → Prop} {P2 : τ → Prop} (hc : OrState.Forwards c e1 e2) (h1 : Safe e1 i1 P1)
    (h2 : Safe e2 i2 P2) (s : OrState σ τ) (w : World Bd Env) (hs : s.Kept P1 P2) :
    Sound (c.pollAction s w) fun a => a.1 = .ok .notReady → a.2.1.Kept P1 P2 := by
  obtain ⟨out1, hout1, hleft⟩ := hc.left
  obtain ⟨out2, hout2, hright⟩ := hc.right
  rcases hs with ⟨t, rfl, ht⟩ | ⟨t, rfl, ht⟩
  · have hstate : ∀ t, P1 t → (OrState.left t).Kept P1 P2 := fun t ht => Or.inl ⟨t, rfl, ht⟩
    rw [hleft]
    exact sound_passed h1 .left hout1 hstate ht w
  · have hstate : ∀ t, P2 t → (OrState.right t).Kept P1 P2 := fun t ht => Or.inr ⟨t, rfl, ht⟩
    rw [hright]
    exact sound_passed h2 .right hout2 hstate ht w

theorem safe_or {T1 T2 : Type} {e1 : EndpointAction ε Bd Env σ [T1]}
    {e2 : EndpointAction ε Bd Env τ [T2]} {i1 : σ} {i2 : τ} {P1 : σ → Prop} {P2 : τ → Prop}
    (h1 : Safe e1 i1 P1) (h2 : Safe e2 i2 P2) :
    Safe (OrAction.action e1 e2) (.init i1 i2) (OrState.Kept P1 P2) where
  preflight cx hcx := by
    refine accepts_bind ((sound_under (h1.preflight cx hcx)).mono ?_)
    rintro ⟨r1, s1, c1⟩ - ⟨hc1, hP1⟩
    refine accepts_bind ((sound_under (h2.preflight cx hcx)).mono ?_)
    rintro ⟨r2, s2, c2⟩ - ⟨hc2, hP2⟩
    -- the side that is selected leaves its state and its cursor
    rcases r1 with err1 | (x1 | -)
    · rcases r2 with err2 | (x2 | -)
      · exact accepts_pure ⟨hc2, by rintro ⟨⟩⟩
      · exact accepts_pure ⟨hc2, by rintro ⟨⟩⟩
      · exact accepts_pure ⟨hc2, fun _ => Or.inr ⟨s2, rfl, hP2 rfl⟩⟩
    · rcases r2 with err2 | (x2 | -)
      · exact accepts_pure ⟨hc1, by rintro ⟨⟩⟩
      · dsimp only
        split
        · exact accepts_pure ⟨hc1, by rintro ⟨⟩⟩
        · exact accepts_pure ⟨hc2, by rintro ⟨⟩⟩
      · dsimp only
        split
        · exact accepts_pure ⟨hc1, by rintro ⟨⟩⟩
        · exact accepts_pure ⟨hc2, fun _ => Or.inr ⟨s2, rfl, hP2 rfl⟩⟩
    · have hleft : (OrState.left s1 : OrState σ τ).Kept P1 P2 := Or.inl ⟨s1, rfl, hP1 rfl⟩
      rcases r2 with err2 | (x2 | -)
      · exact accepts_pure ⟨hc1, fun _ => hleft⟩
      · dsimp only
        split
        · exact accepts_pure ⟨hc1, fun _ => hleft⟩
        · exact accepts_pure ⟨hc2, by rintro ⟨⟩⟩
      · dsimp only
        split
        · exact accepts_pure ⟨hc1, fun _ => hleft⟩
        · exact accepts_pure ⟨hc2, fun _ => Or.inr ⟨s2, rfl, hP2 rfl⟩⟩
  poll := orState_poll_sound (OrAction.forwards e1 e2) h1 h2

theorem safe_orStrict {e1 : EndpointAction ε Bd Env σ ts} {e2 : EndpointAction ε Bd Env τ ts} {i1 : σ}
    {i2 : τ} {P1 : σ → Prop} {P2 : τ → Prop} (h1 : Safe e1 i1 P1) (h2 : Safe e2 i2 P2) :
    Safe (OrStrictAction.action e1 e2) (.init i1 i2) (OrState.Kept P1 P2) where
  preflight cx hcx := by
    refine accepts_bind ((sound_under (h1.preflight cx hcx)).mono ?_)
    rintro ⟨r1, s1, c1⟩ - ⟨hc1, hP1⟩
    rcases r1 with err1 | (x | -)
    · refine accepts_bind ((sound_under (h2.preflight cx hcx)).mono ?_)
      rintro ⟨r2, s2, c2⟩ - ⟨hc2, hP2⟩
      rcases r2 with err2 | (x | -)
      · exact accepts_pure ⟨hc2, by rintro ⟨⟩⟩
      · exact accepts_pure ⟨hc2, by rintro ⟨⟩⟩
      · exact accepts_pure ⟨hc2, fun _ => Or.inr ⟨s2, rfl, hP2 rfl⟩⟩
    · exact accepts_pure ⟨hc1, by rintro ⟨⟩⟩
    · exact accepts_pure ⟨hc1, fun _ => Or.inl ⟨s1, rfl, hP1 rfl⟩⟩
  poll := orState_poll_sound (OrStrictAction.forwards e1 e2) h1 h2

theorem safe_map {U : Type} {e : EndpointAction ε Bd Env σ ts} {i : σ} {P : σ → Prop}
    (h : Safe e i P) (f : HList ts → U) : Safe (MapAction.action e f) i P where
  preflight cx hcx := by
    refine accepts_bind ((sound_under (h.preflight cx hcx)).mono ?_)
    rintro ⟨r, s, c⟩ - ⟨hc, hP⟩
    rcases r with err | (x | -)
    · exact accepts_pure ⟨hc, by rintro ⟨⟩⟩
    · exact accepts_pure ⟨hc, by rintro ⟨⟩⟩
    · exact accepts_pure ⟨hc, fun _ => hP rfl⟩
  poll s w hs := sound_passed h .inner Poll.map_eq_notReady (fun _ => id) hs w

theorem safe_mapErr {e : EndpointAction ε Bd Env σ ts} {i : σ} {P : σ → Prop} (h : Safe e i P)
    (f : Error ε → Error ε) : Safe (MapErrAction.action e f) i P where
  preflight cx hcx := by
    refine accepts_bind ((sound_under (h.preflight cx hcx)).mono ?_)
    rintro ⟨r, s, c⟩ - ⟨hc, hP⟩
    rcases r with err | x
    · exact accepts_pure ⟨hc, by rintro ⟨⟩⟩
    · exact accepts_pure ⟨hc, fun hr => hP hr⟩
  poll s w hs := sound_passed h .inner Poll.mapErr_eq_notReady (fun _ => id) hs w

/-- The invariant of an `and_then` or `recover`: that of the inner action, as long as it is polled. -/
def InFlight.Kept {Fut : Type} (P : σ → Prop) (s : InFlight σ Fut) : Prop :=
  s.inFlight = none → P s.action

theorem sound_pollInFlight {Fut T : Type} (P : σ → Prop) (fut : FutureAction ε Env Fut T) (s : σ)
    (inFlight : Fut) (w : World Bd Env) :
    Sound (pollInFlight fut s inFlight w) fun a => a.1 = .ok .notReady → a.2.1.Kept P := by
  have hpoll : Sound (fut.pollInFlight inFlight w) fun _ => True := sound_mk_ok trivial
  refine accepts_bind (hpoll.mono fun a _ _ => ?_)
  exact accepts_pure fun _ hnone => by cases hnone

theorem sound_callClosure {α Fut : Type} (f : α → Fut) (x : α) :
    Sound (callClosure f x) fun _ => True := sound_mk_ok trivial

theorem inFlight_poll_sound {Fut T α : Type} {c : EndpointAction ε Bd Env (InFlight σ Fut) [T]}
    {e : EndpointAction ε Bd Env σ ts} {fut : FutureAction ε Env Fut T} {f : α → Fut}
    {comes : Poll (Error ε) (HList ts) → Prop} {i : σ} {P : σ → Prop}
    (hc : InFlight.Continues c e fut f comes) (h : Safe e i P) (s : InFlight σ Fut)
    (w : World Bd Env) (hs : s.Kept P) :
    Sound (c.pollAction s w) fun a => a.1 = .ok .notReady → a.2.1.Kept P := by
  obtain ⟨action, _ | inFlight⟩ := s
  · obtain ⟨k, hk, hnext⟩ := hc.waiting action w
    rw [hk]
    refine accepts_bind ((sound_under (h.poll action w (hs rfl))).mono ?_)
    rintro ⟨r, action', w'⟩ - hP
    rcases hnext r action' w' with ⟨-, x, hx⟩ | ⟨-, r', hpure, hr'⟩
    · rw [hx]
      refine accepts_bind ((sound_callClosure f x).mono fun inFlight _ _ => ?_)
      exact sound_pollInFlight P fut action' inFlight w'
    · rw [hpure]
      exact accepts_pure fun hr _ => hP (hr' hr)
  · rw [hc.inFlight]
    exact sound_pollInFlight P fut action inFlight w

theorem safe_andThen {Fut T : Type} {e : EndpointAction ε Bd Env σ ts} {i : σ} {P : σ → Prop}
    (h : Safe e i P) (fut : FutureAction ε Env Fut T) (f : HList ts → Fut) :
    Safe (AndThenAction.action e fut f) ⟨i, none⟩ (InFlight.Kept P) where
  preflight cx hcx := by
    refine accepts_bind ((sound_under (h.preflight cx hcx)).mono ?_)
    rintro ⟨r, s, c⟩ - ⟨hc, hP⟩
    rcases r with err | (x | -)
    · exact accepts_pure ⟨hc, by rintro ⟨⟩⟩
    · refine accepts_bind ((sound_callClosure f x).mono fun inFlight _ _ => ?_)
      exact accepts_pure ⟨hc, fun _ hnone => by cases hnone⟩
    · exact accepts_pure ⟨hc, fun _ _ => hP rfl⟩
  poll := inFlight_poll_sound (AndThenAction.continues e fut f) h

theorem safe_recover {Fut T : Type} {e : EndpointAction ε Bd Env σ [T]} {i : σ} {P : σ → Prop}
    (h : Safe e i P) (fut : FutureAction ε Env Fut T) (f : Error ε → Fut) :
    Safe (RecoverAction.action e fut f) ⟨i, none⟩ (InFlight.Kept P) where
  preflight cx hcx := by
    refine accepts_bind ((sound_under (h.preflight cx hcx)).mono ?_)
    rintro ⟨r, s, c⟩ - ⟨hc, hP⟩
    rcases r with err | (x | -)
    · refine accepts_bind ((sound_callClosure f err).mono fun inFlight _ _ => ?_)
      exact accepts_pure ⟨hc, fun _ hnone => by cases hnone⟩
    · exact accepts_pure ⟨hc, by rintro ⟨⟩⟩
    · exact accepts_pure ⟨hc, fun _ _ => hP rfl⟩
  poll := inFlight_poll_sound (RecoverAction.continues e fut f) h

/-! ## Endpoints and runs -/

/-- Every leaf is safe. -/
def Endpoint.LeavesSafe : {ts : List Type} → Endpoint ε Bd Env ts → Prop
  | _, .leaf _ a init => ∃ P, a.Safe init P
  | _, .oneshot _ a init => a.Safe init
  | _, .future _ _ _ => True
  | _, .and e1 e2 => e1.LeavesSafe ∧ e2.LeavesSafe
  | _, .or e1 e2 => e1.LeavesSafe ∧ e2.LeavesSafe
  | _, .orStrict e1 e2 => e1.LeavesSafe ∧ e2.LeavesSafe
  | _, .map e _ => e.LeavesSafe
  | _, .mapErr e _ => e.LeavesSafe
  | _, .andThen _ e _ _ => e.LeavesSafe
  | _, .recover _ e _ _ => e.LeavesSafe
  | _, .boxed e => e.LeavesSafe

theorem Endpoint.safe (e : Endpoint ε Bd Env ts) (he : e.LeavesSafe) :
    ∃ P, Safe e.impl e.spawn P := by
  induction e with
  | leaf σ a init =>
    obtain ⟨P, hP⟩ := he
    exact ⟨P, safe_leaf hP⟩
  | oneshot σ a init => exact ⟨_, safe_oneshot he⟩
  | future Fut f init => exact ⟨_, safe_future f init⟩
  | and e1 e2 ih1 ih2 =>
    obtain ⟨P1, h1⟩ := ih1 he.1
    obtain ⟨P2, h2⟩ := ih2 he.2
    exact ⟨_, safe_and h1 h2⟩
  | or e1 e2 ih1 ih2 =>
    obtain ⟨P1, h1⟩ := ih1 he.1
    obtain ⟨P2, h2⟩ := ih2 he.2
    exact ⟨_, safe_or h1 h2⟩
  | orStrict e1 e2 ih1 ih2 =>
    obtain ⟨P1, h1⟩ := ih1 he.1
    obtain ⟨P2, h2⟩ := ih2 he.2
    exact ⟨_, safe_orStrict h1 h2⟩
  | map e f ih =>
    obtain ⟨P, h⟩ := ih he
    exact ⟨_, safe_map h f⟩
  | mapErr e f ih =>
    obtain ⟨P, h⟩ := ih he
    exact ⟨_, safe_mapErr h f⟩
  | andThen Fut e fut f ih =>
    obtain ⟨P, h⟩ := ih he
    exact ⟨_, safe_andThen h fut f⟩
  | recover Fut e fut f ih =>
    obtain ⟨P, h⟩ := ih he
    exact ⟨_, safe_recover h fut f⟩
  | boxed e ih => exact ih he

namespace AppFuture

/-- The action of a future that has not been polled, or waits. -/
def Waits (init : σ) (P : σ → Prop) (fut : AppFuture σ Bd) : Prop :=
  (fut.state = .start (some init) ∧ fut.context.request.uri.isAuthorityForm = false) ∨
    ∃ s, fut.state = .inFlight s ∧ P s

theorem sound_inFlight {f : EndpointAction ε Bd Env σ ts} {init : σ} {P : σ → Prop}
    (hf : Safe f init P) (fut : AppFuture σ Bd) {s : σ} (th : Thread Env) (hs : P s) :
    Sound (pollInFlight f fut s th) fun a => a.1 = .ok .notReady → a.2.1.Waits init P := by
  refine accepts_bind ((hf.poll s (fut.world th) hs).mono ?_)
  rintro ⟨r, s', w'⟩ - hP
  exact accepts_pure fun hr => Or.inr ⟨s', rfl, hP hr⟩

theorem sound_pollApply {f : EndpointAction ε Bd Env σ ts} {init : σ} {P : σ → Prop}
    (hf : Safe f init P) {fut : AppFuture σ Bd} (th : Thread Env) (hfut : fut.Waits init P) :
    Sound (pollApply f fut th) fun a => a.1 = .ok .notReady → a.2.1.Waits init P := by
  unfold pollApply
  rcases hfut with ⟨hstart, hform⟩ | ⟨s, hs, hP⟩
  · rw [hstart]
    have hwithin : Cursor.Within (PreflightContext.new fut.context).path ⟨1, 0⟩ :=
      Cursor.within_start hform 0
    refine accepts_bind ((hf.preflight _ hwithin).mono ?_)
    rintro ⟨r, s, c⟩ - ⟨-, hP⟩
    rcases r with err | (x | -)
    · exact accepts_pure (by rintro ⟨⟩)
    · exact accepts_pure (by rintro ⟨⟩)
    · exact sound_inFlight hf fut th (hP rfl)
  · rw [hs]
    exact sound_inFlight hf fut th hP

theorem sound_drive {f : EndpointAction ε Bd Env σ ts} {init : σ} {P : σ → Prop}
    (hf : Safe f init P) (gs : List (Thread Env → Thread Env)) (fut : AppFuture σ Bd)
    (th : Thread Env) (hfut : fut.Waits init P) : Sound (drive f gs fut th) fun _ => True := by
  induction gs generalizing fut th with
  | nil => exact accepts_pure trivial
  | cons g gs ih =>
    refine accepts_bind ((sound_pollApply hf (g th) hfut).mono ?_)
    rintro ⟨r, fut', th'⟩ - hP
    rcases r with err | (x | -)
    · exact accepts_pure trivial
    · exact accepts_pure trivial
    · exact ih fut' th' (hP rfl)

end AppFuture

/-- **A run of an endpoint whose leaves are safe returns**, for every request whose target has a path:
neither a leaf panics nor a combinator. -/
theorem drive_safe {e : Endpoint ε Bd Env ts} (he : e.LeavesSafe) (addr : Nat) {request : Request}
    (hform : request.uri.isAuthorityForm = false) (body : Bd) (gs : List (Thread Env → Thread Env))
    (th : Thread Env) :
    ∃ l a, AppFuture.drive e.impl gs (.dispatch e addr request body) th = ⟨l, .ok a⟩ := by
  obtain ⟨P, hP⟩ := e.safe he
  obtain ⟨Q, hQ⟩ := e.conforming
  have hsound := AppFuture.sound_drive hP gs (.dispatch e addr request body) th
    (Or.inl ⟨rfl, hform⟩)
  have hconforms := AppFuture.drive_between hQ gs (.dispatch e addr request body) th
    (Or.inl ⟨rfl, rfl⟩)
  rcases (AppFuture.drive e.impl gs (.dispatch e addr request body) th).eq_ok_or_error with
    h | ⟨l, p, h⟩
  · exact h
  · -- a panic is one of a combinator, and none of a combinator
    obtain ⟨s, hs⟩ := hsound.res p (congrArg Traced.res h)
    obtain ⟨a, ha⟩ := hconforms.res p (congrArg Traced.res h)
    rw [hs] at ha
    cases ha

end Finchers
