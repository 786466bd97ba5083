import Finchers.Taken

/-!
# Endpoints that need the request body twice

A leaf that reads the request body has to take it before it is ready, and a body can be taken only
once.  How often an endpoint has to take it is read off its tree.

* `Owes` — how often an action still has to take the body before it is ready;
* `owes_and` … — one lemma for each combinator;
* `Needs` — the number for a tree;
* `needs_body_twice_fails` — **an endpoint that needs the body twice never succeeds**.
-/

set_option autoImplicit false

namespace Finchers

open Resumable Transition AppFuture

variable {ε Bd Env σ τ : Type} {ts us : List Type}

/-! ## Counting -/

/-- How often the body has been taken. -/
def countStep (m : Nat) (ev : Event) : Option Nat := some (m + taken [ev])

/-- The events of `t` are counted from `m` on. -/
abbrev Counts {α : Type} (m : Nat) (t : Traced Panic Event α) (Q : α → Nat → Prop) : Prop :=
  Resumable.Accepts countStep (fun _ => True) m t Q

theorem run_countStep (l : List Event) (m : Nat) : run countStep m l = some (m + taken l) := by
  induction l generalizing m with
  | nil => rfl
  | cons ev l ih =>
    have happ := taken_append [ev] l
    rw [List.singleton_append] at happ
    rw [happ, ← Nat.add_assoc]
    exact run_cons.mpr ⟨m + taken [ev], rfl, ih _⟩

theorem counts_panic {α : Type} {m : Nat} {p : Panic} {Q : α → Nat → Prop} :
    Counts m (Traced.panic p : Traced Panic Event α) Q :=
  ⟨⟨m, rfl, by rintro _ ⟨⟩⟩, fun _ _ => trivial⟩

theorem counts_under {α : Type} {m : Nat} (d : Dir) {t : Traced Panic Event α}
    {Q : α → Nat → Prop} (h : Counts m t Q) : Counts m (under d t) Q := by
  obtain ⟨⟨m', hrun, hQ⟩, hres⟩ := h
  have htaken : taken (t.log.map (Event.under d)) = taken t.log := by
    unfold taken
    have hmap : (t.log.map (Event.under d)).filterMap Event.takes =
        (t.log.filterMap Event.takes).map (d :: ·) := by
      rw [List.filterMap_map, List.map_filterMap]
      exact List.filterMap_congr fun ev _ => ev.takes_under d
    rw [hmap, List.length_map]
  rw [run_countStep] at hrun
  refine ⟨⟨m', ?_, hQ⟩, hres⟩
  show run countStep m (t.log.map (Event.under d)) = _
  rw [run_countStep, htaken]
  exact hrun

/-- Nothing is taken. -/
theorem counts_mk {α : Type} {m : Nat} {l : List Event} {a : α} {Q : α → Nat → Prop}
    (hl : taken l = 0) (h : Q a m) : Counts m ⟨l, .ok a⟩ Q := by
  have hrun := run_countStep l m
  rw [hl] at hrun
  exact ⟨⟨m, hrun, fun _ ha => by cases ha; exact h⟩, fun p hp => by cases hp⟩

/-- What is owed after a poll: a ready action has taken all it had to take, one that is not ready
still owes what it has not taken. -/
def Paid {T : Type} (P : σ → Nat → Prop) (due : Nat) (r : Poll (Error ε) T) (s : σ) (m : Nat) :
    Prop :=
  (∀ v, r = .ok (.ready v) → due ≤ m) ∧ (r = .ok .notReady → ∃ k, P s k ∧ due ≤ m + k)

theorem paid_err {T : Type} {P : σ → Nat → Prop} {due m : Nat} {err : Error ε} {s : σ} :
    Paid P due (.error err : Poll (Error ε) T) s m := ⟨by rintro v ⟨⟩, by rintro ⟨⟩⟩

theorem paid_ready {T : Type} {P : σ → Nat → Prop} {due m : Nat} {x : T} {s : σ} (h : due ≤ m) :
    Paid P due (.ok (.ready x) : Poll (Error ε) T) s m := ⟨fun _ _ => h, by rintro ⟨⟩⟩

theorem paid_notReady {T : Type} {P : σ → Nat → Prop} {due m k : Nat} {s : σ} (hs : P s k)
    (h : due ≤ m + k) : Paid P due (.ok .notReady : Poll (Error ε) T) s m :=
  ⟨by rintro v ⟨⟩, fun _ => ⟨k, hs, h⟩⟩

/-- A new action takes the body `n` times before it is ready; `P s k` says that it still has to take
it `k` times in the state `s`. -/
structure Owes (f : EndpointAction ε Bd Env σ ts) (init : σ) (n : Nat) (P : σ → Nat → Prop) :
    Prop where
  preflight : ∀ cx m, Counts m (f.preflight cx init) fun a _ =>
    (∀ v, a.1 = .ok (.completed v) → n = 0) ∧ (a.1 = .ok .incomplete → P a.2.1 n)
  poll : ∀ s k w m, P s k → Counts m (f.pollAction s w) fun a m' => Paid P (m + k) a.1 a.2.1 m'

/-! ## Leaves -/

theorem owes_oneshot (a : OneshotAction ε σ ts) (init : σ) :
    Owes (a.action : EndpointAction ε Bd Env (Option σ) ts) (some init) 0 fun _ _ => False where
  preflight cx m := by
    rcases h : a.preflight init cx with p | ⟨r, c⟩
    · have hp : (a.action : EndpointAction ε Bd Env _ _).preflight cx (some init) =
          ⟨[⟨[], .preflight cx.cursor .panicked⟩], .error (.action p)⟩ := by
        simp [OneshotAction.action, h]
      rw [hp]
      exact ⟨⟨m, run_countStep _ m, by rintro _ ⟨⟩⟩, fun _ _ => trivial⟩
    · have hp : (a.action : EndpointAction ε Bd Env _ _).preflight cx (some init) =
          ⟨[⟨[], .preflight cx.cursor (.of (r.map Preflight.completed))⟩],
            .ok (r.map Preflight.completed, none, c)⟩ := by
        simp [OneshotAction.action, h]
      rw [hp]
      refine counts_mk rfl ⟨fun _ _ => rfl, fun hr => ?_⟩
      rcases r with err | x
      · cases hr
      · cases hr
  poll s k w m h := h.elim

theorem owes_future {Fut : Type} (f : FutureAction ε Env Fut (HList ts)) (init : Fut) :
    Owes (f.action : EndpointAction ε Bd Env Fut ts) init 0 fun _ k => k = 0 where
  preflight cx m := counts_mk rfl ⟨by rintro v ⟨⟩, fun _ => rfl⟩
  poll := by
    rintro s k w m rfl
    unfold FutureAction.action
    simp only
    exact counts_mk rfl ⟨fun _ _ => Nat.le_refl m, fun _ => ⟨0, rfl, Nat.le_refl m⟩⟩

/-- An action that is polled, and what it took. -/
theorem counts_event {α : Type} {m : Nat} {ev : Event} {a : α} {Q : α → Nat → Prop}
    (h : Q a (m + taken [ev])) : Counts m ⟨[ev], .ok a⟩ Q :=
  ⟨⟨_, run_countStep [ev] m, fun _ ha => by cases ha; exact h⟩, fun p hp => by cases hp⟩

theorem owes_raw (Bd : Type) :
    Owes (RawAction Bd : LeafAction ε Bd Env Unit [Bd]).action () 1 fun _ k => k = 1 where
  preflight cx m := counts_event ⟨by rintro v ⟨⟩, fun _ => rfl⟩
  poll := by
    rintro s k ⟨⟨context, _ | body⟩, thread⟩ m rfl
    · exact counts_event paid_err
    · exact counts_event (paid_ready (Nat.le_refl (m + 1)))

/-- What `receive_all` owes: nothing once it has the body. -/
def ReceiveAllState.due : ReceiveAllState → Nat
  | .start => 1
  | .receiving _ _ => 0

theorem receiveData_due (body : BodyStream) (buf : List UInt8) :
    (receiveData (ε := ε) body buf).2.due = 0 := by
  induction body generalizing buf with
  | nil => rfl
  | cons answer body ih =>
    cases answer with
    | item data => exact ih _
    | notReady => rfl
    | error msg => rfl

theorem owes_body {T : Type} (check : Request → Except (Error ε) Unit)
    (read : List UInt8 → Except (Error ε) T) :
    Owes (bodyAction check read : LeafAction ε _ Env _ _).action .start 1 fun s k => k = s.due where
  preflight cx m := by
    refine counts_event ⟨fun v hv => ?_, fun _ => rfl⟩
    rcases hcheck : check cx.context.request with err | u
    · rw [hcheck] at hv
      cases hv
    · rw [hcheck] at hv
      cases hv
  poll := by
    rintro (_ | ⟨received, buf⟩) k ⟨⟨context, body⟩, thread⟩ m rfl
    · rcases body with - | body
      · exact counts_event paid_err
      · refine counts_event ⟨fun _ _ => Nat.le_refl (m + 1), fun _ => ?_⟩
        exact ⟨0, (receiveData_due body []).symm, Nat.le_refl (m + 1)⟩
    · refine counts_event ⟨fun _ _ => Nat.le_add_right m _, fun _ => ?_⟩
      exact ⟨0, (receiveData_due received buf).symm, Nat.le_add_right m _⟩

theorem counts_leaf {a : LeafAction ε Bd Env σ ts} {s : σ} {w : World Bd Env} {m : Nat}
    {Q : Poll (Error ε) (HList ts) × σ × World Bd Env → Nat → Prop}
    (h : ∀ r s' w', a.pollAction s w = .ok (r, s', w') →
      Q (r, s', w') (m + taken [⟨[], .poll (.of r) (w.took w')⟩])) :
    Counts m (a.action.pollAction s w) Q := by
  unfold LeafAction.action
  dsimp only
  split
  · exact counts_event (h _ _ _ ‹_›)
  · exact ⟨⟨_, run_countStep _ m, by rintro _ ⟨⟩⟩, fun _ _ => trivial⟩

theorem owes_ws {F : Type} (x : Tungstenite.Digests)
    (spawn : Bd → F → Env → Except String Unit × Env) (onUpgrade : F) :
    Owes (Tungstenite.WsAction (ε := ε) x spawn).action (some onUpgrade) 1
      fun s k => s = some onUpgrade ∧ k = 1 where
  preflight cx m := counts_event ⟨by rintro v ⟨⟩, fun _ => ⟨rfl, rfl⟩⟩
  poll := by
    rintro s k w m ⟨rfl, rfl⟩
    refine counts_leaf fun r s' w' hpoll => ?_
    unfold Tungstenite.WsAction at hpoll
    dsimp only at hpoll
    split at hpoll
    · cases hpoll
      exact paid_err
    · rcases w with ⟨⟨context, _ | body⟩, thread⟩
      · cases hpoll
        exact paid_err
      · dsimp only [ActionContext.takeBody] at hpoll
        split at hpoll
        · cases hpoll
          exact paid_err
        · cases hpoll
          exact paid_ready (Nat.le_refl (m + 1))

/-! ## Combinators -/

/-- What a component of an `and` still owes. -/
def MaybeDone.Due {T : Type} (P : σ → Nat → Prop) (s : MaybeDone σ T) (k : Nat) : Prop :=
  (∃ t, s = .inFlight t ∧ P t k) ∨ ((∃ x, s = .ready x) ∧ k = 0)

theorem maybeDone_preflight_owes {f : EndpointAction ε Bd Env σ ts} {init : σ} {n : Nat}
    {P : σ → Nat → Prop} (hf : Owes f init n P) (cx : PreflightContext) (m : Nat) :
    Counts m ((MaybeDone.action f).preflight cx (.init (some init))) fun a _ =>
      ∀ x, a.1 = .ok x → x = .incomplete ∧ a.2.1.Due P n := by
  refine accepts_bind ((hf.preflight cx m).mono ?_)
  rintro ⟨r, s, c⟩ m' ⟨hcompleted, hincomplete⟩
  rcases r with err | (v | -)
  · exact accepts_pure (by rintro x ⟨⟩)
  · refine accepts_pure ?_
    rintro x ⟨⟩
    exact ⟨rfl, Or.inr ⟨⟨v, rfl⟩, hcompleted v rfl⟩⟩
  · refine accepts_pure ?_
    rintro x ⟨⟩
    exact ⟨rfl, Or.inl ⟨s, rfl, hincomplete rfl⟩⟩

theorem maybeDone_poll_owes {f : EndpointAction ε Bd Env σ ts} {init : σ} {n : Nat}
    {P : σ → Nat → Prop} (hf : Owes f init n P) {s : MaybeDone σ (HList ts)} {k : Nat}
    (hs : s.Due P k) (w : World Bd Env) (m : Nat) :
    Counts m ((MaybeDone.action f).pollAction s w) fun a m' =>
      Paid (MaybeDone.Due P) (m + k) a.1 a.2.1 m' ∧ (∀ v, a.1 = .ok (.ready v) → a.2.1.Due P 0) := by
  rcases hs with ⟨t, rfl, ht⟩ | ⟨⟨x, rfl⟩, rfl⟩
  · refine accepts_bind ((hf.poll t k w m ht).mono ?_)
    rintro ⟨r, t', w'⟩ m' ⟨hready, hnot⟩
    rcases r with err | (x | -)
    · exact accepts_pure ⟨paid_err, by rintro v ⟨⟩⟩
    · exact accepts_pure ⟨paid_ready (hready x rfl), fun _ _ => Or.inr ⟨⟨x, rfl⟩, rfl⟩⟩
    · obtain ⟨j, hj, hle⟩ := hnot rfl
      exact accepts_pure ⟨paid_notReady (Or.inl ⟨t', rfl, hj⟩) hle, by rintro v ⟨⟩⟩
  · exact accepts_pure ⟨paid_ready (Nat.le_refl m), fun _ _ => Or.inr ⟨⟨x, rfl⟩, rfl⟩⟩

theorem owes_and {e1 : EndpointAction ε Bd Env σ ts} {e2 : EndpointAction ε Bd Env τ us} {i1 : σ}
    {i2 : τ} {n1 n2 : Nat} {P1 : σ → Nat → Prop} {P2 : τ → Nat → Prop} (h1 : Owes e1 i1 n1 P1)
    (h2 : Owes e2 i2 n2 P2) :
    Owes (AndAction.action e1 e2) ⟨.init (some i1), .init (some i2)⟩ (n1 + n2) fun s k =>
      ∃ k1 k2, s.f1.Due P1 k1 ∧ s.f2.Due P2 k2 ∧ k = k1 + k2 where
  preflight cx m := by
    refine accepts_bind ((counts_under .left (maybeDone_preflight_owes h1 cx m)).mono ?_)
    rintro ⟨r1, f1, c1⟩ m1 ha1
    rcases r1 with err | x1
    · exact accepts_pure ⟨by rintro v ⟨⟩, by rintro ⟨⟩⟩
    obtain ⟨rfl, hf1⟩ := ha1 x1 rfl
    refine accepts_bind ((counts_under .right (maybeDone_preflight_owes h2 _ m1)).mono ?_)
    rintro ⟨r2, f2, c2⟩ m2 ha2
    rcases r2 with err | x2
    · exact accepts_pure ⟨by rintro v ⟨⟩, by rintro ⟨⟩⟩
    obtain ⟨rfl, hf2⟩ := ha2 x2 rfl
    exact accepts_pure ⟨by rintro v ⟨⟩, fun _ => ⟨n1, n2, hf1, hf2, rfl⟩⟩
  poll := by
    rintro ⟨f1, f2⟩ k w m ⟨k1, k2, hf1, hf2, rfl⟩
    refine accepts_bind ((counts_under .left (maybeDone_poll_owes h1 hf1 w m)).mono ?_)
    rintro ⟨r1, f1', w1⟩ m1 ⟨⟨hready1, hnot1⟩, hdone1⟩
    rcases r1 with err | (⟨⟩ | -)
    · exact accepts_pure paid_err
    · have hle1 := hready1 () rfl
      refine accepts_bind ((counts_under .right (maybeDone_poll_owes h2 hf2 w1 m1)).mono ?_)
      rintro ⟨r2, f2', w2⟩ m2 ⟨⟨hready2, hnot2⟩, -⟩
      rcases r2 with err | (⟨⟩ | -)
      · exact accepts_pure paid_err
      · have hle2 := hready2 () rfl
        dsimp only
        split
        · refine accepts_pure (paid_ready ?_)
          omega
        · exact counts_panic
      · obtain ⟨j, hj, hle⟩ := hnot2 rfl
        refine accepts_pure (paid_notReady ⟨0, j, hdone1 () rfl, hj, (Nat.zero_add j).symm⟩ ?_)
        omega
    · obtain ⟨j, hj, hle⟩ := hnot1 rfl
      refine accepts_pure (paid_notReady ⟨j, k2, hj, hf2, rfl⟩ ?_)
      omega

/-- What the side that was selected still owes. -/
def OrState.Due {L R : Type} (P1 : L → Nat → Prop) (P2 : R → Nat → Prop) (s : OrState L R) (k : Nat) :
    Prop :=
  (∃ t j, s = .left t ∧ P1 t j ∧ k ≤ j) ∨ ∃ t j, s = .right t ∧ P2 t j ∧ k ≤ j

/-- A poll that is passed on to a component. -/
theorem passed_owes {S : Type} {e : EndpointAction ε Bd Env σ ts} {init : σ} {n : Nat}
    {P : σ → Nat → Prop} {R : S → Nat → Prop} (h : Owes e init n P) (d : Dir)
    {out : Poll (Error ε) (HList ts) → Poll (Error ε) (HList us)}
    (hready : ∀ {r v}, out r = .ok (.ready v) → ∃ v', r = .ok (.ready v'))
    (hnot : ∀ {r}, out r = .ok .notReady → r = .ok .notReady) (state : σ → S) {s : σ} {k j : Nat}
    (w : World Bd Env) (m : Nat) (hs : P s j) (hkj : k ≤ j)
    (hR : ∀ s j, P s j → R (state s) j) :
    Counts m (do
      let (r, s, w) ← under d (e.pollAction s w)
      return (out r, state s, w)) fun a m' => Paid R (m + k) a.1 a.2.1 m' := by
  refine accepts_bind ((counts_under d (h.poll s j w m hs)).mono ?_)
  rintro ⟨r, s', w'⟩ m' ⟨hpaid, howed⟩
  refine accepts_pure ⟨fun v hv => ?_, fun hv => ?_⟩
  · obtain ⟨v', hr⟩ := hready hv
    have hle := hpaid v' hr
    omega
  · obtain ⟨i, hi, hle⟩ := howed (hnot hv)
    exact ⟨i, hR s' i hi, by omega⟩

theorem Poll.map_eq_ready {E T U : Type} {f : T → U} {r : Poll E T} {v : U}
    (h : r.map f = .ok (.ready v)) : ∃ v', r = .ok (.ready v') := by
  rcases r with err | (x | -)
  · cases h
  · exact ⟨x, rfl⟩
  · cases h

theorem Poll.mapErr_eq_ready {E T : Type} {f : E → E} {r : Poll E T} {v : T}
    (h : r.mapErr f = .ok (.ready v)) : ∃ v', r = .ok (.ready v') := by
  rcases r with err | (x | -)
  · cases h
  · exact ⟨x, rfl⟩
  · cases h

/-- The owed takes of the side that is polled, however `or` or `or_strict` selected it. -/
theorem orState_poll_owes {vs : List Type} {c : EndpointAction ε Bd Env (OrState σ τ) vs}
    {e1 : EndpointAction ε Bd Env σ ts} {e2 : EndpointAction ε Bd Env τ us} {i1 : σ} {i2 : τ}
    {n1 n2 : Nat} {P1 : σ → Nat → Prop} {P2 : τ → Nat → Prop} (h1 : Owes e1 i1 n1 P1)
    (h2 : Owes e2 i2 n2 P2) {out1 : Poll (Error ε) (HList ts) → Poll (Error ε) (HList vs)}
    {out2 : Poll (Error ε) (HList us) → Poll (Error ε) (HList vs)}
    (hready1 : ∀ {r v}, out1 r = .ok (.ready v) → ∃ v', r = .ok (.ready v'))
    (hnot1 : ∀ {r}, out1 r = .ok .notReady → r = .ok .notReady)
    (hready2 : ∀ {r v}, out2 r = .ok (.ready v) → ∃ v', r = .ok (.ready v'))
    (hnot2 : ∀ {r}, out2 r = .ok .notReady → r = .ok .notReady)
    (hleft : ∀ t w, c.pollAction (.left t) w = do
      let (r, t, w) ← under .left (e1.pollAction t w)
      return (out1 r, .left t, w))
    (hright : ∀ t w, c.pollAction (.right t) w = do
      let (r, t, w) ← under .right (e2.pollAction t w)
      return (out2 r, .right t, w)) (s : OrState σ τ) (k : Nat) (w : World Bd Env) (m : Nat)
    (hs : s.Due P1 P2 k) :
    Counts m (c.pollAction s w) fun a m' => Paid (OrState.Due P1 P2) (m + k) a.1 a.2.1 m' := by
  rcases hs with ⟨t, j, rfl, ht, hkj⟩ | ⟨t, j, rfl, ht, hkj⟩
  · rw [hleft]
    exact passed_owes h1 .left hready1 hnot1 OrState.left w m ht hkj
      fun s j hj => Or.inl ⟨s, j, rfl, hj, Nat.le_refl j⟩
  · rw [hright]
    exact passed_owes h2 .right hready2 hnot2 OrState.right w m ht hkj
      fun s j hj => Or.inr ⟨s, j, rfl, hj, Nat.le_refl j⟩

theorem owes_or {T1 T2 : Type} {e1 : EndpointAction ε Bd Env σ [T1]}
    {e2 : EndpointAction ε Bd Env τ [T2]} {i1 : σ} {i2 : τ} {n1 n2 : Nat} {P1 : σ → Nat → Prop}
    {P2 : τ → Nat → Prop} (h1 : Owes e1 i1 n1 P1) (h2 : Owes e2 i2 n2 P2) :
    Owes (OrAction.action e1 e2) (.init i1 i2) (min n1 n2) (OrState.Due P1 P2) where
  preflight cx m := by
    refine accepts_bind ((counts_under .left (h1.preflight cx m)).mono ?_)
    rintro ⟨r1, s1, c1⟩ m1 ⟨hdone1, hdue1⟩
    refine accepts_bind ((counts_under .right (h2.preflight cx m1)).mono ?_)
    rintro ⟨r2, s2, c2⟩ m2 ⟨hdone2, hdue2⟩
    have hleft : ∀ {v}, r1 = .ok (.completed v) → min n1 n2 = 0 := fun hv => by
      rw [hdone1 _ hv, Nat.zero_min]
    have hright : ∀ {v}, r2 = .ok (.completed v) → min n1 n2 = 0 := fun hv => by
      rw [hdone2 _ hv, Nat.min_zero]
    have hleft' : r1 = .ok .incomplete → OrState.Due P1 P2 (.left s1) (min n1 n2) := fun hv =>
      Or.inl ⟨s1, n1, rfl, hdue1 hv, Nat.min_le_left n1 n2⟩
    have hright' : r2 = .ok .incomplete → OrState.Due P1 P2 (.right s2) (min n1 n2) := fun hv =>
      Or.inr ⟨s2, n2, rfl, hdue2 hv, Nat.min_le_right n1 n2⟩
    rcases r1 with err | (x1 | -)
    · rcases r2 with err' | (x2 | -)
      · exact accepts_pure ⟨by rintro v ⟨⟩, by rintro ⟨⟩⟩
      · exact accepts_pure ⟨fun _ _ => hright rfl, by rintro ⟨⟩⟩
      · exact accepts_pure ⟨by rintro v ⟨⟩, fun _ => hright' rfl⟩
    · rcases r2 with err' | (x2 | -)
      · exact accepts_pure ⟨fun _ _ => hleft rfl, by rintro ⟨⟩⟩
      · dsimp only
        split
        · exact accepts_pure ⟨fun _ _ => hleft rfl, by rintro ⟨⟩⟩
        · exact accepts_pure ⟨fun _ _ => hright rfl, by rintro ⟨⟩⟩
      · dsimp only
        split
        · exact accepts_pure ⟨fun _ _ => hleft rfl, by rintro ⟨⟩⟩
        · exact accepts_pure ⟨by rintro v ⟨⟩, fun _ => hright' rfl⟩
    · rcases r2 with err' | (x2 | -)
      · exact accepts_pure ⟨by rintro v ⟨⟩, fun _ => hleft' rfl⟩
      · dsimp only
        split
        · exact accepts_pure ⟨by rintro v ⟨⟩, fun _ => hleft' rfl⟩
        · exact accepts_pure ⟨fun _ _ => hright rfl, by rintro ⟨⟩⟩
      · dsimp only
        split
        · exact accepts_pure ⟨by rintro v ⟨⟩, fun _ => hleft' rfl⟩
        · exact accepts_pure ⟨by rintro v ⟨⟩, fun _ => hright' rfl⟩
  poll := orState_poll_owes h1 h2 Poll.map_eq_ready Poll.map_eq_notReady Poll.map_eq_ready
    Poll.map_eq_notReady (fun _ _ => rfl) fun _ _ => rfl

theorem owes_orStrict {e1 : EndpointAction ε Bd Env σ ts} {e2 : EndpointAction ε Bd Env τ ts}
    {i1 : σ} {i2 : τ} {n1 n2 : Nat} {P1 : σ → Nat → Prop} {P2 : τ → Nat → Prop}
    (h1 : Owes e1 i1 n1 P1) (h2 : Owes e2 i2 n2 P2) :
    Owes (OrStrictAction.action e1 e2) (.init i1 i2) (min n1 n2) (OrState.Due P1 P2) where
  preflight cx m := by
    refine accepts_bind ((counts_under .left (h1.preflight cx m)).mono ?_)
    rintro ⟨r1, s1, c1⟩ m1 ⟨hdone1, hdue1⟩
    rcases r1 with err | (x1 | -)
    · refine accepts_bind ((counts_under .right (h2.preflight _ m1)).mono ?_)
      rintro ⟨r2, s2, c2⟩ m2 ⟨hdone2, hdue2⟩
      rcases r2 with err' | (x2 | -)
      · exact accepts_pure ⟨by rintro v ⟨⟩, by rintro ⟨⟩⟩
      · refine accepts_pure ⟨fun _ _ => ?_, by rintro ⟨⟩⟩
        rw [hdone2 _ rfl, Nat.min_zero]
      · exact accepts_pure ⟨by rintro v ⟨⟩,
          fun _ => Or.inr ⟨s2, n2, rfl, hdue2 rfl, Nat.min_le_right n1 n2⟩⟩
    · refine accepts_pure ⟨fun _ _ => ?_, by rintro ⟨⟩⟩
      rw [hdone1 _ rfl, Nat.zero_min]
    · exact accepts_pure ⟨by rintro v ⟨⟩,
        fun _ => Or.inl ⟨s1, n1, rfl, hdue1 rfl, Nat.min_le_left n1 n2⟩⟩
  poll := orState_poll_owes h1 h2 (fun h => ⟨_, h⟩) (fun h => h) (fun h => ⟨_, h⟩) (fun h => h)
    (fun _ _ => rfl) fun _ _ => rfl

theorem owes_map {U : Type} {e : EndpointAction ε Bd Env σ ts} {init : σ} {n : Nat}
    {P : σ → Nat → Prop} (h : Owes e init n P) (f : HList ts → U) :
    Owes (MapAction.action e f) init n P where
  preflight cx m := by
    refine accepts_bind ((counts_under .inner (h.preflight cx m)).mono ?_)
    rintro ⟨r, s, c⟩ m' ⟨hdone, hdue⟩
    rcases r with err | (x | -)
    · exact accepts_pure ⟨by rintro v ⟨⟩, by rintro ⟨⟩⟩
    · exact accepts_pure ⟨fun _ _ => hdone x rfl, by rintro ⟨⟩⟩
    · exact accepts_pure ⟨by rintro v ⟨⟩, fun _ => hdue rfl⟩
  poll s k w m hs := passed_owes h .inner Poll.map_eq_ready Poll.map_eq_notReady id w m hs
    (Nat.le_refl k) fun _ _ hj => hj

theorem owes_mapErr {e : EndpointAction ε Bd Env σ ts} {init : σ} {n : Nat} {P : σ → Nat → Prop}
    (h : Owes e init n P) (f : Error ε → Error ε) : Owes (MapErrAction.action e f) init n P where
  preflight cx m := by
    refine accepts_bind ((counts_under .inner (h.preflight cx m)).mono ?_)
    rintro ⟨r, s, c⟩ m' ⟨hdone, hdue⟩
    rcases r with err | (x | -)
    · exact accepts_pure ⟨by rintro v ⟨⟩, by rintro ⟨⟩⟩
    · exact accepts_pure ⟨fun _ _ => hdone x rfl, by rintro ⟨⟩⟩
    · exact accepts_pure ⟨by rintro v ⟨⟩, fun _ => hdue rfl⟩
  poll s k w m hs := passed_owes h .inner Poll.mapErr_eq_ready Poll.mapErr_eq_notReady id w m hs
    (Nat.le_refl k) fun _ _ hj => hj

/-- What an `and_then` still owes: nothing once the closure has been called. -/
def InFlight.Due {Fut : Type} (P : σ → Nat → Prop) (s : InFlight σ Fut) (k : Nat) : Prop :=
  (s.inFlight = none ∧ P s.action k) ∨ (s.inFlight.isSome = true ∧ k = 0)

/-- The future of a closure takes nothing. -/
theorem counts_pollInFlight {Fut T : Type} {P : σ → Nat → Prop} (fut : FutureAction ε Env Fut T)
    (action : σ) (inFlight : Fut) (w : World Bd Env) {m due : Nat} (h : due ≤ m) :
    Counts m (pollInFlight fut action inFlight w) fun a m' =>
      Paid (InFlight.Due P) due a.1 a.2.1 m' := by
  unfold pollInFlight FutureAction.pollInFlight
  obtain ⟨r, fl, th⟩ := fut.poll inFlight w.thread
  refine accepts_bind (counts_mk rfl (accepts_pure ⟨fun _ _ => h, fun _ => ?_⟩))
  exact ⟨0, Or.inr ⟨rfl, rfl⟩, h⟩

theorem counts_callClosure {α Fut T : Type} {P : σ → Nat → Prop} (fut : FutureAction ε Env Fut T)
    (f : α → Fut) (x : α) (action : σ) (w : World Bd Env) {m due : Nat} (h : due ≤ m) :
    Counts m (do
      let inFlight ← callClosure f x
      pollInFlight fut action inFlight w) fun a m' => Paid (InFlight.Due P) due a.1 a.2.1 m' :=
  accepts_bind (counts_mk rfl (counts_pollInFlight fut action (f x) w h))

theorem owes_andThen {Fut T : Type} {e : EndpointAction ε Bd Env σ ts} {init : σ} {n : Nat}
    {P : σ → Nat → Prop} (h : Owes e init n P) (fut : FutureAction ε Env Fut T)
    (f : HList ts → Fut) :
    Owes (AndThenAction.action e fut f) ⟨init, none⟩ n (InFlight.Due P) where
  preflight cx m := by
    refine accepts_bind ((counts_under .inner (h.preflight cx m)).mono ?_)
    rintro ⟨r, s, c⟩ m' ⟨hdone, hdue⟩
    rcases r with err | (x | -)
    · exact accepts_pure ⟨by rintro v ⟨⟩, by rintro ⟨⟩⟩
    · refine accepts_bind (counts_mk rfl (accepts_pure ⟨by rintro v ⟨⟩, fun _ => ?_⟩))
      exact Or.inr ⟨rfl, hdone x rfl⟩
    · exact accepts_pure ⟨by rintro v ⟨⟩, fun _ => Or.inl ⟨rfl, hdue rfl⟩⟩
  poll := by
    rintro ⟨action, inFlight⟩ k w m (⟨rfl, hP⟩ | ⟨hsome, rfl⟩)
    · refine accepts_bind ((counts_under .inner (h.poll action k w m hP)).mono ?_)
      rintro ⟨r, s', w'⟩ m' ⟨hpaid, howed⟩
      rcases r with err | (x | -)
      · exact accepts_pure paid_err
      · exact counts_callClosure fut f x s' w' (hpaid x rfl)
      · obtain ⟨j, hj, hle⟩ := howed rfl
        exact accepts_pure (paid_notReady (Or.inl ⟨rfl, hj⟩) hle)
    · obtain ⟨fl, rfl⟩ := Option.isSome_iff_exists.mp hsome
      exact counts_pollInFlight fut action fl w (Nat.le_refl m)

/-- The count never goes down. -/
theorem Counts.le {α : Type} {m : Nat} {t : Traced Panic Event α} {Q : α → Nat → Prop}
    (h : Counts m t Q) : Counts m t fun a m' => Q a m' ∧ m ≤ m' := by
  obtain ⟨⟨m', hrun, hQ⟩, hres⟩ := h
  refine ⟨⟨m', hrun, fun a ha => ⟨hQ a ha, ?_⟩⟩, hres⟩
  rw [run_countStep] at hrun
  have hm' := Option.some.inj hrun
  omega

/-- A `recover` owes nothing: its closure may bring a result without the body. -/
def InFlight.Owing {Fut : Type} (P : σ → Nat → Prop) (s : InFlight σ Fut) (k : Nat) : Prop :=
  k = 0 ∧ ((s.inFlight = none ∧ ∃ j, P s.action j) ∨ s.inFlight.isSome = true)

theorem owes_recover {Fut T : Type} {e : EndpointAction ε Bd Env σ [T]} {init : σ} {n : Nat}
    {P : σ → Nat → Prop} (h : Owes e init n P) (fut : FutureAction ε Env Fut T)
    (f : Error ε → Fut) :
    Owes (RecoverAction.action e fut f) ⟨init, none⟩ 0 (InFlight.Owing P) where
  preflight cx m := by
    refine accepts_bind ((counts_under .inner (h.preflight cx m)).mono ?_)
    rintro ⟨r, s, c⟩ m' ⟨-, hdue⟩
    rcases r with err | (x | -)
    · refine accepts_bind (counts_mk rfl (accepts_pure ⟨by rintro v ⟨⟩, fun _ => ?_⟩))
      exact ⟨rfl, Or.inr rfl⟩
    · exact accepts_pure ⟨fun _ _ => rfl, by rintro ⟨⟩⟩
    · exact accepts_pure ⟨by rintro v ⟨⟩, fun _ => ⟨rfl, Or.inl ⟨rfl, n, hdue rfl⟩⟩⟩
  poll := by
    have hfuture : ∀ {m m' : Nat} {r : Poll (Error ε) (HList [T])} {s : InFlight σ Fut},
        Paid (InFlight.Due fun _ _ => False) m r s m' → Paid (InFlight.Owing P) m r s m' := by
      rintro m m' r s ⟨hpaid, howed⟩
      refine ⟨hpaid, fun hr => ?_⟩
      obtain ⟨j, (⟨-, hj⟩ | ⟨hsome, rfl⟩), hle⟩ := howed hr
      · exact hj.elim
      · exact ⟨0, ⟨rfl, Or.inr hsome⟩, hle⟩
    rintro ⟨action, inFlight⟩ k w m ⟨rfl, (⟨rfl, j, hP⟩ | hsome)⟩
    · refine accepts_bind ((counts_under .inner (h.poll action j w m hP).le).mono ?_)
      rintro ⟨r, s', w'⟩ m' ⟨⟨-, howed⟩, hle⟩
      rcases r with err | (x | -)
      · exact (counts_callClosure fut f err s' w' hle).mono fun _ _ => hfuture
      · exact accepts_pure (paid_ready hle)
      · obtain ⟨i, hi, -⟩ := howed rfl
        exact accepts_pure (paid_notReady ⟨rfl, Or.inl ⟨rfl, i, hi⟩⟩ hle)
    · obtain ⟨fl, rfl⟩ := Option.isSome_iff_exists.mp hsome
      exact (counts_pollInFlight fut action fl w (Nat.le_refl m)).mono fun _ _ => hfuture

/-! ## Trees -/

/-- How often an endpoint takes the body before it is ready: both sides of an `and` take theirs, of
an `or` only one side is polled, and a `recover` may be ready without. -/
inductive Needs : {ts : List Type} → Endpoint ε Bd Env ts → Nat → Prop where
  | leaf {ts : List Type} {σ : Type} {a : LeafAction ε Bd Env σ ts} {init : σ} {n : Nat}
      {P : σ → Nat → Prop} (h : Owes a.action init n P) : Needs (.leaf σ a init) n
  | oneshot {ts : List Type} (σ : Type) (a : OneshotAction ε σ ts) (init : σ) :
      Needs (.oneshot σ a init) 0
  | future {ts : List Type} (Fut : Type) (f : FutureAction ε Env Fut (HList ts)) (init : Fut) :
      Needs (.future Fut f init) 0
  | and {ts us : List Type} {e1 : Endpoint ε Bd Env ts} {e2 : Endpoint ε Bd Env us} {n1 n2 : Nat} :
      Needs e1 n1 → Needs e2 n2 → Needs (.and e1 e2) (n1 + n2)
  | or {T1 T2 : Type} {e1 : Endpoint ε Bd Env [T1]} {e2 : Endpoint ε Bd Env [T2]} {n1 n2 : Nat} :
      Needs e1 n1 → Needs e2 n2 → Needs (.or e1 e2) (min n1 n2)
  | orStrict {ts : List Type} {e1 e2 : Endpoint ε Bd Env ts} {n1 n2 : Nat} :
      Needs e1 n1 → Needs e2 n2 → Needs (.orStrict e1 e2) (min n1 n2)
  | map {ts : List Type} {U : Type} {e : Endpoint ε Bd Env ts} {n : Nat} (f : HList ts → U) :
      Needs e n → Needs (.map e f) n
  | mapErr {ts : List Type} {e : Endpoint ε Bd Env ts} {n : Nat} (f : Error ε → Error ε) :
      Needs e n → Needs (.mapErr e f) n
  | andThen {ts : List Type} {T Fut : Type} {e : Endpoint ε Bd Env ts} {n : Nat}
      (fut : FutureAction ε Env Fut T) (f : HList ts → Fut) :
      Needs e n → Needs (.andThen Fut e fut f) n
  | recover {T Fut : Type} {e : Endpoint ε Bd Env [T]} {n : Nat} (fut : FutureAction ε Env Fut T)
      (f : Error ε → Fut) : Needs e n → Needs (.recover Fut e fut f) 0
  | boxed {ts : List Type} {e : Endpoint ε Bd Env ts} {n : Nat} : Needs e n → Needs (.boxed e) n

theorem Needs.owes {e : Endpoint ε Bd Env ts} {n : Nat} (h : Needs e n) :
    ∃ P, Owes e.impl e.spawn n P := by
  induction h with
  | leaf h => exact ⟨_, h⟩
  | oneshot σ a init => exact ⟨_, owes_oneshot a init⟩
  | future Fut f init => exact ⟨_, owes_future f init⟩
  | and _ _ ih1 ih2 =>
    obtain ⟨P1, h1⟩ := ih1
    obtain ⟨P2, h2⟩ := ih2
    exact ⟨_, owes_and h1 h2⟩
  | or _ _ ih1 ih2 =>
    obtain ⟨P1, h1⟩ := ih1
    obtain ⟨P2, h2⟩ := ih2
    exact ⟨_, owes_or h1 h2⟩
  | orStrict _ _ ih1 ih2 =>
    obtain ⟨P1, h1⟩ := ih1
    obtain ⟨P2, h2⟩ := ih2
    exact ⟨_, owes_orStrict h1 h2⟩
  | map f _ ih =>
    obtain ⟨P, h⟩ := ih
    exact ⟨_, owes_map h f⟩
  | mapErr f _ ih =>
    obtain ⟨P, h⟩ := ih
    exact ⟨_, owes_mapErr h f⟩
  | andThen fut f _ ih =>
    obtain ⟨P, h⟩ := ih
    exact ⟨_, owes_andThen h fut f⟩
  | recover fut f _ ih =>
    obtain ⟨P, h⟩ := ih
    exact ⟨_, owes_recover h fut f⟩
  | boxed _ ih => exact ih

/-! ## Runs -/

section

variable {f : EndpointAction ε Bd Env σ ts} {init : σ} {n : Nat} {P : σ → Nat → Prop}

/-- What the handling of a request still owes. -/
def AppFuture.Due (init : σ) (n : Nat) (P : σ → Nat → Prop) (fut : AppFuture σ Bd) (k : Nat) :
    Prop :=
  (fut.state = .start (some init) ∧ k = n) ∨ ∃ s, fut.state = .inFlight s ∧ P s k

theorem counts_inFlight (hf : Owes f init n P) (fut : AppFuture σ Bd) {s : σ} (th : Thread Env)
    {k : Nat} (m : Nat) (hs : P s k) :
    Counts m (AppFuture.pollInFlight f fut s th) fun a m' =>
      Paid (AppFuture.Due init n P) (m + k) a.1 a.2.1 m' := by
  refine accepts_bind ((hf.poll s k (fut.world th) m hs).mono ?_)
  rintro ⟨r, s', w'⟩ m' ⟨hpaid, howed⟩
  refine accepts_pure ⟨hpaid, fun hr => ?_⟩
  obtain ⟨j, hj, hle⟩ := howed hr
  exact ⟨j, Or.inr ⟨s', rfl, hj⟩, hle⟩

theorem counts_pollApply (hf : Owes f init n P) {fut : AppFuture σ Bd} (th : Thread Env) {k : Nat}
    (m : Nat) (hfut : fut.Due init n P k) :
    Counts m (AppFuture.pollApply f fut th) fun a m' =>
      Paid (AppFuture.Due init n P) (m + k) a.1 a.2.1 m' := by
  unfold AppFuture.pollApply
  rcases hfut with ⟨hstart, rfl⟩ | ⟨s, hs, hP⟩
  · rw [hstart]
    refine accepts_bind ((hf.preflight (.new fut.context) m).le.mono ?_)
    rintro ⟨r, s, c⟩ m' ⟨⟨hdone, hdue⟩, hle⟩
    rcases r with err | (x | -)
    · exact accepts_pure paid_err
    · refine accepts_pure (paid_ready ?_)
      rw [hdone x rfl]
      exact hle
    · refine (counts_inFlight hf fut th m' (hdue rfl)).mono ?_
      rintro a m'' ⟨hpaid, howed⟩
      refine ⟨fun v hv => ?_, fun hv => ?_⟩
      · have := hpaid v hv
        omega
      · obtain ⟨j, hj, hle'⟩ := howed hv
        exact ⟨j, hj, by omega⟩
  · rw [hs]
    exact counts_inFlight hf fut th m hP

theorem counts_drive (hf : Owes f init n P) (gs : List (Thread Env → Thread Env))
    {fut : AppFuture σ Bd} (th : Thread Env) {k : Nat} (m : Nat) (hfut : fut.Due init n P k) :
    Counts m (drive f gs fut th) fun a m' => ∀ x, a.1 = some (.ok x) → m + k ≤ m' := by
  induction gs generalizing fut th k m with
  | nil => exact accepts_pure (by rintro x ⟨⟩)
  | cons g gs ih =>
    refine accepts_bind ((counts_pollApply hf (g th) m hfut).mono ?_)
    rintro ⟨r, fut', th'⟩ m' ⟨hpaid, howed⟩
    rcases r with err | (x | -)
    · exact accepts_pure (by rintro x ⟨⟩)
    · exact accepts_pure fun _ _ => hpaid x rfl
    · obtain ⟨j, hj, hle⟩ := howed rfl
      refine (ih th' m' hj).mono fun a m'' ha x hx => ?_
      have := ha x hx
      omega

end

/-- **An endpoint that needs the request body twice never succeeds**: whatever the request is and
however it is polled, no run of it ends with a value. -/
theorem needs_body_twice_fails (e : Endpoint ε Bd Env ts) {n : Nat} (h : Needs e n) (hn : 2 ≤ n)
    (addr : Nat) (request : Request) (body : Bd)
    (gs : List (Thread Env → Thread Env)) (th : Thread Env) {x : HList ts}
    {fut : AppFuture e.Action Bd} {th' : Thread Env} :
    (drive e.impl gs (.dispatch e addr request body) th).res ≠ .ok (some (.ok x), fut, th') := by
  intro hres
  obtain ⟨P, hP⟩ := h.owes
  have hstart : (AppFuture.dispatch e addr request body).Due e.spawn n P n := Or.inl ⟨rfl, rfl⟩
  obtain ⟨⟨m, hrun, hm⟩, -⟩ := counts_drive hP gs th 0 hstart
  rw [run_countStep] at hrun
  have hcount := hm _ hres x rfl
  obtain ⟨left, honce, -⟩ := taken_drive e addr request body gs th
  have hsum := Option.some.inj hrun
  omega

theorem needs_body_twice_fails_raw :
    (drive rawTwice.impl [id] (.dispatch rawTwice 0 getA ()) ⟨none, ()⟩).res ≠
      .ok (some (.ok ((), (), ())), .dispatch rawTwice 0 getA (), ⟨none, ()⟩) :=
  needs_body_twice_fails rawTwice (.and (.leaf (owes_raw Unit)) (.leaf (owes_raw Unit)))
    (Nat.le_refl 2) 0 getA () [id] ⟨none, ()⟩

end Finchers
