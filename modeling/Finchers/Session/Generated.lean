import Finchers.Session.System
import Finchers.Session.Ids

/-!
# Where the stored ids come from

A session that was read from Redis has an id only if a value was stored under it; a session that was
read from memory keeps any id its cookie had, and if its handler sets a value, that is stored under
this id.

* `Sound` — the invariant: every id under which a value is stored, or would be stored by a session
  that is being handled, was generated by the backend;
* `act_sound`, `step_sound` — the steps preserve it;
* `stored_ids_generated` — **every stored id was generated by the backend**: always with Redis, and
  in memory if no handler sets the value of a session whose id was not.
-/

set_option autoImplicit false

namespace Finchers.Session

open Transition

variable {ε : Type} {b : Backend} {x : Externals}

theorem calls_sessionId (s : RawSession) (calls : List Call) :
    (s.calls calls).sessionId = s.sessionId := by
  unfold RawSession.calls
  induction calls generalizing s with
  | nil => rfl
  | cons c cs ih =>
    rw [List.foldl_cons, ih]
    cases c <;> rfl

/-- The last call decides about the value. -/
theorem calls_value (s : RawSession) (calls : List Call) :
    (s.calls calls).value = match calls.getLast? with
      | none => s.value
      | some (.set value) => some value
      | some .remove => none := by
  rcases List.eq_nil_or_concat calls with rfl | ⟨cs, c, rfl⟩
  · rfl
  · unfold RawSession.calls
    rw [List.concat_eq_append, List.foldl_append, List.getLast?_append]
    cases c <;> rfl

/-- The ids that a request may go on to store a value under were generated. -/
def Phase.Sound (b : Backend) (generated : List Uuid) : Phase ε → Prop
  | .opened s _ => ∀ id, s.sessionId = some id → (s.value.isSome = true ∨ b ≠ .inMemory) →
      id ∈ generated
  | .handled s _ => ∀ id, s.sessionId = some id → s.value.isSome = true → id ∈ generated
  | _ => True

/-- The ids under which a value is stored were generated. -/
def Shared.Sound (g : Shared) : Prop := ∀ id, (g.store id).isSome = true → id ∈ g.generated

structure World.Sound (b : Backend) (w : World ε) : Prop where
  shared : w.shared.Sound
  phase : ∀ i, (w.phase i).Sound b w.shared.generated

theorem Phase.Sound.mono {ph : Phase ε} {generated generated' : List Uuid}
    (h : ph.Sound b generated) (hsub : ∀ id, id ∈ generated → id ∈ generated') :
    ph.Sound b generated' := by
  cases ph with
  | opened s input => exact fun id hid hv => hsub id (h id hid hv)
  | handled s input => exact fun id hid hv => hsub id (h id hid hv)
  | idle => trivial
  | reading f input => trivial
  | closed => trivial

/-- A handler that succeeds does not set the value of a session whose id was not generated: the last
of its calls, if there is any, is not `set`. -/
def KnownOrUnset (w : World ε) (st : Step ε) : Prop :=
  ∀ i calls s input id, st = .act i (.handle calls true) → w.phase i = .opened s input →
    s.sessionId = some id → id ∉ w.shared.generated → ∀ v, calls.getLast? ≠ some (.set v)

/-- A session that was just read. -/
theorem opened_sound {g g' : Shared} {ph : Phase ε} {a : Action ε} {s : RawSession}
    {input : Input ε} (hg : g.Sound) (h : act b x g ph a = some (g', .opened s input)) :
    g' = g ∧ (Phase.opened s input).Sound b g.generated := by
  obtain ⟨rfl, hfrom, hb⟩ := opened_spec h
  refine ⟨rfl, fun id hid hv => hg id ?_⟩
  rcases hv with hv | hv
  · rw [← hfrom.value id hid]
    exact hv
  · rcases hb with hb | hb
    · exact absurd hb hv
    · exact hb id hid

/-- A handled session: its id was generated if it has a value. -/
theorem handled_sound {s : RawSession} {input : Input ε} {generated : List Uuid} {calls : List Call}
    (h : (Phase.opened s input).Sound b generated)
    (hknown : b = .inMemory → ∀ id, s.sessionId = some id → id ∉ generated →
      ∀ v, calls.getLast? ≠ some (.set v)) :
    (Phase.handled (s.calls calls) input).Sound b generated := by
  intro id hid hv
  rw [calls_sessionId] at hid
  by_cases hb : b = .inMemory
  · by_contra hnot
    have hlast := hknown hb id hid hnot
    rw [calls_value] at hv
    split at hv
    · exact hnot (h id hid (Or.inl hv))
    · exact hlast _ ‹_›
    · cases hv
  · exact h id hid (Or.inr hb)

/-- A written session. -/
theorem write_sound {g : Shared} {s : RawSession} {input : Input ε} (hg : g.Sound)
    (h : (Phase.handled s input).Sound b g.generated) (new : Uuid) :
    Shared.Sound ⟨(b.write x new s g.store input).2,
      if s.takesNewId then new :: g.generated else g.generated⟩ := by
  intro id hid
  have hsub : id ∈ g.generated →
      id ∈ if s.takesNewId then new :: g.generated else g.generated := by
    intro hmem
    split
    · exact List.mem_cons_of_mem new hmem
    · exact hmem
  simp only at hid ⊢
  rcases b.write_spec x new s g.store input with hw | ⟨id', -, -, hw⟩ | ⟨v, hv, hw⟩
  · rw [hw] at hid
    exact hsub (hg id hid)
  · rw [hw] at hid
    exact hsub (hg id (Storage.isSome_of_remove hid))
  · rw [hw] at hid
    unfold Storage.set at hid
    by_cases heq : id = s.sessionId.getD new
    · rcases hs : s.sessionId with - | id'
      · have hnew : s.takesNewId = true := by
          unfold RawSession.takesNewId
          rw [hs, hv]
          rfl
        rw [hs] at heq
        rw [if_pos hnew, heq]
        exact List.mem_cons_self
      · rw [hs] at heq
        obtain rfl : id = id' := heq
        exact hsub (h id hs (by rw [hv]; rfl))
    · rw [Function.update_of_ne heq] at hid
      exact hsub (hg id hid)

/-- One step of one request. -/
theorem act_sound {g g' : Shared} {ph ph' : Phase ε} {a : Action ε} (hg : g.Sound)
    (hph : ph.Sound b g.generated) (h : act b x g ph a = some (g', ph'))
    (hknown : b = .inMemory → ∀ s input calls, ph = .opened s input → a = .handle calls true →
      ∀ id, s.sessionId = some id → id ∉ g.generated → ∀ v, calls.getLast? ≠ some (.set v)) :
    g'.Sound ∧ ph'.Sound b g'.generated ∧ ∀ id, id ∈ g.generated → id ∈ g'.generated := by
  rcases act_cases h with ⟨rfl, hph'⟩ | ⟨s, input, rfl⟩ | ⟨s, input, calls, rfl, rfl, rfl, rfl⟩ |
    ⟨s, input, new, rfl, rfl, rfl, rfl⟩
  · refine ⟨hg, ?_, fun _ hid => hid⟩
    rcases hph' with ⟨f, input, rfl⟩ | rfl
    · trivial
    · trivial
  · obtain ⟨rfl, hs⟩ := opened_sound hg h
    exact ⟨hg, hs, fun _ hid => hid⟩
  · refine ⟨hg, ?_, fun _ hid => hid⟩
    exact handled_sound hph fun hb => hknown hb s input calls rfl rfl
  · refine ⟨write_sound hg hph new, trivial, fun id hid => ?_⟩
    simp only
    split
    · exact List.mem_cons_of_mem new hid
    · exact hid

/-- One step of the system. -/
theorem step_sound {w w' : World ε} {st : Step ε} (hw : w.Sound b)
    (hknown : b = .inMemory → KnownOrUnset w st) (h : step b x w st = some w') :
    w'.Sound b := by
  cases st with
  | act i a =>
    obtain ⟨g, ph, hact, rfl⟩ := step_act h
    obtain ⟨hg, hph, hsub⟩ := act_sound hw.shared (hw.phase i) hact
      fun hb s input calls hphase ha id => hknown hb i calls s input id (by rw [ha]) hphase
    refine ⟨hg, fun j => ?_⟩
    show (Function.update w.phase i ph j).Sound b g.generated
    by_cases hj : j = i
    · subst hj
      rw [Function.update_self]
      exact hph
    · rw [Function.update_of_ne hj]
      exact (hw.phase j).mono hsub
  | expire id =>
    obtain rfl := step_expire h
    exact ⟨fun id' hid => hw.shared id' (Storage.isSome_of_remove hid), hw.phase⟩

theorem init_sound : World.Sound b (World.init : World ε) where
  shared id h := by cases h
  phase _ := trivial

/-- **Every stored id was generated by the backend**, in every state that a run from an empty store
reaches: with Redis always, and in memory if in the steps of the run no handler that succeeds sets the
value of a session whose id was not generated. -/
theorem stored_ids_generated (b : Backend) (x : Externals) {steps : List (Step ε)} {w : World ε}
    (hrun : run (step b x) .init steps = some w)
    (hmeets : b = .inMemory → Meets (step b x) KnownOrUnset .init steps) (id : Uuid)
    (hid : (w.shared.store id).isSome = true) : id ∈ w.shared.generated := by
  have hC : Meets (step b x) (fun w st => b = .inMemory → KnownOrUnset w st) .init steps :=
    fun pre st post t heq hpre hb => hmeets hb pre st post t heq hpre
  exact (run_invariant step_sound init_sound hC hrun).shared id hid

/-- The cookie of the first request has the id 7, and its handler sets a value. -/
def chosenId : List (Step Empty) :=
  [.act 0 (.apply ⟨.ok (CookieJar.new.addOriginal
      (.new "session-id".toList "00000000-0000-0000-0000-000000000007".toList))⟩),
    .act 0 (.handle [.set "a".toList] true), .act 0 (.write 8)]

/-- The first request has no session, and its handler sets a value. -/
def newSession : List (Step Empty) :=
  [.act 0 (.apply ⟨.ok .new⟩), .act 0 (.handle [.set "a".toList] true), .act 0 (.write 8)]

/-- In memory the value of the first request is stored under 7, which was not generated. -/
theorem stored_id_chosen : ∃ w, run (step .inMemory hyphenated) .init chosenId = some w ∧
    ¬ ((w.shared.store 7).isSome = true → 7 ∈ w.shared.generated) := by
  refine ⟨_, rfl, ?_⟩
  intro h
  exact absurd (h rfl) List.not_mem_nil

theorem stored_id_new : ∃ w, run (step .inMemory hyphenated) .init newSession = some w ∧
    (w.shared.store 8).isSome = true ∧ 8 ∈ w.shared.generated := by
  have hmeets : Meets (step .inMemory hyphenated) KnownOrUnset .init newSession := by
    refine .cons ?_ fun t ht => .cons ?_ fun u _ => .cons ?_ fun _ _ => .nil
    · intro i calls s input id hst
      cases hst
    · cases ht
      intro i calls s input id hst hphase hid
      cases hst
      cases hphase
      cases hid
    · intro i calls s input id hst
      cases hst
  obtain ⟨w, hrun, hid⟩ : ∃ w, run (step .inMemory hyphenated) .init newSession = some w ∧
      (w.shared.store 8).isSome = true := ⟨_, rfl, rfl⟩
  exact ⟨w, hrun, hid, stored_ids_generated .inMemory hyphenated hrun (fun _ => hmeets) 8 hid⟩

end Finchers.Session
