import Finchers.Library
import Finchers.OrTree
import Finchers.StrictTree

/-!
# Alternatives that match the whole path

`or` tries all alternatives and selects the one that popped the most segments, `or_strict` tries them
one after the other and selects the first that matches.  Alternatives that only match at the end of
the path have all popped the same segments when they match.

* `Endpoint.preflight_safe` — `preflight` of an endpoint of the library returns;
* `Exhausts` — the endpoints of the library that only match at the end of the path;
* `OrTree.strict` — the same alternatives, joined by `or_strict`;
* `exhaustive_or_eq_or_strict` — **for such alternatives `or` and `or_strict` come to the same**.
-/

set_option autoImplicit false

namespace Finchers

open Resumable AppFuture

variable {ε Bd Env : Type} {ts us : List Type}

/-- `preflight` of an endpoint with safe leaves returns, and moves the cursor by segments. -/
theorem Endpoint.preflight_safe {e : Endpoint ε Bd Env ts} (he : e.LeavesSafe)
    {cx : PreflightContext} (hcx : Cursor.Within cx.path cx.cursor) :
    ∃ l r s c, e.preflight cx = ⟨l, .ok (r, s, c)⟩ ∧ Cursor.PopsTo cx.path cx.cursor c := by
  obtain ⟨P, hP⟩ := e.safe he
  obtain ⟨Q, hQ⟩ := e.conforming
  have hsound := hP.preflight cx hcx
  have hconforms := hQ.preflight cx
  rcases (e.preflight cx).eq_ok_or_error with ⟨l, ⟨r, s, c⟩, h⟩ | ⟨l, p, h⟩
  · obtain ⟨u, -, hpost⟩ := hsound.log
    exact ⟨l, r, s, c, h, (hpost _ (congrArg Traced.res h)).1⟩
  · obtain ⟨site, hsite⟩ := hsound.res p (congrArg Traced.res h)
    obtain ⟨a, ha⟩ := hconforms.res p (congrArg Traced.res h)
    rw [hsite] at ha
    cases ha

/-! ## Endpoints that match at the end of the path only -/

/-- An endpoint that matches has popped all segments of the path. -/
def Endpoint.Ends (e : Endpoint ε Bd Env ts) : Prop :=
  ∀ cx l x s c, e.preflight cx = ⟨l, .ok (.ok x, s, c)⟩ → Cursor.AtEnd cx.path c

/-- Where there is no segment left, the cursor cannot be moved. -/
theorem Cursor.AtEnd.stuck {path : Str} {c : CursorInner} (h : Cursor.AtEnd path c) :
    Cursor.Stuck path c := by
  intro s c' hn
  rw [Cursor.AtEnd, hn] at h
  cases h
  rfl

section

variable {e1 : Endpoint ε Bd Env ts} {e2 : Endpoint ε Bd Env us}

theorem ends_eos : (Endpoint.oneshot Unit MatchEosAction () : Endpoint ε Bd Env []).Ends := by
  intro cx l x s c h
  obtain ⟨out, hpre, hout⟩ := OneshotAction.preflight_inv h
  rcases hn : Cursor.nextSegment cx.path cx.cursor with p | ⟨_ | seg, c'⟩
  · simp only [MatchEosAction, hn, bind, Except.bind] at hpre
    cases hpre
  · have hstays : c' = cx.cursor := by
      rcases Cursor.nextSegment_cases hn with ⟨-, -, hc⟩ | ⟨-, hs, -⟩
      · exact hc
      · cases hs
    simp only [MatchEosAction, hn, bind, Except.bind] at hpre
    cases hpre
    rw [← hstays] at hn
    exact hn
  · simp only [MatchEosAction, hn, bind, Except.bind] at hpre
    cases hpre
    cases hout

theorem ends_remains (T : Type) [FromEncodedStr ε T] :
    (Endpoint.oneshot Unit (RemainsAction T) () : Endpoint ε Bd Env [T]).Ends := by
  intro cx l x s c h
  obtain ⟨out, hpre, -⟩ := OneshotAction.preflight_inv h
  simp only [RemainsAction, bind, Except.bind] at hpre
  rcases hr : Cursor.remainingPath cx.path cx.cursor with p | b
  · simp only [hr] at hpre
    cases hpre
  · rcases hn : Cursor.count cx.path cx.cursor with p | ⟨n, c'⟩
    · simp only [hr, hn] at hpre
      cases hpre
    · simp only [hr, hn] at hpre
      cases hpre
      exact (Cursor.popsTo_count hn).2

theorem ends_dir {Io : Type} (fs : FileSystem Io Env) (isDir : Str → Bool) (root : Str) :
    (Endpoint.leaf DirAction (DirAction.action fs isDir) (.new root) :
      Endpoint ε Bd Env [NamedFile Io]).Ends := by
  intro cx l x s c h
  have hpre : DirAction.preflight isDir cx (.new root) = .ok (.ok x, s, c) :=
    LeafAction.preflight_inv h
  simp only [DirAction.preflight, bind, Except.bind] at hpre
  rcases hr : Cursor.remainingPath cx.path cx.cursor with p | b
  · simp only [hr] at hpre
    cases hpre
  · rcases hn : Cursor.count cx.path cx.cursor with p | ⟨n, c'⟩
    · simp only [hr, hn] at hpre
      cases hpre
    · cases hpath : EncodedStr.percentDecode b with
      | error err =>
        simp only [hr, hn, hpath] at hpre
        cases hpre
      | ok path =>
        simp only [hr, hn, hpath] at hpre
        cases hpre
        exact (Cursor.popsTo_count hn).2

/-- What comes after the end of the path pops nothing. -/
theorem ends_and_left (h1 : e1.Ends) (h2 : e2.UsesCursor) : (e1.and e2).Ends := by
  intro cx l x s c h
  obtain ⟨-, l1, x1, s1, c1, l2, x2, s2, hp1, hp2⟩ := AndAction.preflight_inv h
  have hend : Cursor.AtEnd cx.path c1 := h1 cx l1 x1 s1 c1 hp1
  have hstuck : Cursor.Stuck (PreflightContext.mk cx.context c1).path c1 := hend.stuck
  have hc : c = c1 := h2.preflight_stuck hstuck hp2
  rw [hc]
  exact hend

theorem ends_and_right (h2 : e2.Ends) : (e1.and e2).Ends := by
  intro cx l x s c h
  obtain ⟨-, l1, x1, s1, c1, l2, x2, s2, hp1, hp2⟩ := AndAction.preflight_inv h
  exact h2 ⟨cx.context, c1⟩ l2 x2 s2 c hp2

theorem ends_or {T1 T2 : Type} {e1 : Endpoint ε Bd Env [T1]} {e2 : Endpoint ε Bd Env [T2]}
    (h1 : e1.Ends) (h2 : e2.Ends) : (e1.or e2).Ends := by
  intro cx l x s c h
  rcases (e1.preflight cx).eq_ok_or_error with ⟨l1, ⟨r1, s1, c1⟩, hp1⟩ | ⟨l1, p, hp1⟩
  · rcases (e2.preflight cx).eq_ok_or_error with ⟨l2, ⟨r2, s2, c2⟩, hp2⟩ | ⟨l2, p, hp2⟩
    · -- the cursor is that of the side that was selected
      by_cases hleft : ∃ x1, r1 = .ok x1 ∧ ∀ y, r2 = .ok y → c2.popped ≤ c1.popped
      · obtain ⟨x1, rfl, hle⟩ := hleft
        cases congrArg Traced.res ((OrAction.preflight_left hp1 hp2 hle).symm.trans h)
        exact h1 cx l1 x1 s1 c hp1
      · rcases r2 with err2 | x2
        · rcases r1 with err1 | x1
          · cases congrArg Traced.res ((OrAction.preflight_neither hp1 hp2).symm.trans h)
          · exact absurd ⟨x1, rfl, fun y hy => by cases hy⟩ hleft
        · have hlt : ∀ x1, r1 = .ok x1 → c1.popped < c2.popped := by
            intro x1 hx1
            by_contra hnot
            exact hleft ⟨x1, hx1, fun _ _ => by omega⟩
          cases congrArg Traced.res ((OrAction.preflight_right hp1 hp2 hlt).symm.trans h)
          exact h2 cx l2 x2 s2 c hp2
    · cases congrArg Traced.res ((OrAction.preflight_panic_right hp1 hp2).symm.trans h)
  · cases congrArg Traced.res ((OrAction.preflight_panic_left hp1).symm.trans h)

theorem ends_orStrict {e1 e2 : Endpoint ε Bd Env ts} (h1 : e1.Ends) (h2 : e2.Ends) :
    (e1.orStrict e2).Ends := by
  intro cx l x s c h
  rcases (e1.preflight cx).eq_ok_or_error with ⟨l1, ⟨err1 | x1, s1, c1⟩, hp1⟩ | ⟨l1, p, hp1⟩
  · rcases (e2.preflight cx).eq_ok_or_error with ⟨l2, ⟨err2 | x2, s2, c2⟩, hp2⟩ | ⟨l2, p, hp2⟩
    · cases congrArg Traced.res ((OrStrictAction.preflight_neither hp1 hp2).symm.trans h)
    · cases congrArg Traced.res ((OrStrictAction.preflight_right hp1 hp2).symm.trans h)
      exact h2 cx l2 x s2 c hp2
    · cases congrArg Traced.res ((OrStrictAction.preflight_panic_right hp1 hp2).symm.trans h)
  · cases congrArg Traced.res ((OrStrictAction.preflight_left hp1).symm.trans h)
    exact h1 cx l1 x s1 c hp1
  · cases congrArg Traced.res ((OrStrictAction.preflight_panic_left hp1).symm.trans h)

theorem ends_map {U : Type} (h1 : e1.Ends) (f : HList ts → U) : (e1.map f).Ends := by
  intro cx l x s c h
  obtain ⟨l1, r, hp, hr⟩ := MapAction.preflight_inv h
  rcases r with err | x1
  · cases hr
  · exact h1 cx l1 x1 s c hp

theorem ends_mapErr (h1 : e1.Ends) (f : Error ε → Error ε) : (e1.mapErr f).Ends := by
  intro cx l x s c h
  obtain ⟨l1, r, hp, hr⟩ := MapErrAction.preflight_inv h
  rcases r with err | x1
  · cases hr
  · exact h1 cx l1 x1 s c hp

theorem ends_andThen {Fut T : Type} (h1 : e1.Ends) (fut : FutureAction ε Env Fut T)
    (f : HList ts → Fut) : (Endpoint.andThen Fut e1 fut f).Ends := by
  intro cx l x s c h
  obtain ⟨l1, r, s1, hp, ⟨err, -, hr, -⟩ | ⟨y, rfl, -, -⟩ | ⟨rfl, -, -⟩⟩ :=
    AndThenAction.preflight_inv h
  · cases hr
  · exact h1 cx l1 _ s1 c hp
  · exact h1 cx l1 _ s1 c hp

end

/-- The endpoints of the library that match at the end of the path only. -/
inductive Exhausts : {ts : List Type} → Endpoint ε BodyStream Env ts → Prop where
  | eos : Exhausts (.oneshot Unit MatchEosAction ())
  | remains (T : Type) [FromEncodedStr ε T] : Exhausts (.oneshot Unit (RemainsAction T) ())
  | dir {Io : Type} (fs : FileSystem Io Env) (isDir : Str → Bool) (root : Str) :
      Exhausts (.leaf DirAction (DirAction.action fs isDir) (.new root))
  | and_left {ts us : List Type} {e1 : Endpoint ε BodyStream Env ts}
      {e2 : Endpoint ε BodyStream Env us} : Exhausts e1 → Library e2 → Exhausts (.and e1 e2)
  | and_right {ts us : List Type} {e1 : Endpoint ε BodyStream Env ts}
      {e2 : Endpoint ε BodyStream Env us} : Library e1 → Exhausts e2 → Exhausts (.and e1 e2)
  | or {T1 T2 : Type} {e1 : Endpoint ε BodyStream Env [T1]} {e2 : Endpoint ε BodyStream Env [T2]} :
      Exhausts e1 → Exhausts e2 → Exhausts (.or e1 e2)
  | orStrict {ts : List Type} {e1 e2 : Endpoint ε BodyStream Env ts} :
      Exhausts e1 → Exhausts e2 → Exhausts (.orStrict e1 e2)
  | map {ts : List Type} {U : Type} {e : Endpoint ε BodyStream Env ts} (f : HList ts → U) :
      Exhausts e → Exhausts (.map e f)
  | mapErr {ts : List Type} {e : Endpoint ε BodyStream Env ts} (f : Error ε → Error ε) :
      Exhausts e → Exhausts (.mapErr e f)
  | andThen {ts : List Type} {T : Type} (Fut : Type) {e : Endpoint ε BodyStream Env ts}
      (fut : FutureAction ε Env Fut T) (f : HList ts → Fut) :
      Exhausts e → Exhausts (.andThen Fut e fut f)
  | boxed {ts : List Type} {e : Endpoint ε BodyStream Env ts} : Exhausts e → Exhausts (.boxed e)

theorem Exhausts.library {e : Endpoint ε BodyStream Env ts} (h : Exhausts e) : Library e := by
  induction h with
  | eos => exact .eos
  | remains T => exact .remains T
  | dir fs isDir root => exact .dir fs isDir root
  | and_left _ h2 ih => exact ih.and h2
  | and_right h1 _ ih => exact h1.and ih
  | or _ _ ih1 ih2 => exact ih1.or ih2
  | orStrict _ _ ih1 ih2 => exact ih1.orStrict ih2
  | map f _ ih => exact ih.map f
  | mapErr f _ ih => exact ih.mapErr f
  | andThen Fut fut f _ ih => exact ih.andThen Fut fut f
  | boxed _ ih => exact ih.boxed

theorem Exhausts.ends {e : Endpoint ε BodyStream Env ts} (h : Exhausts e) : e.Ends := by
  induction h with
  | eos => exact ends_eos
  | remains T => exact ends_remains T
  | dir fs isDir root => exact ends_dir fs isDir root
  | and_left h1 h2 ih => exact ends_and_left ih h2.plainLeaves.usesCursor
  | and_right h1 _ ih => exact ends_and_right ih
  | or _ _ ih1 ih2 => exact ends_or ih1 ih2
  | orStrict _ _ ih1 ih2 => exact ends_orStrict ih1 ih2
  | map f _ ih => exact ends_map ih f
  | mapErr f _ ih => exact ends_mapErr ih f
  | andThen Fut fut f _ ih => exact ends_andThen ih fut f
  | boxed _ ih => exact ih

/-! ## `or` and `or_strict` -/

/-- An output of the alternatives, as `f` makes it one of the tree. -/
def asOutput {T U : Type} (f : T → U) (x : HList [T]) : HList [U] := .single (f x.head)

/-- The tree with its alternatives joined by `or_strict`. -/
def OrTree.strict : {T : Type} → OrTree ε Bd Env T → {U : Type} → (T → U) →
    StrictTree ε Bd Env [U]
  | _, .leaf e, _, f => .leaf (.map e (fun x => f x.head))
  | _, .or left right, _, f => .orStrict (left.strict (f ∘ .inl)) (right.strict (f ∘ .inr))

/-- What is seen of a run, with the output carried over. -/
def seenAs (F : HList ts → HList us)
    (a : Option (Except (Error ε) (HList ts)) × Context × Option Bd × Thread Env) :
    Option (Except (Error ε) (HList us)) × Context × Option Bd × Thread Env :=
  (a.1.map (Except.map F), a.2)

theorem res_passed {σ : Type} (φ : Event → Event) (F : HList ts → HList us)
    (m : Traced Panic Event
      (Option (Except (Error ε) (HList ts)) × AppFuture σ Bd × Thread Env)) :
    (passed φ F m).res = (observe m).res.map (seenAs F) := by
  unfold passed observe
  rcases m.eq_ok_or_error with ⟨l, a, rfl⟩ | ⟨l, p, rfl⟩
  · rfl
  · rfl

theorem seenAs_seenAs {vs : List Type} (F : HList ts → HList us) (G : HList us → HList vs)
    (a : Option (Except (Error ε) (HList ts)) × Context × Option Bd × Thread Env) :
    seenAs G (seenAs F a) = seenAs (G ∘ F) a := by
  obtain ⟨_ | err | x, rest⟩ := a
  · rfl
  · rfl
  · rfl

theorem seenAs_id (a : Option (Except (Error ε) (HList ts)) × Context × Option Bd × Thread Env) :
    seenAs id a = a := by
  obtain ⟨_ | err | x, rest⟩ := a
  · rfl
  · rfl
  · rfl

/-- A run of an action that passes every poll on comes to what the run of the component comes to. -/
theorem res_passes {σ τ : Type} (f : EndpointAction ε Bd Env σ ts)
    (e : EndpointAction ε Bd Env τ us) (φ : Event → Event) (F : HList us → HList ts) (emb : τ → σ)
    (hp : ∀ s w, f.pollAction (emb s) w = liftPoll φ F emb (e.pollAction s w))
    (gs : List (Thread Env → Thread Env)) (s : τ) (context : Context) (body : Option Bd)
    (th : Thread Env) :
    (observe (drive f gs ⟨.inFlight (emb s), context, body⟩ th)).res =
      (observe (drive e gs ⟨.inFlight s, context, body⟩ th)).res.map (seenAs F) :=
  (congrArg Traced.res (drive_passes hp gs s context body th)).trans (res_passed _ _ _)

theorem map_seenAs {vs : List Type} (F : HList ts → HList us) (G : HList us → HList vs)
    (r : Except Panic (Option (Except (Error ε) (HList ts)) × Context × Option Bd × Thread Env)) :
    (r.map (seenAs F)).map (seenAs G) = r.map (seenAs (G ∘ F)) := by
  cases r with
  | error p => rfl
  | ok a => exact congrArg Except.ok (seenAs_seenAs F G a)

theorem map_seenAs_id
    (r : Except Panic (Option (Except (Error ε) (HList ts)) × Context × Option Bd × Thread Env)) :
    r.map (seenAs id) = r := by
  cases r with
  | error p => rfl
  | ok a => exact congrArg Except.ok (seenAs_id a)

namespace OrTree

variable {T T1 T2 U : Type}

/-- A run in flight of the tree comes to what one of the strict tree comes to. -/
def RunsAs (t : OrTree ε Bd Env T) (f : T → U) (s : t.endpoint.Action)
    (s' : (t.strict f).endpoint.Action) : Prop :=
  ∀ gs context body th,
    (observe (drive t.endpoint.impl gs ⟨.inFlight s, context, body⟩ th)).res.map
        (seenAs (asOutput f)) =
      (observe (drive (t.strict f).endpoint.impl gs ⟨.inFlight s', context, body⟩ th)).res

/-- `preflight` of both trees fails with the same error, or matches at the end of the path with the
same output, or none yet. -/
def PreflightsAs (t : OrTree ε Bd Env T) (f : T → U) (cx : PreflightContext) : Prop :=
  (∃ l l' err s s' c c', t.endpoint.preflight cx = ⟨l, .ok (.error err, s, c)⟩ ∧
    (t.strict f).endpoint.preflight cx = ⟨l', .ok (.error err, s', c')⟩) ∨
  ∃ l l' x s s' c, t.endpoint.preflight cx = ⟨l, .ok (.ok x, s, c)⟩ ∧
    (t.strict f).endpoint.preflight cx = ⟨l', .ok (.ok (x.map (asOutput f)), s', c)⟩ ∧
    Cursor.PopsTo cx.path cx.cursor c ∧ Cursor.AtEnd cx.path c ∧
    (x = .incomplete → t.RunsAs f s s')

/-- An alternative. -/
theorem preflightsAs_leaf {e : Endpoint ε Bd Env [T]} (hsafe : e.LeavesSafe) (hends : e.Ends)
    (f : T → U) {cx : PreflightContext} (hcx : Cursor.Within cx.path cx.cursor) :
    (OrTree.leaf e).PreflightsAs f cx := by
  obtain ⟨l, r, s, c, hp, hpops⟩ := Endpoint.preflight_safe hsafe hcx
  have hmap : (e.map fun x => f x.head).preflight cx = _ := MapAction.preflight_eq hp
  rcases r with err | x
  · exact Or.inl ⟨l, _, err, s, s, c, c, hp, hmap⟩
  · refine Or.inr ⟨l, _, x, s, s, c, hp, hmap, hpops, hends cx l x s c hp, ?_⟩
    intro _ gs context body th
    have hpoll : ∀ s w, (e.map fun x => f x.head).impl.pollAction (id s) w =
        liftPoll (Event.under .inner) (asOutput f) id (e.pollAction s w) :=
      fun s w => under_bind_eq_liftPoll .inner (asOutput f) id (e.pollAction s w)
    exact (res_passes _ e.impl _ _ _ hpoll gs s context body th).symm

/-- A run of the left side, as one of the whole. -/
theorem RunsAs.left {left : OrTree ε Bd Env T1} (right : OrTree ε Bd Env T2) {f : T1 ⊕ T2 → U}
    {s : left.endpoint.Action} {s' : (left.strict (f ∘ .inl)).endpoint.Action}
    (h : left.RunsAs (f ∘ .inl) s s') :
    (left.or right).RunsAs f (OrState.left s) (OrState.left s') := by
  intro gs context body th
  have hor := res_passes (left.or right).endpoint.impl left.endpoint.impl _ _ _
    (OrAction.pollAction_left left.endpoint.impl right.endpoint.impl) gs s context body th
  have hpoll : ∀ s w, ((left.or right).strict f).endpoint.impl.pollAction (OrState.left s) w =
      liftPoll (Event.under .left) id OrState.left
        ((left.strict (f ∘ .inl)).endpoint.impl.pollAction s w) :=
    fun s w => liftPoll_id _ _ _
  have hstrict := res_passes ((left.or right).strict f).endpoint.impl
    (left.strict (f ∘ .inl)).endpoint.impl _ _ _ hpoll gs s' context body th
  rw [map_seenAs_id] at hstrict
  rw [hor, map_seenAs, hstrict]
  exact h gs context body th

theorem RunsAs.right (left : OrTree ε Bd Env T1) {right : OrTree ε Bd Env T2} {f : T1 ⊕ T2 → U}
    {s : right.endpoint.Action} {s' : (right.strict (f ∘ .inr)).endpoint.Action}
    (h : right.RunsAs (f ∘ .inr) s s') :
    (left.or right).RunsAs f (OrState.right s) (OrState.right s') := by
  intro gs context body th
  have hor := res_passes (left.or right).endpoint.impl right.endpoint.impl _ _ _
    (OrAction.pollAction_right left.endpoint.impl right.endpoint.impl) gs s context body th
  have hpoll : ∀ s w, ((left.or right).strict f).endpoint.impl.pollAction (OrState.right s) w =
      liftPoll (Event.under .right) id OrState.right
        ((right.strict (f ∘ .inr)).endpoint.impl.pollAction s w) :=
    fun s w => liftPoll_id _ _ _
  have hstrict := res_passes ((left.or right).strict f).endpoint.impl
    (right.strict (f ∘ .inr)).endpoint.impl _ _ _ hpoll gs s' context body th
  rw [map_seenAs_id] at hstrict
  rw [hor, map_seenAs, hstrict]
  exact h gs context body th

/-- An output of a side becomes the same output of the whole in both trees. -/
theorem map_map_asOutput {T' : Type} (inj : T' → T) (f : T → U) (x : Preflight (HList [T'])) :
    (x.map (fun out : HList [T'] => HList.single (inj out.head))).map (asOutput f) =
      x.map (asOutput (f ∘ inj)) := by
  cases x with
  | completed out => rfl
  | incomplete => rfl

theorem PreflightsAs.or {left : OrTree ε Bd Env T1} {right : OrTree ε Bd Env T2} {f : T1 ⊕ T2 → U}
    {cx : PreflightContext} (h1 : left.PreflightsAs (f ∘ .inl) cx)
    (h2 : right.PreflightsAs (f ∘ .inr) cx) : (left.or right).PreflightsAs f cx := by
  rcases h1 with ⟨l1, l1', err1, s1, s1', c1, c1', hp1, hp1'⟩ |
    ⟨l1, l1', x1, s1, s1', c1, hp1, hp1', hpops1, hend1, hruns1⟩
  · rcases h2 with ⟨l2, l2', err2, s2, s2', c2, c2', hp2, hp2'⟩ |
      ⟨l2, l2', x2, s2, s2', c2, hp2, hp2', hpops2, hend2, hruns2⟩
    · exact Or.inl ⟨_, _, _, _, _, _, _, OrAction.preflight_neither hp1 hp2,
        OrStrictAction.preflight_neither hp1' hp2'⟩
    · have hor := OrAction.preflight_right hp1 hp2 fun x hx => by cases hx
      have hstrict := OrStrictAction.preflight_right hp1' hp2'
      rw [← map_map_asOutput Sum.inr] at hstrict
      refine Or.inr ⟨_, _, _, _, _, c2, hor, hstrict, hpops2, hend2, fun hx => ?_⟩
      cases x2 with
      | completed out => cases hx
      | incomplete => exact (hruns2 rfl).right left
  · -- the left side matches: the right one cannot have popped more
    have hle : ∀ {r2 : Except (Error ε) (Preflight (HList [T2]))} {l2 s2 c2},
        right.endpoint.preflight cx = ⟨l2, .ok (r2, s2, c2)⟩ →
          ∀ y, r2 = .ok y → c2.popped ≤ c1.popped := by
      intro r2 l2 s2 c2 hp2 y hy
      subst hy
      rcases h2 with ⟨_, _, _, _, _, _, _, hp2', -⟩ | ⟨_, _, _, _, _, c, hp2', -, hpops2, hend2, -⟩
      · cases hp2.symm.trans hp2'
      · cases hp2.symm.trans hp2'
        rw [hpops1.end_unique hend1 hpops2 hend2]
    have hp2 : ∃ l2 r2 s2 c2, right.endpoint.preflight cx = ⟨l2, .ok (r2, s2, c2)⟩ := by
      rcases h2 with ⟨l2, _, err2, s2, _, c2, _, hp2, -⟩ | ⟨l2, _, x2, s2, _, c2, hp2, -⟩
      · exact ⟨l2, _, s2, c2, hp2⟩
      · exact ⟨l2, _, s2, c2, hp2⟩
    obtain ⟨l2, r2, s2, c2, hp2⟩ := hp2
    have hor := OrAction.preflight_left hp1 hp2 (hle hp2)
    have hstrict : ((left.or right).strict f).endpoint.preflight cx = _ :=
      OrStrictAction.preflight_left hp1'
    rw [← map_map_asOutput Sum.inl] at hstrict
    refine Or.inr ⟨_, _, _, _, _, c1, hor, hstrict, hpops1, hend1, fun hx => ?_⟩
    cases x1 with
    | completed out => cases hx
    | incomplete => exact (hruns1 rfl).left right

/-- By induction on the tree. -/
theorem preflightsAs (t : OrTree ε BodyStream Env T) (ht : ∀ a ∈ t.alternatives, Exhausts a.endpoint)
    (f : T → U) {cx : PreflightContext} (hcx : Cursor.Within cx.path cx.cursor) :
    t.PreflightsAs f cx := by
  induction t generalizing U with
  | leaf e =>
    have he : Exhausts e := ht _ List.mem_cons_self
    exact preflightsAs_leaf he.library.leavesSafe he.ends f hcx
  | or left right ihl ihr =>
    refine (ihl (fun a ha => ?_) (f ∘ .inl)).or (ihr (fun a ha => ?_) (f ∘ .inr))
    · exact ht _ (List.mem_append_left _ (List.mem_map_of_mem (f := Alternative.inLeft) ha))
    · exact ht _ (List.mem_append_right _ (List.mem_map_of_mem (f := Alternative.inRight) ha))

/-! ### Where there is no path -/

/-- `preflight` of both trees fails with the same error, or panics in the same place. -/
def FailsAs (t : OrTree ε Bd Env T) (f : T → U) (cx : PreflightContext) : Prop :=
  (∃ l l' err s s' c c', t.endpoint.preflight cx = ⟨l, .ok (.error err, s, c)⟩ ∧
    (t.strict f).endpoint.preflight cx = ⟨l', .ok (.error err, s', c')⟩) ∨
  ∃ l l' p, t.endpoint.preflight cx = ⟨l, .error p⟩ ∧
    (t.strict f).endpoint.preflight cx = ⟨l', .error p⟩

/-- An alternative that only matches at the end of the path does not match without one. -/
theorem failsAs_leaf {e : Endpoint ε Bd Env [T]} (huses : e.UsesCursor) (hends : e.Ends) (f : T → U)
    {cx : PreflightContext} (hstuck : Cursor.Stuck cx.path cx.cursor)
    (hend : ¬ Cursor.AtEnd cx.path cx.cursor) : (OrTree.leaf e).FailsAs f cx := by
  rcases (e.preflight cx).eq_ok_or_error with ⟨l, ⟨err | x, s, c⟩, hp⟩ | ⟨l, p, hp⟩
  · exact Or.inl ⟨l, _, err, s, s, c, c, hp, MapAction.preflight_eq hp⟩
  · have hc : c = cx.cursor := huses.preflight_stuck hstuck hp
    have hatEnd := hends cx l x s c hp
    rw [hc] at hatEnd
    exact absurd hatEnd hend
  · exact Or.inr ⟨l, _, p, hp, MapAction.preflight_panic hp⟩

theorem FailsAs.or {left : OrTree ε Bd Env T1} {right : OrTree ε Bd Env T2} {f : T1 ⊕ T2 → U}
    {cx : PreflightContext} (h1 : left.FailsAs (f ∘ .inl) cx) (h2 : right.FailsAs (f ∘ .inr) cx) :
    (left.or right).FailsAs f cx := by
  rcases h1 with ⟨l1, l1', err1, s1, s1', c1, c1', hp1, hp1'⟩ | ⟨l1, l1', p, hp1, hp1'⟩
  · rcases h2 with ⟨l2, l2', err2, s2, s2', c2, c2', hp2, hp2'⟩ | ⟨l2, l2', p, hp2, hp2'⟩
    · exact Or.inl ⟨_, _, _, _, _, _, _, OrAction.preflight_neither hp1 hp2,
        OrStrictAction.preflight_neither hp1' hp2'⟩
    · exact Or.inr ⟨_, _, p, OrAction.preflight_panic_right hp1 hp2,
        OrStrictAction.preflight_panic_right hp1' hp2'⟩
  · exact Or.inr ⟨_, _, p, OrAction.preflight_panic_left hp1,
      OrStrictAction.preflight_panic_left hp1'⟩

theorem failsAs (t : OrTree ε BodyStream Env T) (ht : ∀ a ∈ t.alternatives, Exhausts a.endpoint)
    (f : T → U) {cx : PreflightContext} (hstuck : Cursor.Stuck cx.path cx.cursor)
    (hend : ¬ Cursor.AtEnd cx.path cx.cursor) : t.FailsAs f cx := by
  induction t generalizing U with
  | leaf e =>
    have he : Exhausts e := ht _ List.mem_cons_self
    exact failsAs_leaf he.library.plainLeaves.usesCursor he.ends f hstuck hend
  | or left right ihl ihr =>
    refine (ihl (fun a ha => ?_) (f ∘ .inl)).or (ihr (fun a ha => ?_) (f ∘ .inr))
    · exact ht _ (List.mem_append_left _ (List.mem_map_of_mem (f := Alternative.inLeft) ha))
    · exact ht _ (List.mem_append_right _ (List.mem_map_of_mem (f := Alternative.inRight) ha))

end OrTree

/-- A first poll whose `preflight` fails or panics ends the run with that, in both trees. -/
theorem OrTree.FailsAs.drive {T U : Type} {t : OrTree ε Bd Env T} {f : T → U} {context : Context}
    (h : t.FailsAs f (.new context)) (body : Option Bd) (g : Thread Env → Thread Env)
    (gs : List (Thread Env → Thread Env)) (th : Thread Env) :
    let e := t.endpoint.map fun x => f x.head
    let e' := (t.strict f).endpoint
    (observe (drive e.impl (g :: gs) ⟨.start e.spawn, context, body⟩ th)).res =
      (observe (drive e'.impl (g :: gs) ⟨.start e'.spawn, context, body⟩ th)).res := by
  intro e e'
  rcases h with ⟨l, l', err, s, s', c, c', hp, hp'⟩ | ⟨l, l', p, hp, hp'⟩
  · have hmap : e.preflight (.new context) = _ := MapAction.preflight_eq hp
    have hrun := drive_failed hmap body g gs th
    have hrun' := drive_failed hp' body g gs th
    rw [hrun, hrun']
    rfl
  · have hmap : e.preflight (.new context) = _ := MapAction.preflight_panic hp
    have hrun := drive_panics hmap body g gs th
    have hrun' := drive_panics hp' body g gs th
    rw [hrun, hrun']
    rfl

/-- Where `preflight` fails, or ends with the same output or none yet, so does the run. -/
theorem OrTree.PreflightsAs.drive {T U : Type} {t : OrTree ε Bd Env T} {f : T → U}
    {context : Context} (h : t.PreflightsAs f (.new context)) (body : Option Bd)
    (g : Thread Env → Thread Env) (gs : List (Thread Env → Thread Env)) (th : Thread Env) :
    let e := t.endpoint.map fun x => f x.head
    let e' := (t.strict f).endpoint
    (observe (drive e.impl (g :: gs) ⟨.start e.spawn, context, body⟩ th)).res =
      (observe (drive e'.impl (g :: gs) ⟨.start e'.spawn, context, body⟩ th)).res := by
  intro e e'
  rcases h with ⟨l, l', err, s, s', c, c', hp, hp'⟩ | ⟨l, l', x, s, s', c, hp, hp', -, -, hruns⟩
  · exact OrTree.FailsAs.drive (Or.inl ⟨l, l', err, s, s', c, c', hp, hp'⟩) body g gs th
  · have hmap : e.preflight (.new context) = _ := MapAction.preflight_eq hp
    cases x with
    | completed out =>
      have hrun := drive_completed hmap body g gs th
      have hrun' := drive_completed hp' body g gs th
      rw [hrun, hrun']
      rfl
    | incomplete =>
      have hrun := drive_incomplete hmap body g gs th
      have hrun' := drive_incomplete hp' body g gs th
      have hpoll : ∀ s w, e.impl.pollAction (id s) w =
          liftPoll (Event.under .inner) (asOutput f) id (t.endpoint.impl.pollAction s w) :=
        fun s w => under_bind_eq_liftPoll .inner (asOutput f) id (t.endpoint.impl.pollAction s w)
      have hres := res_passes _ t.endpoint.impl _ _ _ hpoll (g :: gs) s context body th
      rw [hrun, hrun', observe_prepend, observe_prepend]
      exact hres.trans (hruns rfl (g :: gs) context body th)

/-- **For alternatives that match the whole path, `or` is `or_strict`.**  A tree of `or`s, of any size
and association, whose alternatives end with `eos`, `remains` or `dir`, and the tree in which they are
joined by `or_strict` instead, come to the same in every run: the same output, error or panic, with
the same context, body and thread. -/
theorem exhaustive_or_eq_or_strict {T U : Type} (t : OrTree ε BodyStream Env T)
    (ht : ∀ a ∈ t.alternatives, Exhausts a.endpoint) (f : T → U) (addr : Nat) (request : Request)
    (body : BodyStream) (gs : List (Thread Env → Thread Env)) (th : Thread Env) :
    let e := t.endpoint.map fun x => f x.head
    let e' := (t.strict f).endpoint
    (observe (drive e.impl gs (.dispatch e addr request body) th)).res =
      (observe (drive e'.impl gs (.dispatch e' addr request body) th)).res := by
  intro e e'
  cases gs with
  | nil => rfl
  | cons g gs =>
    by_cases hform : request.uri.isAuthorityForm = true
    · -- there is no path, and the cursor is past the end of it
      have hnil : request.uri.path = [] := request.uri.path_eq_nil_iff.mpr hform
      have hend : ¬ Cursor.AtEnd request.uri.path ⟨1, 0⟩ := by
        rw [hnil]
        intro h
        cases h
      have hfails : t.FailsAs f (.new (.new addr request)) :=
        t.failsAs ht f (Cursor.stuck_of_nil hnil rfl) hend
      exact hfails.drive (some body) g gs th
    · have hcx : Cursor.Within request.uri.path ⟨1, 0⟩ :=
        Cursor.within_start (Bool.not_eq_true _ ▸ hform) 0
      have hpre : t.PreflightsAs f (.new (.new addr request)) := t.preflightsAs ht f hcx
      exact hpre.drive (some body) g gs th

/-- `eos().map(|| 0).or(remains::<String>())`. -/
def eosOrRemains : OrTree Empty BodyStream Unit (Nat ⊕ Str) :=
  .or (.leaf (.map (.oneshot Unit MatchEosAction ()) fun _ => 0))
    (.leaf (.oneshot Unit (RemainsAction Str) ()))

def getRoot : Request := ⟨.get, .origin ⟨['/'], none, rfl⟩, []⟩

/-- At `GET /` both alternatives match, and `or` selects what `or_strict` does. -/
theorem exhaustive_or_eq_or_strict_eosOrRemains :
    (∀ a ∈ eosOrRemains.alternatives, ∃ c, a.endpoint.Matches (.new (.new 0 getRoot)) c) ∧
    (observe (drive (eosOrRemains.endpoint.map fun x => x.head).impl [id]
      (.dispatch (eosOrRemains.endpoint.map fun x => x.head) 0 getRoot []) ⟨none, ()⟩)).res =
    (observe (drive (eosOrRemains.strict id).endpoint.impl [id]
      (.dispatch (eosOrRemains.strict id).endpoint 0 getRoot []) ⟨none, ()⟩)).res := by
  refine ⟨?_, exhaustive_or_eq_or_strict eosOrRemains ?_ id 0 getRoot [] [id] ⟨none, ()⟩⟩
  · have hcount : Cursor.count ['/'] ⟨1, 0⟩ = .ok (0, ⟨1, 0⟩) := by
      rw [Cursor.count]
      rfl
    have hremains : (RemainsAction (ε := Empty) Str).preflight () (.new (.new 0 getRoot)) =
        .ok (.ok (.single []), ⟨1, 0⟩) := by
      simp only [RemainsAction, PreflightContext.new, PreflightContext.path, Context.new, getRoot,
        Uri.path, hcount]
      rfl
    have hmatches : ((RemainsAction Str).action :
          EndpointAction Empty BodyStream Unit (Option Unit) [Str]).preflight
        (.new (.new 0 getRoot)) (some ()) =
        ⟨[⟨[], .preflight ⟨1, 0⟩ .completed⟩], .ok (.ok (.completed (.single [])), none, ⟨1, 0⟩)⟩ := by
      simp only [OneshotAction.action, hremains]
      rfl
    intro a ha
    rcases List.mem_cons.mp ha with rfl | ha
    · exact ⟨⟨1, 0⟩, _, _, _, rfl⟩
    · rw [List.mem_singleton.mp ha]
      exact ⟨⟨1, 0⟩, _, _, _, hmatches⟩
  · intro a ha
    rcases List.mem_cons.mp ha with rfl | ha
    · exact Exhausts.eos.map _
    · rw [List.mem_singleton.mp ha]
      exact Exhausts.remains Str

end Finchers
