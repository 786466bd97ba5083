import Finchers.Delays
import Finchers.Endpoint.Syntax

/-!
# Endpoints that mean the same

Endpoints are rewritten when an application is tidied up: a `map` is moved, two closures become
one, an alternative that is never tried is dropped.  The laws are read off the direct style, and
hold wherever the endpoint stands.

* `Endpoint.Equiv` — endpoints that mean the same, but for where in the tree the body is taken;
* `Equiv.and` … — every combinator keeps this;
* `FutureAction.map`, `FutureAction.chain` — futures one after the other, as one;
* `Rewrites` — the laws, applied anywhere in a tree and any number of times;
* `rewrites_preserve` — **rewriting an endpoint changes no result of any run.**
-/

set_option autoImplicit false

namespace Finchers

open Resumable

variable {ε Bd Env T U : Type} {ts us : List Type}

/-! ## Meaning without places -/

namespace Eval

/-- The computation, of which it is not told where it takes the body. -/
def forget (c : Eval ε Bd Env T) : Comp (World Bd Env) Unit (Error ε) T := c.relabel fun _ => ()

theorem forget_placed (d : Dir) (c : Eval ε Bd Env T) : (c.placed d).forget = c.forget :=
  Comp.relabel_relabel _ _ c

theorem forget_bind (c : Eval ε Bd Env T) (k : Except (Error ε) T → Eval ε Bd Env U) :
    forget (c.bind k) = c.forget.bind fun x => (k x).forget :=
  Comp.relabel_bind _ c k

theorem forget_mapResult (f : Except (Error ε) T → Except (Error ε) U) (c : Eval ε Bd Env T) :
    forget (c.mapResult f) = c.forget.mapResult f := Comp.relabel_mapResult _ c f

/-- What follows makes no difference to what is forgotten. -/
theorem forget_bind_congr {c d : Eval ε Bd Env T} (h : c.forget = d.forget)
    {k k' : Except (Error ε) T → Eval ε Bd Env U} (hk : ∀ x, (k x).forget = (k' x).forget) :
    forget (c.bind k) = forget (d.bind k') := by
  rw [forget_bind, forget_bind, h]
  exact congrArg _ (funext hk)

theorem forget_both {c1 d1 : Eval ε Bd Env (HList ts)} {c2 d2 : Eval ε Bd Env (HList us)}
    (h1 : c1.forget = d1.forget) (h2 : c2.forget = d2.forget) :
    (both c1 c2).forget = (both d1 d2).forget := by
  refine forget_bind_congr h1 fun x => ?_
  cases x with
  | error e => rfl
  | ok v1 =>
    refine forget_bind_congr h2 fun y => ?_
    cases y with
    | error e => rfl
    | ok v2 => rfl

theorem forget_andThen {c d : Eval ε Bd Env T} (h : c.forget = d.forget)
    (k : T → Eval ε Bd Env U) : (c.andThen k).forget = (d.andThen k).forget := by
  refine forget_bind_congr h fun x => ?_
  cases x with
  | error e => rfl
  | ok x => rfl

theorem forget_recover {c d : Eval ε Bd Env T} (h : c.forget = d.forget)
    (k : Error ε → Eval ε Bd Env T) : (c.recover k).forget = (d.recover k).forget := by
  refine forget_bind_congr h fun x => ?_
  cases x with
  | error e => rfl
  | ok x => rfl

end Eval

/-- A component's plan as one of its combinator leaves the same to do, with the output rewritten. -/
theorem Plan.forget_lift (d : Dir) (f : T → U) (p : Plan ε Bd Env T) :
    (p.lift d f).eval.forget = p.eval.forget.mapResult (Except.map f) := by
  cases p with
  | value x =>
    show Eval.forget (Comp.done (.ok (f x))) = (Eval.forget (Comp.done (.ok x))).mapResult _
    unfold Eval.forget
    rw [Comp.relabel_done, Comp.relabel_done, Comp.mapResult, Comp.done_bind]
    rfl
  | later c =>
    show Eval.forget ((c.placed d).mapResult (Except.map f)) = _
    rw [Eval.forget_mapResult, Eval.forget_placed]
    rfl

/-- Two ways to route a request: both panic, or fail with the same error, or leave the same to do;
and the cursor stands at the same place. -/
inductive Routing.Equiv : Except ActionPanic (Routing ε Bd Env T) →
    Except ActionPanic (Routing ε Bd Env T) → Prop where
  | panics {p : ActionPanic} : Equiv (.error p) (.error p)
  | fails {err : Error ε} {c : CursorInner} : Equiv (.ok (.error err, c)) (.ok (.error err, c))
  | goes {p p' : Plan ε Bd Env T} {c : CursorInner} (h : p.eval.forget = p'.eval.forget) :
      Equiv (.ok (.ok p, c)) (.ok (.ok p', c))

/-- The endpoints mean the same. -/
def Endpoint.Equiv (e e' : Endpoint ε Bd Env ts) : Prop :=
  ∀ g cx, Routing.Equiv (e.direct g cx) (e'.direct g cx)

namespace Endpoint.Equiv

theorem refl (e : Endpoint ε Bd Env ts) : e.Equiv e := by
  intro g cx
  rcases e.direct g cx with p | ⟨err | p, c⟩
  · exact .panics
  · exact .fails
  · exact .goes rfl

theorem symm {e e' : Endpoint ε Bd Env ts} (h : e.Equiv e') : e'.Equiv e := by
  intro g cx
  have h := h g cx
  generalize e.direct g cx = r at h
  generalize e'.direct g cx = r' at h
  cases h with
  | panics => exact .panics
  | fails => exact .fails
  | goes h => exact .goes h.symm

theorem trans {e e' e'' : Endpoint ε Bd Env ts} (h : e.Equiv e') (h' : e'.Equiv e'') :
    e.Equiv e'' := by
  intro g cx
  have h := h g cx
  have h' := h' g cx
  generalize e.direct g cx = r at h
  generalize e'.direct g cx = r' at h h'
  generalize e''.direct g cx = r'' at h'
  cases h with
  | panics => exact h'
  | fails => exact h'
  | goes h =>
    cases h' with
    | goes h' => exact .goes (h.trans h')

/-! ## Every combinator keeps it -/

theorem and {e1 e1' : Endpoint ε Bd Env ts} {e2 e2' : Endpoint ε Bd Env us} (h1 : e1.Equiv e1')
    (h2 : e2.Equiv e2') : (e1.and e2).Equiv (e1'.and e2') := by
  intro g cx
  have h1 := h1 g cx
  simp only [direct]
  generalize e1.direct g cx = r1 at h1 ⊢
  generalize e1'.direct g cx = r1' at h1 ⊢
  cases h1 with
  | panics => exact .panics
  | fails => exact .fails
  | @goes p p' c hp =>
    have h2 := h2 g { cx with cursor := c }
    simp only [bind, Except.bind]
    generalize e2.direct g { cx with cursor := c } = r2 at h2 ⊢
    generalize e2'.direct g { cx with cursor := c } = r2' at h2 ⊢
    cases h2 with
    | panics => exact .panics
    | fails => exact .fails
    | goes hq =>
      refine .goes (Eval.forget_both ?_ ?_)
      · rw [Eval.forget_placed, Eval.forget_placed, hp]
      · rw [Eval.forget_placed, Eval.forget_placed, hq]

theorem lift {p p' : Plan ε Bd Env T} (h : p.eval.forget = p'.eval.forget) (d : Dir) (f : T → U)
    (c : CursorInner) : Routing.Equiv (.ok (.ok (p.lift d f), c)) (.ok (.ok (p'.lift d f), c)) :=
  .goes (by rw [Plan.forget_lift, Plan.forget_lift, h])

theorem or {T1 T2 : Type} {e1 e1' : Endpoint ε Bd Env [T1]} {e2 e2' : Endpoint ε Bd Env [T2]}
    (h1 : e1.Equiv e1') (h2 : e2.Equiv e2') : (e1.or e2).Equiv (e1'.or e2') := by
  intro g cx
  have h1 := h1 g cx
  have h2 := h2 g cx
  simp only [direct]
  generalize e1.direct g cx = r1 at h1 ⊢
  generalize e1'.direct g cx = r1' at h1 ⊢
  generalize e2.direct g cx = r2 at h2 ⊢
  generalize e2'.direct g cx = r2' at h2 ⊢
  cases h1 with
  | panics => exact .panics
  | fails =>
    cases h2 with
    | panics => exact .panics
    | fails => exact .fails
    | goes hq => exact lift hq .right _ _
  | @goes p p' c1 hp =>
    cases h2 with
    | panics => exact .panics
    | fails => exact lift hp .left _ _
    | @goes q q' c2 hq =>
      simp only [bind, Except.bind]
      by_cases hle : c2.popped ≤ c1.popped
      · rw [if_pos hle, if_pos hle]
        exact lift hp .left _ _
      · rw [if_neg hle, if_neg hle]
        exact lift hq .right _ _

theorem orStrict {e1 e1' e2 e2' : Endpoint ε Bd Env ts} (h1 : e1.Equiv e1') (h2 : e2.Equiv e2') :
    (e1.orStrict e2).Equiv (e1'.orStrict e2') := by
  intro g cx
  have h1 := h1 g cx
  have h2 := h2 g cx
  simp only [direct]
  generalize e1.direct g cx = r1 at h1 ⊢
  generalize e1'.direct g cx = r1' at h1 ⊢
  cases h1 with
  | panics => exact .panics
  | goes hp => exact lift hp .left _ _
  | fails =>
    simp only [bind, Except.bind]
    generalize e2.direct g cx = r2 at h2 ⊢
    generalize e2'.direct g cx = r2' at h2 ⊢
    cases h2 with
    | panics => exact .panics
    | fails => exact .fails
    | goes hq => exact lift hq .right _ _

theorem map {e e' : Endpoint ε Bd Env ts} (h : e.Equiv e') (f : HList ts → U) :
    (e.map f).Equiv (e'.map f) := by
  intro g cx
  have h := h g cx
  simp only [direct]
  generalize e.direct g cx = r at h ⊢
  generalize e'.direct g cx = r' at h ⊢
  cases h with
  | panics => exact .panics
  | fails => exact .fails
  | goes hp => exact lift hp .inner _ _

/-- What is left to do under a `map_err`. -/
theorem mapErr_goes (g : Thread Env → Thread Env) (e : Endpoint ε Bd Env ts)
    (f : Error ε → Error ε) {cx : PreflightContext} {p : Plan ε Bd Env (HList ts)} {c : CursorInner}
    (h : e.direct g cx = .ok (.ok p, c)) :
    ∃ p', (e.mapErr f).direct g cx = .ok (.ok p', c) ∧
      p'.eval.forget = p.eval.forget.mapResult (Except.mapError f) := by
  simp only [direct, h]
  cases p with
  | value x =>
    refine ⟨.value x, rfl, ?_⟩
    show Eval.forget (Comp.done (.ok x)) = (Eval.forget (Comp.done (.ok x))).mapResult _
    unfold Eval.forget
    rw [Comp.relabel_done, Comp.mapResult, Comp.done_bind]
    rfl
  | later comp =>
    refine ⟨_, rfl, ?_⟩
    show Eval.forget ((comp.placed .inner).mapResult (Except.mapError f)) = _
    rw [Eval.forget_mapResult, Eval.forget_placed]
    rfl

theorem mapErr {e e' : Endpoint ε Bd Env ts} (h : e.Equiv e') (f : Error ε → Error ε) :
    (e.mapErr f).Equiv (e'.mapErr f) := by
  intro g cx
  have h := h g cx
  rcases hr : e.direct g cx with q | ⟨err | p, c⟩
  · rcases hr' : e'.direct g cx with q' | ⟨err' | p', c'⟩
    all_goals
      rw [hr, hr'] at h
      cases h
    simp only [direct, hr, hr']
    exact .panics
  · rcases hr' : e'.direct g cx with q' | ⟨err' | p', c'⟩
    all_goals
      rw [hr, hr'] at h
      cases h
    simp only [direct, hr, hr']
    exact .fails
  · rcases hr' : e'.direct g cx with q' | ⟨err' | p', c'⟩
    all_goals
      rw [hr, hr'] at h
      cases h
    rename_i hp
    obtain ⟨q, hq, hforget⟩ := mapErr_goes g e f hr
    obtain ⟨q', hq', hforget'⟩ := mapErr_goes g e' f hr'
    rw [hq, hq']
    exact .goes (by rw [hforget, hforget', hp])

theorem andThen {Fut : Type} {e e' : Endpoint ε Bd Env ts} (h : e.Equiv e')
    (fut : FutureAction ε Env Fut T) (f : HList ts → Fut) :
    (e.andThen Fut fut f).Equiv (e'.andThen Fut fut f) := by
  intro g cx
  have h := h g cx
  simp only [direct]
  generalize e.direct g cx = r at h ⊢
  generalize e'.direct g cx = r' at h ⊢
  cases h with
  | panics => exact .panics
  | fails => exact .fails
  | goes hp =>
    refine .goes (Eval.forget_andThen ?_ _)
    rw [Eval.forget_placed, Eval.forget_placed, hp]

/-- What is left to do under a `recover`. -/
theorem recover_goes (g : Thread Env → Thread Env) {Fut : Type} (e : Endpoint ε Bd Env [T])
    (fut : FutureAction ε Env Fut T) (f : Error ε → Fut) {cx : PreflightContext}
    {p : Plan ε Bd Env (HList [T])} {c : CursorInner} (h : e.direct g cx = .ok (.ok p, c)) :
    ∃ p', (e.recover Fut fut f).direct g cx = .ok (.ok p', c) ∧
      p'.eval.forget = (p.eval.recover fun err => .ofFuture g fut (f err)).forget := by
  simp only [direct, h]
  cases p with
  | value x =>
    refine ⟨.value x, rfl, ?_⟩
    show Eval.forget (Comp.done (.ok x)) = Eval.forget (Comp.bind (Comp.done (.ok x)) _)
    rw [Comp.done_bind]
  | later comp => exact ⟨_, rfl, Eval.forget_recover (Eval.forget_placed .inner comp) _⟩

/-- An error of `preflight` is recovered from by a future to be polled. -/
theorem recover_fails (g : Thread Env → Thread Env) {Fut : Type} (e : Endpoint ε Bd Env [T])
    (fut : FutureAction ε Env Fut T) (f : Error ε → Fut) {cx : PreflightContext} {err : Error ε}
    {c : CursorInner} (h : e.direct g cx = .ok (.error err, c)) :
    (e.recover Fut fut f).direct g cx = .ok (.ok (.later (.ofFuture g fut (f err))), c) := by
  simp only [direct, h]
  rfl

theorem recover_panics (g : Thread Env → Thread Env) {Fut : Type} (e : Endpoint ε Bd Env [T])
    (fut : FutureAction ε Env Fut T) (f : Error ε → Fut) {cx : PreflightContext} {p : ActionPanic}
    (h : e.direct g cx = .error p) : (e.recover Fut fut f).direct g cx = .error p := by
  simp only [direct, h]
  rfl

theorem recover {Fut : Type} {e e' : Endpoint ε Bd Env [T]} (h : e.Equiv e')
    (fut : FutureAction ε Env Fut T) (f : Error ε → Fut) :
    (e.recover Fut fut f).Equiv (e'.recover Fut fut f) := by
  intro g cx
  have h := h g cx
  generalize hr : e.direct g cx = r at h
  generalize hr' : e'.direct g cx = r' at h
  cases h with
  | panics =>
    rw [recover_panics g e fut f hr, recover_panics g e' fut f hr']
    exact .panics
  | fails =>
    rw [recover_fails g e fut f hr, recover_fails g e' fut f hr']
    exact .goes rfl
  | goes hp =>
    obtain ⟨q, hq, hforget⟩ := recover_goes g e fut f hr
    obtain ⟨q', hq', hforget'⟩ := recover_goes g e' fut f hr'
    rw [hq, hq']
    exact .goes (by rw [hforget, hforget', Eval.forget_recover hp])

end Endpoint.Equiv

/-! ## Futures one after the other -/

namespace FutureAction

variable {Fut Fut2 : Type}

/-- A future of the application that rewrites the output of another one. -/
def map (fut : FutureAction ε Env Fut T) (f : T → U) : FutureAction ε Env Fut U where
  poll s th :=
    let (r, s, th) := fut.poll s th
    (r.map f, s, th)
  keeps := fut.keeps

/-- What becomes of a poll of the first of two futures: once it has its output, the future made of
that is polled at once. -/
def next (fut2 : FutureAction ε Env Fut2 U) (f : T → Fut2) :
    Poll (Error ε) T × Fut × Thread Env → Poll (Error ε) U × (Fut ⊕ Fut2) × Thread Env
  | (.ok (.ready x), _, th) =>
    let (r, s, th) := fut2.poll (f x) th
    (r, .inr s, th)
  | (.ok .notReady, s, th) => (.ok .notReady, .inl s, th)
  | (.error err, s, th) => (.error err, .inl s, th)

/-- Poll the first of two futures to its result, then the second. -/
def chainPoll (fut : FutureAction ε Env Fut T) (fut2 : FutureAction ε Env Fut2 U) (f : T → Fut2) :
    Fut ⊕ Fut2 → Thread Env → Poll (Error ε) U × (Fut ⊕ Fut2) × Thread Env
  | .inl s, th => next fut2 f (fut.poll s th)
  | .inr s, th =>
    let (r, s, th) := fut2.poll s th
    (r, .inr s, th)

theorem chainPoll_keeps (fut : FutureAction ε Env Fut T) (fut2 : FutureAction ε Env Fut2 U)
    (f : T → Fut2) (s : Fut ⊕ Fut2) (th : Thread Env) :
    (chainPoll fut fut2 f s th).2.2.slot = th.slot := by
  cases s with
  | inr s => exact fut2.keeps s th
  | inl s =>
    have hkeeps := fut.keeps s th
    show (next fut2 f (fut.poll s th)).2.2.slot = th.slot
    generalize fut.poll s th = out at hkeeps ⊢
    rcases out with ⟨err | x | _, s', th'⟩
    · exact hkeeps
    · exact (fut2.keeps (f x) th').trans hkeeps
    · exact hkeeps

/-- The one future, then the other. -/
def chain (fut : FutureAction ε Env Fut T) (fut2 : FutureAction ε Env Fut2 U) (f : T → Fut2) :
    FutureAction ε Env (Fut ⊕ Fut2) U where
  poll := chainPoll fut fut2 f
  keeps := chainPoll_keeps fut fut2 f

/-- The future polled without a record. -/
def silent (fut : FutureAction ε Env Fut T) :
    PollFn Panic Event (Error ε) Fut (World Bd Env) T := fun s w =>
  let (r, s', th) := fut.poll s w.thread
  ⟨[], .ok (r, s', { w with thread := th })⟩

/-- Of a future nothing is observed. -/
theorem ofFuture_silent (g : Thread Env → Thread Env) (fut : FutureAction ε Env Fut T) (s : Fut) :
    (Eval.ofFuture g fut s : Eval ε Bd Env _) =
      (Eval.ofPoll g fut.silent s).mapResult (Except.map HList.single) := by
  have hrun : (Eval.ofPoll g fut.pollInFlight s : Eval ε Bd Env T) = .ofPoll g fut.silent s := by
    refine Comp.run_congr (fun s w => ?_) (fun s w => ?_) s
    · rfl
    · rfl
  unfold Eval.ofFuture
  rw [hrun]

theorem ofFuture_map (g : Thread Env → Thread Env) (fut : FutureAction ε Env Fut T) (f : T → U)
    (s : Fut) : (Eval.ofFuture g (fut.map f) s : Eval ε Bd Env _) =
      (Eval.ofFuture g fut s).mapResult (Except.map fun x => .single (f x.head)) := by
  have hrun : (Eval.ofPoll g (fut.map f).silent s : Eval ε Bd Env U) =
      (Eval.ofPoll g fut.silent s).mapResult (Except.map f) :=
    Comp.run_mapPoll id _ rfl (Poll.map_ofResult f) (fun _ _ => rfl) s
  rw [ofFuture_silent, ofFuture_silent, hrun]
  show ((Eval.ofPoll g fut.silent s).mapResult _).bind _ =
    ((Eval.ofPoll g fut.silent s).mapResult _).bind _
  rw [Comp.mapResult_bind, Comp.mapResult_bind]
  refine congrArg _ (funext fun x => ?_)
  cases x with
  | error err => rfl
  | ok x => rfl

/-- Once the first future has its output, the second one is polled on its own. -/
theorem ofPoll_second (g : Thread Env → Thread Env) (fut : FutureAction ε Env Fut T)
    (fut2 : FutureAction ε Env Fut2 U) (f : T → Fut2) (s : Fut2) :
    (Eval.ofPoll g (fut.chain fut2 f).silent (.inr s) : Eval ε Bd Env U) =
      .ofPoll g fut2.silent s := by
  have hmap : (Eval.ofPoll g (fut.chain fut2 f).silent (.inr s) : Eval ε Bd Env U) =
      (Eval.ofPoll g fut2.silent s).mapResult id :=
    Comp.run_mapPoll Sum.inr id rfl (fun _ => rfl) (fun _ _ => rfl) s
  exact hmap.trans (Comp.mapResult_id _)

/-- What a chain does once the first future has its result. -/
def resume (fut : FutureAction ε Env Fut T) (fut2 : FutureAction ε Env Fut2 U) (f : T → Fut2)
    (r : Except (Error ε) T) (s : Fut) (w : World Bd Env) :
    Traced Panic Event (Poll (Error ε) U × (Fut ⊕ Fut2) × World Bd Env) :=
  match r with
  | .ok x => (fut.chain fut2 f).silent (.inr (f x)) w
  | .error err => ⟨[], .ok (.error err, .inl s, w)⟩

theorem ofFuture_chain (g : Thread Env → Thread Env) (fut : FutureAction ε Env Fut T)
    (fut2 : FutureAction ε Env Fut2 U) (f : T → Fut2) (s : Fut) :
    (Eval.ofFuture g (fut.chain fut2 f) (.inl s) : Eval ε Bd Env _) =
      (Eval.ofFuture g fut s).andThen fun x => .ofFuture g fut2 (f x.head) := by
  have hrun : (Eval.ofPoll g (fut.chain fut2 f).silent (.inl s) : Eval ε Bd Env U) =
      (Eval.ofPoll g fut.silent s).andThen fun x => .ofPoll g fut2.silent (f x) := by
    refine Comp.run_seqPoll Sum.inl (resume fut fut2 f) ?_ ?_ s
    · intro s w
      show Traced.mk [] (Except.ok (let (r, s', th) := next fut2 f (fut.poll s w.thread)
        (r, s', { w with thread := th }))) = _
      unfold silent seqPoll
      rcases fut.poll s w.thread with ⟨err | x | _, s', th'⟩
      · rfl
      · rfl
      · rfl
    · intro r s w
      cases r with
      | ok x => exact congrFun (ofPoll_second g fut fut2 f (f x)) w
      | error err => exact Comp.after_ofResult (.error err) _ w
  rw [ofFuture_silent, ofFuture_silent, hrun]
  unfold Eval.andThen
  rw [Comp.mapResult, Comp.bind_assoc, Comp.mapResult_bind]
  refine congrArg _ (funext fun x => ?_)
  cases x with
  | error err => exact Comp.done_bind _ _
  | ok x => exact (ofFuture_silent g fut2 (f x)).symm

end FutureAction

/-! ## The laws -/

namespace Eval

/-- A continuation is fed the output as a `map` before it has rewritten it. -/
theorem forget_andThen_map {V : Type} {c : Eval ε Bd Env U} {d : Eval ε Bd Env T} {f : T → U}
    (h : c.forget = d.forget.mapResult (Except.map f)) (k : U → Eval ε Bd Env V) :
    (c.andThen k).forget = (d.andThen fun x => k (f x)).forget := by
  unfold andThen
  rw [forget_bind, forget_bind, h, Comp.mapResult_bind]
  refine congrArg _ (funext fun x => ?_)
  cases x with
  | error err => rfl
  | ok x => rfl

/-- A continuation is fed the error as a `map_err` before it has rewritten it. -/
theorem forget_recover_mapErr {c d : Eval ε Bd Env T} {f : Error ε → Error ε}
    (h : c.forget = d.forget.mapResult (Except.mapError f)) (k : Error ε → Eval ε Bd Env T) :
    (c.recover k).forget = (d.recover fun err => k (f err)).forget := by
  unfold recover
  rw [forget_bind, forget_bind, h, Comp.mapResult_bind]
  refine congrArg _ (funext fun x => ?_)
  cases x with
  | error err => rfl
  | ok x => rfl

theorem andThen_mapResult {V : Type} (c : Eval ε Bd Env T) (k : T → Eval ε Bd Env U) (f : U → V) :
    (c.andThen k).mapResult (Except.map f) =
      c.andThen fun x => (k x).mapResult (Except.map f) := by
  unfold andThen
  rw [Comp.mapResult, Comp.bind_assoc]
  refine congrArg _ (funext fun x => ?_)
  cases x with
  | error err => exact Comp.done_bind _ _
  | ok x => rfl

theorem andThen_andThen {V : Type} (c : Eval ε Bd Env T) (k : T → Eval ε Bd Env U)
    (h : U → Eval ε Bd Env V) :
    (c.andThen k).andThen h = c.andThen fun x => (k x).andThen h := by
  unfold andThen
  rw [Comp.bind_assoc]
  refine congrArg _ (funext fun x => ?_)
  cases x with
  | error err => exact Comp.done_bind _ _
  | ok x => rfl

/-- The output of a `recover` is rewritten on either way. -/
theorem forget_recover_map {c : Eval ε Bd Env T} {d : Eval ε Bd Env U} {f : T → U}
    (h : d.forget = c.forget.mapResult (Except.map f)) {k : Error ε → Eval ε Bd Env T}
    {k' : Error ε → Eval ε Bd Env U} (hk : ∀ err, k' err = (k err).mapResult (Except.map f)) :
    (d.recover k').forget = (c.recover k).forget.mapResult (Except.map f) := by
  unfold recover
  rw [← forget_mapResult, Comp.mapResult, Comp.bind_assoc, forget_bind, forget_bind, h,
    Comp.mapResult_bind]
  refine congrArg _ (funext fun x => ?_)
  cases x with
  | error err =>
    show (k' err).forget = _
    rw [hk]
    rfl
  | ok x =>
    have hdone : (Comp.done (.ok x) : Eval ε Bd Env T).mapResult (Except.map f) =
        Comp.done (.ok (f x)) := Comp.done_bind _ _
    exact congrArg forget hdone.symm

theorem mapResult_mapResult {E F G : Type} {V : Type} (c : Comp (World Bd Env) Unit E T)
    (f : Except E T → Except F U) (h : Except F U → Except G V) :
    (c.mapResult f).mapResult h = c.mapResult fun x => h (f x) := by
  rw [Comp.mapResult, Comp.mapResult_bind]
  rfl

end Eval

/-- The endpoint `unit()`. -/
def Endpoint.unit : Endpoint ε Bd Env [] := .oneshot Unit UnitAction ()

namespace Endpoint.Equiv

theorem unit_and (e : Endpoint ε Bd Env ts) : (Endpoint.unit.and e).Equiv e := by
  intro g cx
  have hunit : (Endpoint.unit : Endpoint ε Bd Env []).direct g cx =
      .ok (.ok (.value ()), cx.cursor) := rfl
  simp only [direct, hunit, bind, Except.bind]
  rcases e.direct g cx with p | ⟨err | p, c⟩
  · exact .panics
  · exact .fails
  · refine .goes ?_
    have hboth : ∀ c : Eval ε Bd Env (HList ts),
        Eval.both (Comp.done (.ok HList.nil)) c = c.mapResult id := by
      intro c
      unfold Eval.both
      rw [Comp.done_bind]
      refine congrArg c.bind (funext fun x => ?_)
      cases x with
      | error err => rfl
      | ok x => rfl
    have hleft : Eval.placed .left (Comp.done (.ok HList.nil) : Eval ε Bd Env (HList [])) =
        Comp.done (.ok HList.nil) := Comp.relabel_done _ _
    show Eval.forget (Eval.both (Eval.placed .left (Comp.done (.ok HList.nil))) _) = _
    rw [hleft, hboth, Comp.mapResult_id, Eval.forget_placed]

theorem map_map {V : Type} (e : Endpoint ε Bd Env ts) (f : HList ts → U) (h : HList [U] → V) :
    ((e.map f).map h).Equiv (e.map fun x => h (.single (f x))) := by
  intro g cx
  simp only [direct]
  rcases e.direct g cx with p | ⟨err | p, c⟩
  · exact .panics
  · exact .fails
  · refine .goes ?_
    rw [Plan.forget_lift, Plan.forget_lift, Plan.forget_lift, Eval.mapResult_mapResult]
    refine congrArg (Comp.mapResult · _) (funext fun x => ?_)
    cases x with
    | error err => rfl
    | ok x => rfl

theorem mapErr_mapErr (e : Endpoint ε Bd Env ts) (f h : Error ε → Error ε) :
    ((e.mapErr f).mapErr h).Equiv (e.mapErr fun err => h (f err)) := by
  intro g cx
  rcases hr : e.direct g cx with p | ⟨err | p, c⟩
  · simp only [direct, hr]
    exact .panics
  · simp only [direct, hr]
    exact .fails
  · obtain ⟨q, hq, hforget⟩ := mapErr_goes g e f hr
    obtain ⟨q', hq', hforget'⟩ := mapErr_goes g (e.mapErr f) h hq
    obtain ⟨q'', hq'', hforget''⟩ := mapErr_goes g e (fun err => h (f err)) hr
    rw [hq', hq'']
    refine .goes ?_
    rw [hforget', hforget'', hforget, Eval.mapResult_mapResult]
    refine congrArg (Comp.mapResult · _) (funext fun x => ?_)
    cases x with
    | error err => rfl
    | ok x => rfl

/-- Lifted one after the other, what is left to do has its output rewritten twice. -/
theorem lift_lift {V W : Type} (p : Plan ε Bd Env T) {d d1 d2 d3 : Dir} {f : T → U} {f1 : U → V}
    {f2 : T → W} {f3 : W → V} (h : ∀ x, f1 (f x) = f3 (f2 x)) :
    ((p.lift d f).lift d1 f1).eval.forget = ((p.lift d2 f2).lift d3 f3).eval.forget := by
  rw [Plan.forget_lift, Plan.forget_lift, Plan.forget_lift, Plan.forget_lift,
    Eval.mapResult_mapResult, Eval.mapResult_mapResult]
  refine congrArg (Comp.mapResult · _) (funext fun x => ?_)
  cases x with
  | error err => rfl
  | ok x => exact congrArg Except.ok (h x)

theorem mapErr_map (e : Endpoint ε Bd Env ts) (f : HList ts → U) (h : Error ε → Error ε) :
    ((e.map f).mapErr h).Equiv ((e.mapErr h).map f) := by
  intro g cx
  rcases hr : e.direct g cx with p | ⟨err | p, c⟩
  · simp only [direct, hr]
    exact .panics
  · simp only [direct, hr]
    exact .fails
  · have hmap : (e.map f).direct g cx =
        .ok (.ok (p.lift .inner fun x => .single (f x)), c) := by
      simp only [direct, hr]
      rfl
    obtain ⟨q, hq, hforget⟩ := mapErr_goes g (e.map f) h hmap
    obtain ⟨q', hq', hforget'⟩ := mapErr_goes g e h hr
    have hmap' : ((e.mapErr h).map f).direct g cx =
        .ok (.ok (q'.lift .inner fun x => .single (f x)), c) := by
      rw [direct, hq']
      rfl
    rw [hq, hmap']
    refine .goes ?_
    rw [hforget, Plan.forget_lift, Plan.forget_lift, hforget', Eval.mapResult_mapResult,
      Eval.mapResult_mapResult]
    refine congrArg (Comp.mapResult · _) (funext fun x => ?_)
    cases x with
    | error err => rfl
    | ok x => rfl

theorem or_map {T1 T2 U1 U2 : Type} (a : Endpoint ε Bd Env [T1]) (b : Endpoint ε Bd Env [T2])
    (f : HList [T1] → U1) (h : HList [T2] → U2) :
    ((a.map f).or (b.map h)).Equiv
      ((a.or b).map fun x => Sum.map (fun y => f (.single y)) (fun y => h (.single y)) x.head) := by
  intro g cx
  simp only [direct]
  rcases a.direct g cx with p | ⟨err | p, c1⟩
  · exact .panics
  · rcases b.direct g cx with p' | ⟨err' | p', c2⟩
    · exact .panics
    · exact .fails
    · exact .goes (lift_lift p' fun _ => rfl)
  · rcases b.direct g cx with p' | ⟨err' | p', c2⟩
    · exact .panics
    · exact .goes (lift_lift p fun _ => rfl)
    · simp only [bind, Except.bind, Except.map, pure, Except.pure]
      by_cases hle : c2.popped ≤ c1.popped
      · rw [if_pos hle, if_pos hle]
        exact .goes (lift_lift p fun _ => rfl)
      · rw [if_neg hle, if_neg hle]
        exact .goes (lift_lift p' fun _ => rfl)

theorem orStrict_map (a b : Endpoint ε Bd Env ts) (f : HList ts → U) :
    ((a.map f).orStrict (b.map f)).Equiv ((a.orStrict b).map f) := by
  intro g cx
  simp only [direct]
  rcases a.direct g cx with p | ⟨err | p, c1⟩
  · exact .panics
  · rcases b.direct g cx with p' | ⟨err' | p', c2⟩
    · exact .panics
    · exact .fails
    · exact .goes (lift_lift p' fun _ => rfl)
  · exact .goes (lift_lift p fun _ => rfl)

theorem map_andThen {Fut : Type} (e : Endpoint ε Bd Env ts) (f : HList ts → U)
    (fut : FutureAction ε Env Fut T) (k : HList [U] → Fut) :
    ((e.map f).andThen Fut fut k).Equiv (e.andThen Fut fut fun x => k (.single (f x))) := by
  intro g cx
  simp only [direct]
  rcases e.direct g cx with p | ⟨err | p, c⟩
  · exact .panics
  · exact .fails
  · refine .goes (Eval.forget_andThen_map ?_ _)
    rw [Eval.forget_placed, Eval.forget_placed, Plan.forget_lift]

theorem andThen_map {Fut : Type} (e : Endpoint ε Bd Env ts) (fut : FutureAction ε Env Fut T)
    (k : HList ts → Fut) (f : HList [T] → U) :
    ((e.andThen Fut fut k).map f).Equiv
      (e.andThen Fut (fut.map fun x => f (.single x)) k) := by
  intro g cx
  simp only [direct]
  rcases e.direct g cx with p | ⟨err | p, c⟩
  · exact .panics
  · exact .fails
  · refine .goes ?_
    rw [Plan.forget_lift, ← Eval.forget_mapResult]
    refine congrArg Eval.forget ((Eval.andThen_mapResult _ _ _).trans ?_)
    refine congrArg _ (funext fun x => ?_)
    exact (FutureAction.ofFuture_map g fut (fun y => f (.single y)) (k x)).symm

theorem andThen_andThen {Fut Fut2 : Type} (e : Endpoint ε Bd Env ts)
    (fut : FutureAction ε Env Fut T) (k : HList ts → Fut) (fut2 : FutureAction ε Env Fut2 U)
    (k2 : HList [T] → Fut2) :
    ((e.andThen Fut fut k).andThen Fut2 fut2 k2).Equiv
      (e.andThen (Fut ⊕ Fut2) (fut.chain fut2 fun x => k2 (.single x)) fun x => .inl (k x)) := by
  intro g cx
  simp only [direct]
  rcases e.direct g cx with p | ⟨err | p, c⟩
  · exact .panics
  · exact .fails
  · refine .goes ((Eval.forget_andThen (Eval.forget_placed .inner _) _).trans ?_)
    refine congrArg Eval.forget ((Eval.andThen_andThen _ _ _).trans ?_)
    refine congrArg _ (funext fun x => ?_)
    exact (FutureAction.ofFuture_chain g fut fut2 (fun y => k2 (.single y)) (k x)).symm

theorem mapErr_recover {Fut : Type} (e : Endpoint ε Bd Env [T]) (h : Error ε → Error ε)
    (fut : FutureAction ε Env Fut T) (k : Error ε → Fut) :
    ((e.mapErr h).recover Fut fut k).Equiv (e.recover Fut fut fun err => k (h err)) := by
  intro g cx
  rcases hr : e.direct g cx with p | ⟨err | p, c⟩
  · simp only [direct, hr]
    exact .panics
  · simp only [direct, hr]
    exact .goes rfl
  · obtain ⟨q, hq, hforget⟩ := mapErr_goes g e h hr
    obtain ⟨q1, hq1, hforget1⟩ := recover_goes g (e.mapErr h) fut k hq
    obtain ⟨q2, hq2, hforget2⟩ := recover_goes g e fut (fun err => k (h err)) hr
    rw [hq1, hq2]
    exact .goes (by rw [hforget1, hforget2, Eval.forget_recover_mapErr hforget])

theorem recover_map {Fut : Type} (e : Endpoint ε Bd Env [T]) (fut : FutureAction ε Env Fut T)
    (k : Error ε → Fut) (f : HList [T] → U) :
    ((e.recover Fut fut k).map f).Equiv
      ((e.map f).recover Fut (fut.map fun x => f (.single x)) k) := by
  intro g cx
  have hfut : ∀ err, (Eval.ofFuture g (fut.map fun x => f (.single x)) (k err) : Eval ε Bd Env _) =
      (Eval.ofFuture g fut (k err)).mapResult (Except.map fun x => .single (f x)) :=
    fun err => FutureAction.ofFuture_map g fut (fun y => f (.single y)) (k err)
  rcases hr : e.direct g cx with p | ⟨err | p, c⟩
  · simp only [direct, hr]
    exact .panics
  · simp only [direct, hr]
    refine .goes ?_
    rw [Plan.forget_lift, ← Eval.forget_mapResult]
    exact congrArg Eval.forget (hfut err).symm
  · have hmap : (e.map f).direct g cx =
        .ok (.ok (p.lift .inner fun x => .single (f x)), c) := by
      simp only [direct, hr]
      rfl
    obtain ⟨q, hq, hforget⟩ := recover_goes g e fut k hr
    obtain ⟨q', hq', hforget'⟩ := recover_goes g (e.map f) _ k hmap
    have hmap' : ((e.recover Fut fut k).map f).direct g cx =
        .ok (.ok (q.lift .inner fun x => .single (f x)), c) := by
      rw [direct, hq]
      rfl
    rw [hmap', hq']
    refine .goes ?_
    rw [Plan.forget_lift, hforget, hforget']
    exact (Eval.forget_recover_map (Plan.forget_lift .inner _ p) hfut).symm

/-- What follows a `recover` in an `or_strict` is never tried: it has no error in `preflight`. -/
theorem recover_orStrict {Fut : Type} (e b : Endpoint ε Bd Env [T])
    (fut : FutureAction ε Env Fut T) (k : Error ε → Fut) :
    ((e.recover Fut fut k).orStrict b).Equiv (e.recover Fut fut k) := by
  have hid : ∀ p : Plan ε Bd Env (HList [T]), (p.lift .left id).eval.forget = p.eval.forget := by
    intro p
    rw [Plan.forget_lift]
    refine Eq.trans (congrArg (Comp.mapResult · _) (funext fun x => ?_)) (Comp.mapResult_id _)
    cases x with
    | error err => rfl
    | ok x => rfl
  intro g cx
  rcases hr : e.direct g cx with p | ⟨err | p, c⟩
  · have hpanics := recover_panics g e fut k hr
    rw [direct, hpanics]
    exact .panics
  · have hfails := recover_fails g e fut k hr
    rw [direct, hfails]
    exact .goes (hid _)
  · obtain ⟨q, hq, hforget⟩ := recover_goes g e fut k hr
    rw [direct, hq]
    exact .goes (hid q)

end Endpoint.Equiv

/-! ## Rewriting -/

/-- The second endpoint is the first one rewritten by the laws, in either direction, anywhere in the
tree and any number of times. -/
inductive Rewrites : {ts : List Type} → Endpoint ε Bd Env ts → Endpoint ε Bd Env ts → Prop where
  | refl {ts : List Type} (e : Endpoint ε Bd Env ts) : Rewrites e e
  | symm {ts : List Type} {e e' : Endpoint ε Bd Env ts} : Rewrites e e' → Rewrites e' e
  | trans {ts : List Type} {e e' e'' : Endpoint ε Bd Env ts} :
      Rewrites e e' → Rewrites e' e'' → Rewrites e e''
  -- anywhere in the tree
  | and {ts us : List Type} {e1 e1' : Endpoint ε Bd Env ts} {e2 e2' : Endpoint ε Bd Env us} :
      Rewrites e1 e1' → Rewrites e2 e2' → Rewrites (.and e1 e2) (.and e1' e2')
  | or {T1 T2 : Type} {e1 e1' : Endpoint ε Bd Env [T1]} {e2 e2' : Endpoint ε Bd Env [T2]} :
      Rewrites e1 e1' → Rewrites e2 e2' → Rewrites (.or e1 e2) (.or e1' e2')
  | orStrict {ts : List Type} {e1 e1' e2 e2' : Endpoint ε Bd Env ts} :
      Rewrites e1 e1' → Rewrites e2 e2' → Rewrites (.orStrict e1 e2) (.orStrict e1' e2')
  | map {ts : List Type} {U : Type} {e e' : Endpoint ε Bd Env ts} (f : HList ts → U) :
      Rewrites e e' → Rewrites (.map e f) (.map e' f)
  | mapErr {ts : List Type} {e e' : Endpoint ε Bd Env ts} (f : Error ε → Error ε) :
      Rewrites e e' → Rewrites (.mapErr e f) (.mapErr e' f)
  | andThen {ts : List Type} {T Fut : Type} {e e' : Endpoint ε Bd Env ts}
      (fut : FutureAction ε Env Fut T) (f : HList ts → Fut) :
      Rewrites e e' → Rewrites (.andThen Fut e fut f) (.andThen Fut e' fut f)
  | recover {T Fut : Type} {e e' : Endpoint ε Bd Env [T]} (fut : FutureAction ε Env Fut T)
      (f : Error ε → Fut) : Rewrites e e' → Rewrites (.recover Fut e fut f) (.recover Fut e' fut f)
  -- the laws
  | boxed {ts : List Type} (e : Endpoint ε Bd Env ts) : Rewrites (.boxed e) e
  | unit_and {ts : List Type} (e : Endpoint ε Bd Env ts) : Rewrites (.and .unit e) e
  | map_map {ts : List Type} {U V : Type} (e : Endpoint ε Bd Env ts) (f : HList ts → U)
      (h : HList [U] → V) : Rewrites (.map (.map e f) h) (.map e fun x => h (.single (f x)))
  | mapErr_mapErr {ts : List Type} (e : Endpoint ε Bd Env ts) (f h : Error ε → Error ε) :
      Rewrites (.mapErr (.mapErr e f) h) (.mapErr e fun err => h (f err))
  | mapErr_map {ts : List Type} {U : Type} (e : Endpoint ε Bd Env ts) (f : HList ts → U)
      (h : Error ε → Error ε) : Rewrites (.mapErr (.map e f) h) (.map (.mapErr e h) f)
  | or_map {T1 T2 U1 U2 : Type} (a : Endpoint ε Bd Env [T1]) (b : Endpoint ε Bd Env [T2])
      (f : HList [T1] → U1) (h : HList [T2] → U2) :
      Rewrites (.or (.map a f) (.map b h))
        (.map (.or a b) fun x =>
          Sum.map (fun y => f (.single y)) (fun y => h (.single y)) x.head)
  | orStrict_map {ts : List Type} {U : Type} (a b : Endpoint ε Bd Env ts) (f : HList ts → U) :
      Rewrites (.orStrict (.map a f) (.map b f)) (.map (.orStrict a b) f)
  | map_andThen {ts : List Type} {U T Fut : Type} (e : Endpoint ε Bd Env ts) (f : HList ts → U)
      (fut : FutureAction ε Env Fut T) (k : HList [U] → Fut) :
      Rewrites (.andThen Fut (.map e f) fut k) (.andThen Fut e fut fun x => k (.single (f x)))
  | andThen_map {ts : List Type} {U T Fut : Type} (e : Endpoint ε Bd Env ts)
      (fut : FutureAction ε Env Fut T) (k : HList ts → Fut) (f : HList [T] → U) :
      Rewrites (.map (.andThen Fut e fut k) f)
        (.andThen Fut e (fut.map fun x => f (.single x)) k)
  | andThen_andThen {ts : List Type} {U T Fut Fut2 : Type} (e : Endpoint ε Bd Env ts)
      (fut : FutureAction ε Env Fut T) (k : HList ts → Fut) (fut2 : FutureAction ε Env Fut2 U)
      (k2 : HList [T] → Fut2) :
      Rewrites (.andThen Fut2 (.andThen Fut e fut k) fut2 k2)
        (.andThen (Fut ⊕ Fut2) e (fut.chain fut2 fun x => k2 (.single x)) fun x => .inl (k x))
  | mapErr_recover {T Fut : Type} (e : Endpoint ε Bd Env [T]) (h : Error ε → Error ε)
      (fut : FutureAction ε Env Fut T) (k : Error ε → Fut) :
      Rewrites (.recover Fut (.mapErr e h) fut k) (.recover Fut e fut fun err => k (h err))
  | recover_map {T U Fut : Type} (e : Endpoint ε Bd Env [T]) (fut : FutureAction ε Env Fut T)
      (k : Error ε → Fut) (f : HList [T] → U) :
      Rewrites (.map (.recover Fut e fut k) f)
        (.recover Fut (.map e f) (fut.map fun x => f (.single x)) k)
  | recover_orStrict {T Fut : Type} (e b : Endpoint ε Bd Env [T])
      (fut : FutureAction ε Env Fut T) (k : Error ε → Fut) :
      Rewrites (.orStrict (.recover Fut e fut k) b) (.recover Fut e fut k)

theorem Rewrites.equiv {e e' : Endpoint ε Bd Env ts} (h : Rewrites e e') : e.Equiv e' := by
  induction h with
  | refl e => exact .refl e
  | symm _ ih => exact ih.symm
  | trans _ _ ih ih' => exact ih.trans ih'
  | and _ _ ih1 ih2 => exact ih1.and ih2
  | or _ _ ih1 ih2 => exact ih1.or ih2
  | orStrict _ _ ih1 ih2 => exact ih1.orStrict ih2
  | map f _ ih => exact ih.map f
  | mapErr f _ ih => exact ih.mapErr f
  | andThen fut f _ ih => exact ih.andThen fut f
  | recover fut f _ ih => exact ih.recover fut f
  | boxed e => exact .refl e
  | unit_and e => exact .unit_and e
  | map_map e f h => exact .map_map e f h
  | mapErr_mapErr e f h => exact .mapErr_mapErr e f h
  | mapErr_map e f h => exact .mapErr_map e f h
  | or_map a b f h => exact .or_map a b f h
  | orStrict_map a b f => exact .orStrict_map a b f
  | map_andThen e f fut k => exact .map_andThen e f fut k
  | andThen_map e fut k f => exact .andThen_map e fut k f
  | andThen_andThen e fut k fut2 k2 => exact .andThen_andThen e fut k fut2 k2
  | mapErr_recover e h fut k => exact .mapErr_recover e h fut k
  | recover_map e fut k f => exact .recover_map e fut k f
  | recover_orStrict e b fut k => exact .recover_orStrict e b fut k

/-- What is observed of endpoints that mean the same differs only in the places. -/
theorem Endpoint.Equiv.evaluate {e e' : Endpoint ε Bd Env ts} (h : e.Equiv e')
    (g : Thread Env → Thread Env) (context : Context) :
    (e.evaluate g context).forget = (e'.evaluate g context).forget := by
  have h := h g (.new context)
  unfold Endpoint.evaluate
  generalize e.direct g (.new context) = r at h ⊢
  generalize e'.direct g (.new context) = r' at h ⊢
  cases h with
  | panics => rfl
  | fails => rfl
  | goes h => exact h

/-- A computation is observed as often as it is with the places forgotten. -/
theorem Eval.forget_iff {c : Eval ε Bd Env T} {w w' : World Bd Env} {r : Except (Error ε) T}
    {takes : Nat} :
    c.forget w (List.replicate takes ()) r w' ↔
      ∃ places, c w places r w' ∧ places.length = takes := by
  refine ⟨fun h => ?_, fun h => ?_⟩
  · obtain ⟨places, hc, hl⟩ := h
    refine ⟨places, hc, ?_⟩
    have hlength := congrArg List.length hl
    rw [List.length_replicate, List.length_map] at hlength
    exact hlength.symm
  · obtain ⟨places, hc, rfl⟩ := h
    exact ⟨places, hc, List.map_const'.symm⟩

open AppFuture

/-- **A rewritten endpoint serves every request as the endpoint it was.**  However it is polled, it
yields the same result, leaves the same context, body and thread, and takes the body as often. -/
theorem rewrites_preserve {e e' : Endpoint ε Bd Env ts} (h : Rewrites e e')
    (g : Thread Env → Thread Env) (addr : Nat) (request : Request) (body : Bd) (th : Thread Env)
    (r : Except (Error ε) (HList ts)) (w : World Bd Env) (takes : Nat) :
    (∃ places, Yields g e.impl (.dispatch e addr request body) th places r w ∧
      places.length = takes) ↔
    ∃ places, Yields g e'.impl (.dispatch e' addr request body) th places r w ∧
      places.length = takes := by
  simp only [Endpoint.yields_iff]
  rw [← Eval.forget_iff, ← Eval.forget_iff, h.equiv.evaluate g]

/-! ## An upload -/

/-- An upload whose answer is rewritten twice, behind a box. -/
def wrappedUpload : Endpoint Empty Nat Unit [Nat] :=
  .map
    (.map (.andThen Nat (.boxed (.leaf Unit (RawAction Nat) ())) storeBody (·.head)) (·.head + 1))
    (·.head * 2)

/-- The same, tidied up. -/
def tidyUpload : Endpoint Empty Nat Unit [Nat] :=
  .andThen Nat (.leaf Unit (RawAction Nat) ()) (storeBody.map fun n => (n + 1) * 2) (·.head)

/-- The upload answers as it does after it is tidied up, and takes the body once. -/
theorem rewrites_preserve_upload :
    ∃ places, Yields id wrappedUpload.impl (.dispatch wrappedUpload 0 uploadRequest 7) ⟨none, ()⟩
      places (.ok (.single 18)) ⟨⟨.new 0 uploadRequest, none⟩, ⟨none, ()⟩⟩ ∧ places.length = 1 := by
  have htidy : Rewrites wrappedUpload tidyUpload :=
    ((Rewrites.map_map _ _ _).trans (.andThen_map _ _ _ _)).trans (.andThen _ _ (.boxed _))
  have hrun : Yields id tidyUpload.impl (.dispatch tidyUpload 0 uploadRequest 7) ⟨none, ()⟩
      [[.inner]] (.ok (.single 18)) ⟨⟨.new 0 uploadRequest, none⟩, ⟨none, ()⟩⟩ :=
    ⟨1, _, _, _, rfl, rfl, rfl⟩
  exact (rewrites_preserve htidy id 0 uploadRequest 7 ⟨none, ()⟩ _ _ 1).mpr ⟨_, hrun, rfl⟩

end Finchers
