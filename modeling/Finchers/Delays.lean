import Finchers.Endpoints.Body
import Finchers.Refinement

/-!
# Answers `NotReady`

How often, and when, the leaves and the futures of an endpoint answer that they are not ready is no
part of what the endpoint does.

* `Endpoint.Alike` — endpoints whose leaves and futures mean the same computations, each in its
  place; they are the same in direct style;
* `LeafAction.delay`, `FutureAction.delay`, `Endpoint.Delayed` — `NotReady` answers put in, by any
  pattern;
* `drive_direct` — **a run yields what the direct style evaluates to, whatever the pattern.**
-/

set_option autoImplicit false

namespace Finchers

open Resumable

variable {ε Bd Env T U : Type} {ts us : List Type}

namespace Endpoint

/-- The same tree over leaves and futures that have the same results in every world. -/
inductive Alike (g : Thread Env → Thread Env) : {ts : List Type} → Endpoint ε Bd Env ts →
    Endpoint ε Bd Env ts → Prop where
  | leaf {ts : List Type} {σ σ' : Type} {a : LeafAction ε Bd Env σ ts}
      {a' : LeafAction ε Bd Env σ' ts} {init : σ} {init' : σ'}
      (h : a.direct g init = a'.direct g init') : Alike g (.leaf σ a init) (.leaf σ' a' init')
  | oneshot {ts : List Type} (σ : Type) (a : OneshotAction ε σ ts) (init : σ) :
      Alike g (.oneshot σ a init) (.oneshot σ a init)
  | future {ts : List Type} {Fut Fut' : Type} {f : FutureAction ε Env Fut (HList ts)}
      {f' : FutureAction ε Env Fut' (HList ts)} {init : Fut} {init' : Fut'}
      (h : (Eval.ofPoll g f.action.pollAction init : Eval ε Bd Env _) =
        .ofPoll g f'.action.pollAction init') : Alike g (.future Fut f init) (.future Fut' f' init')
  | and {ts us : List Type} {e1 e1' : Endpoint ε Bd Env ts} {e2 e2' : Endpoint ε Bd Env us} :
      Alike g e1 e1' → Alike g e2 e2' → Alike g (.and e1 e2) (.and e1' e2')
  | or {T1 T2 : Type} {e1 e1' : Endpoint ε Bd Env [T1]} {e2 e2' : Endpoint ε Bd Env [T2]} :
      Alike g e1 e1' → Alike g e2 e2' → Alike g (.or e1 e2) (.or e1' e2')
  | orStrict {ts : List Type} {e1 e1' e2 e2' : Endpoint ε Bd Env ts} :
      Alike g e1 e1' → Alike g e2 e2' → Alike g (.orStrict e1 e2) (.orStrict e1' e2')
  | map {ts : List Type} {U : Type} {e e' : Endpoint ε Bd Env ts} (f : HList ts → U) :
      Alike g e e' → Alike g (.map e f) (.map e' f)
  | mapErr {ts : List Type} {e e' : Endpoint ε Bd Env ts} (f : Error ε → Error ε) :
      Alike g e e' → Alike g (.mapErr e f) (.mapErr e' f)
  | andThen {ts : List Type} {T Fut Fut' : Type} {e e' : Endpoint ε Bd Env ts}
      {fut : FutureAction ε Env Fut T} {fut' : FutureAction ε Env Fut' T} {f : HList ts → Fut}
      {f' : HList ts → Fut'}
      (h : ∀ x, (Eval.ofFuture g fut (f x) : Eval ε Bd Env _) = .ofFuture g fut' (f' x)) :
      Alike g e e' → Alike g (.andThen Fut e fut f) (.andThen Fut' e' fut' f')
  | recover {T Fut Fut' : Type} {e e' : Endpoint ε Bd Env [T]}
      {fut : FutureAction ε Env Fut T} {fut' : FutureAction ε Env Fut' T} {f : Error ε → Fut}
      {f' : Error ε → Fut'}
      (h : ∀ err, (Eval.ofFuture g fut (f err) : Eval ε Bd Env _) = .ofFuture g fut' (f' err)) :
      Alike g e e' → Alike g (.recover Fut e fut f) (.recover Fut' e' fut' f')
  | boxed {ts : List Type} {e e' : Endpoint ε Bd Env ts} :
      Alike g e e' → Alike g (.boxed e) (.boxed e')

theorem Alike.direct_eq {g : Thread Env → Thread Env} {e e' : Endpoint ε Bd Env ts}
    (h : Alike g e e') (cx : PreflightContext) : e.direct g cx = e'.direct g cx := by
  induction h generalizing cx with
  | leaf h => exact congrFun h cx
  | oneshot σ a init => rfl
  | future h => simp only [direct, h]
  | and _ _ ih1 ih2 => simp only [direct, ih1, ih2]
  | or _ _ ih1 ih2 => simp only [direct, ih1, ih2]
  | orStrict _ _ ih1 ih2 => simp only [direct, ih1, ih2]
  | map f _ ih => simp only [direct, ih]
  | mapErr f _ ih => simp only [direct, ih]
  | andThen h _ ih => simp only [direct, ih, h]
  | recover h _ ih => simp only [direct, ih, h]
  | boxed _ ih => exact ih cx

end Endpoint

/-! ## Putting `NotReady` answers in -/

/-- The leaf with `NotReady` answers put in: for each poll to come, the second part of the state
says whether the poll is answered that way, with nothing done. -/
def LeafAction.delay {σ : Type} (a : LeafAction ε Bd Env σ ts) :
    LeafAction ε Bd Env (σ × List Bool) ts where
  preflight cx s := do
    let (r, s', c) ← a.preflight cx s.1
    return (r, (s', s.2), c)
  pollAction s w :=
    match s.2 with
    | true :: stalls => .ok (.ok .notReady, (s.1, stalls), w)
    | stalls => do
      let (r, s', w) ← a.pollAction s.1 w
      return (r, (s', stalls.tail), w)
  keeps := by
    intro s w r s' w' h
    split at h
    · cases h
      exact ⟨rfl, rfl⟩
    · rcases ha : a.pollAction s.1 w with p | ⟨r₁, s₁, w₁⟩
      · rw [ha] at h
        cases h
      · rw [ha] at h
        cases h
        exact a.keeps ha
  notPutBack := by
    intro s w r s' w' h
    split at h
    · cases h
      exact id
    · rcases ha : a.pollAction s.1 w with p | ⟨r₁, s₁, w₁⟩
      · rw [ha] at h
        cases h
      · rw [ha] at h
        cases h
        exact a.notPutBack ha

/-- The future with `NotReady` answers put in. -/
def FutureAction.delay {Fut : Type} (f : FutureAction ε Env Fut T) :
    FutureAction ε Env (Fut × List Bool) T where
  poll s th :=
    match s.2 with
    | true :: stalls => (.ok .notReady, (s.1, stalls), th)
    | stalls =>
      let (r, s', th) := f.poll s.1 th
      (r, (s', stalls.tail), th)
  keeps := by
    intro s th
    split
    · rfl
    · exact f.keeps s.1 th

theorem LeafAction.ofPoll_delay {σ : Type} (a : LeafAction ε Bd Env σ ts) (s : σ)
    (stalls : List Bool) :
    Eval.ofPoll id a.delay.action.pollAction (s, stalls) = .ofPoll id a.action.pollAction s := by
  have hstep : ∀ (s : σ) (stalls rest : List Bool) (w : World Bd Env),
      a.delay.pollAction (s, stalls) w = (do
        let (r, s', w) ← a.pollAction s w
        return (r, (s', rest), w)) →
      a.delay.action.pollAction (s, stalls) w = (do
        let (r, s', w) ← a.action.pollAction s w
        return (r, (s', rest), w)) := by
    intro s stalls rest w h
    unfold LeafAction.action
    rcases ha : a.pollAction s w with p | ⟨r, s', w'⟩
    · rw [ha] at h
      simp [h, ha]
    · rw [ha] at h
      simp [h, ha]
  refine Comp.run_delayed (fun s stalls w => ?_) (fun s stalls w => ?_) (fun s w => ?_) s stalls
  · refine ⟨[⟨[], .poll .notReady (w.took w)⟩], ?_, rfl⟩
    have htook : w.took w = false := by
      unfold World.took
      cases w.cx.body <;> rfl
    rw [htook]
    rfl
  · exact hstep s (false :: stalls) stalls w rfl
  · exact hstep s [] [] w rfl

theorem LeafAction.direct_delay {σ : Type} (a : LeafAction ε Bd Env σ ts) (init : σ)
    (stalls : List Bool) : a.delay.direct id (init, stalls) = a.direct id init := by
  funext cx
  have hplan : ∀ x s, (Plan.of id a.delay.action.pollAction x (s, stalls) : Plan ε Bd Env _) =
      .of id a.action.pollAction x s := by
    intro x s
    cases x with
    | completed x => rfl
    | incomplete => exact congrArg Plan.later (a.ofPoll_delay s stalls)
  have hpre : a.delay.preflight cx (init, stalls) = (do
    let (r, s', c) ← a.preflight cx init
    return (r, (s', stalls), c)) := rfl
  simp only [direct, hpre]
  rcases a.preflight cx init with p | ⟨err | x, s, c⟩
  · rfl
  · rfl
  · exact congrArg (fun plan => Except.ok (Except.ok plan, c)) (hplan x s)

theorem FutureAction.ofPoll_delay {Fut : Type} (f : FutureAction ε Env Fut (HList ts)) (s : Fut)
    (stalls : List Bool) :
    (Eval.ofPoll id f.delay.action.pollAction (s, stalls) : Eval ε Bd Env _) =
      .ofPoll id f.action.pollAction s := by
  refine Comp.run_delayed (fun s stalls w => ?_) (fun s stalls w => rfl) (fun s w => rfl) s stalls
  exact ⟨_, rfl, rfl⟩

theorem FutureAction.ofFuture_delay {Fut : Type} (f : FutureAction ε Env Fut T) (s : Fut)
    (stalls : List Bool) :
    (Eval.ofFuture id f.delay (s, stalls) : Eval ε Bd Env _) = .ofFuture id f s := by
  have hrun : (Eval.ofPoll id f.delay.pollInFlight (s, stalls) : Eval ε Bd Env _) =
      .ofPoll id f.pollInFlight s := by
    refine Comp.run_delayed (fun s stalls w => ?_) (fun s stalls w => rfl) (fun s w => rfl) s stalls
    exact ⟨_, rfl, rfl⟩
  unfold Eval.ofFuture
  rw [hrun]

namespace Endpoint

/-- The second endpoint is the first one with `NotReady` answers put in at its leaves and its
futures, by any patterns. -/
inductive Delayed : {ts : List Type} → Endpoint ε Bd Env ts → Endpoint ε Bd Env ts → Prop where
  | leaf {ts : List Type} (σ : Type) (a : LeafAction ε Bd Env σ ts) (init : σ)
      (stalls : List Bool) : Delayed (.leaf σ a init) (.leaf (σ × List Bool) a.delay (init, stalls))
  | oneshot {ts : List Type} (σ : Type) (a : OneshotAction ε σ ts) (init : σ) :
      Delayed (.oneshot σ a init) (.oneshot σ a init)
  | future {ts : List Type} (Fut : Type) (f : FutureAction ε Env Fut (HList ts)) (init : Fut)
      (stalls : List Bool) :
      Delayed (.future Fut f init) (.future (Fut × List Bool) f.delay (init, stalls))
  | and {ts us : List Type} {e1 e1' : Endpoint ε Bd Env ts} {e2 e2' : Endpoint ε Bd Env us} :
      Delayed e1 e1' → Delayed e2 e2' → Delayed (.and e1 e2) (.and e1' e2')
  | or {T1 T2 : Type} {e1 e1' : Endpoint ε Bd Env [T1]} {e2 e2' : Endpoint ε Bd Env [T2]} :
      Delayed e1 e1' → Delayed e2 e2' → Delayed (.or e1 e2) (.or e1' e2')
  | orStrict {ts : List Type} {e1 e1' e2 e2' : Endpoint ε Bd Env ts} :
      Delayed e1 e1' → Delayed e2 e2' → Delayed (.orStrict e1 e2) (.orStrict e1' e2')
  | map {ts : List Type} {U : Type} {e e' : Endpoint ε Bd Env ts} (f : HList ts → U) :
      Delayed e e' → Delayed (.map e f) (.map e' f)
  | mapErr {ts : List Type} {e e' : Endpoint ε Bd Env ts} (f : Error ε → Error ε) :
      Delayed e e' → Delayed (.mapErr e f) (.mapErr e' f)
  | andThen {ts : List Type} {T Fut : Type} {e e' : Endpoint ε Bd Env ts}
      (fut : FutureAction ε Env Fut T) (f : HList ts → Fut) (stalls : HList ts → List Bool) :
      Delayed e e' →
      Delayed (.andThen Fut e fut f)
        (.andThen (Fut × List Bool) e' fut.delay fun x => (f x, stalls x))
  | recover {T Fut : Type} {e e' : Endpoint ε Bd Env [T]} (fut : FutureAction ε Env Fut T)
      (f : Error ε → Fut) (stalls : Error ε → List Bool) :
      Delayed e e' →
      Delayed (.recover Fut e fut f)
        (.recover (Fut × List Bool) e' fut.delay fun err => (f err, stalls err))
  | boxed {ts : List Type} {e e' : Endpoint ε Bd Env ts} :
      Delayed e e' → Delayed (.boxed e) (.boxed e')

theorem Delayed.alike {e e' : Endpoint ε Bd Env ts} (h : Delayed e e') : Alike id e e' := by
  induction h with
  | leaf σ a init stalls => exact .leaf (a.direct_delay init stalls).symm
  | oneshot σ a init => exact .oneshot σ a init
  | future Fut f init stalls => exact .future (f.ofPoll_delay init stalls).symm
  | and _ _ ih1 ih2 => exact .and ih1 ih2
  | or _ _ ih1 ih2 => exact .or ih1 ih2
  | orStrict _ _ ih1 ih2 => exact .orStrict ih1 ih2
  | map f _ ih => exact .map f ih
  | mapErr f _ ih => exact .mapErr f ih
  | andThen fut f stalls _ ih =>
    exact .andThen (fun x => (fut.ofFuture_delay (f x) (stalls x)).symm) ih
  | recover fut f stalls _ ih =>
    exact .recover (fun err => (fut.ofFuture_delay (f err) (stalls err)).symm) ih
  | boxed _ ih => exact .boxed ih

end Endpoint

/-! ## Runs -/

open AppFuture

/-- In each world a run yields at most one thing. -/
theorem AppFuture.Yields.det {σ : Type} {g : Thread Env → Thread Env}
    {f : EndpointAction ε Bd Env σ ts} {fut : AppFuture σ Bd} {th : Thread Env}
    {places₁ places₂ : List Place} {r₁ r₂ : Except (Error ε) (HList ts)} {w₁ w₂ : World Bd Env}
    (h₁ : Yields g f fut th places₁ r₁ w₁) (h₂ : Yields g f fut th places₂ r₂ w₂) :
    places₁ = places₂ ∧ r₁ = r₂ ∧ w₁ = w₂ := by
  obtain ⟨n₁, l₁, fut₁, th₁, h₁, rfl, rfl⟩ := h₁
  obtain ⟨n₂, l₂, fut₂, th₂, h₂, rfl, rfl⟩ := h₂
  have hc₁ := exists_drive_iff.mp ⟨n₁, h₁⟩
  have hc₂ := exists_drive_iff.mp ⟨n₂, h₂⟩
  obtain ⟨rfl, rfl, rfl, rfl⟩ := Finishes.det hc₁ hc₂
  exact ⟨rfl, rfl, rfl⟩

/-- **Driving an endpoint is evaluating it in direct style.**  A run that is polled until it has its
result yields the result, the final context, body and thread and the places where the body was taken
that the direct style evaluates to, and it has a result if that has one.  So runs of endpoints whose
leaves and futures mean the same yield the same, in particular those that differ only in their
`NotReady` answers. -/
theorem drive_direct (e : Endpoint ε Bd Env ts) (addr : Nat) (request : Request) (body : Bd)
    (th : Thread Env) :
    (∀ g places r w, Yields g e.impl (.dispatch e addr request body) th places r w ↔
      e.evaluate g (.new addr request) ⟨⟨.new addr request, some body⟩, g th⟩ places r w) ∧
    (∀ g places₁ r₁ w₁ places₂ r₂ w₂,
      Yields g e.impl (.dispatch e addr request body) th places₁ r₁ w₁ →
      Yields g e.impl (.dispatch e addr request body) th places₂ r₂ w₂ →
      places₁ = places₂ ∧ r₁ = r₂ ∧ w₁ = w₂) ∧
    (∀ g e', e.Alike g e' → ∀ places r w,
      Yields g e.impl (.dispatch e addr request body) th places r w ↔
        Yields g e'.impl (.dispatch e' addr request body) th places r w) ∧
    (∀ e', e.Delayed e' → ∀ places r w,
      Yields id e.impl (.dispatch e addr request body) th places r w ↔
        Yields id e'.impl (.dispatch e' addr request body) th places r w) := by
  have alike : ∀ g (e' : Endpoint ε Bd Env ts), e.Alike g e' → ∀ places r w,
      Yields g e.impl (.dispatch e addr request body) th places r w ↔
        Yields g e'.impl (.dispatch e' addr request body) th places r w := by
    intro g e' h places r w
    rw [e.yields_iff, e'.yields_iff]
    unfold Endpoint.evaluate
    rw [h.direct_eq]
  exact ⟨fun g => e.yields_iff addr request body th, fun g _ _ _ _ _ _ => Yields.det, alike,
    fun e' h => alike id e' h.alike⟩

/-! ## An upload -/

/-- A future that is ready at once. -/
def storeBody : FutureAction Empty Unit Nat Nat where
  poll n th := (.ok (.ready (n + 1)), n, th)
  keeps _ _ := rfl

def upload : Endpoint Empty Nat Unit [Nat] :=
  .andThen Nat (.leaf Unit (RawAction Nat) ()) storeBody (·.head)

/-- The same upload over a slow connection and a slow disk. -/
def slowUpload : Endpoint Empty Nat Unit [Nat] :=
  .andThen (Nat × List Bool)
    (.leaf (Unit × List Bool) (RawAction Nat).delay ((), [true, true]))
    storeBody.delay fun x => (x.head, [true])

/-- The request of an upload. -/
def uploadRequest : Request := ⟨.post, .origin ⟨['/'], none, slash_rooted⟩, []⟩

/-- The slow upload yields what the fast one does, and takes the body in the same place. -/
theorem drive_direct_slowUpload :
    Yields id slowUpload.impl (.dispatch slowUpload 0 uploadRequest 7) ⟨none, ()⟩ [[.inner]]
      (.ok (.single 8)) ⟨⟨.new 0 uploadRequest, none⟩, ⟨none, ()⟩⟩ := by
  have hfast : Yields id upload.impl (.dispatch upload 0 uploadRequest 7) ⟨none, ()⟩ [[.inner]]
      (.ok (.single 8)) ⟨⟨.new 0 uploadRequest, none⟩, ⟨none, ()⟩⟩ :=
    ⟨1, _, _, _, rfl, rfl, rfl⟩
  have hslow : upload.Delayed slowUpload := .andThen storeBody _ _ (.leaf Unit (RawAction Nat) () _)
  exact ((drive_direct upload 0 uploadRequest 7 ⟨none, ()⟩).2.2.2 slowUpload hslow _ _ _).mp hfast

end Finchers
