import Finchers.Endpoint.Ext

/-!
# Endpoints

An endpoint is a tree of combinators over what the application supplies at the leaves.  `Action`
is the type of the states of its action, `spawn` the state of a new one, `impl` its operations.
-/

set_option autoImplicit false

namespace Finchers

open Resumable

/-- Endpoints with outputs `HList ts`. -/
inductive Endpoint (ε Bd Env : Type) : List Type → Type 1 where
  | leaf {ts : List Type} (σ : Type) (a : LeafAction ε Bd Env σ ts) (init : σ) :
      Endpoint ε Bd Env ts
  | oneshot {ts : List Type} (σ : Type) (a : OneshotAction ε σ ts) (init : σ) : Endpoint ε Bd Env ts
  | future {ts : List Type} (Fut : Type) (f : FutureAction ε Env Fut (HList ts)) (init : Fut) :
      Endpoint ε Bd Env ts
  | and {ts us : List Type} (e1 : Endpoint ε Bd Env ts) (e2 : Endpoint ε Bd Env us) :
      Endpoint ε Bd Env (ts ++ us)
  | or {T1 T2 : Type} (e1 : Endpoint ε Bd Env [T1]) (e2 : Endpoint ε Bd Env [T2]) :
      Endpoint ε Bd Env [T1 ⊕ T2]
  | orStrict {ts : List Type} (e1 e2 : Endpoint ε Bd Env ts) : Endpoint ε Bd Env ts
  | map {ts : List Type} {U : Type} (e : Endpoint ε Bd Env ts) (f : HList ts → U) :
      Endpoint ε Bd Env [U]
  | mapErr {ts : List Type} (e : Endpoint ε Bd Env ts) (f : Error ε → Error ε) :
      Endpoint ε Bd Env ts
  | andThen {ts : List Type} {T : Type} (Fut : Type) (e : Endpoint ε Bd Env ts)
      (fut : FutureAction ε Env Fut T) (f : HList ts → Fut) : Endpoint ε Bd Env [T]
  | recover {T : Type} (Fut : Type) (e : Endpoint ε Bd Env [T]) (fut : FutureAction ε Env Fut T)
      (f : Error ε → Fut) : Endpoint ε Bd Env [T]
  | boxed {ts : List Type} (e : Endpoint ε Bd Env ts) : Endpoint ε Bd Env ts

namespace Endpoint

variable {ε Bd Env : Type}

/-- The states of the action of an endpoint. -/
def Action : {ts : List Type} → Endpoint ε Bd Env ts → Type
  | _, .leaf σ _ _ => σ
  | _, .oneshot σ _ _ => Option σ
  | _, .future Fut _ _ => Fut
  | _, @Endpoint.and _ _ _ ts us e1 e2 => AndAction e1.Action e2.Action ts us
  | _, .or e1 e2 => OrState e1.Action e2.Action
  | _, .orStrict e1 e2 => OrState e1.Action e2.Action
  | _, .map e _ => e.Action
  | _, .mapErr e _ => e.Action
  | _, .andThen Fut e _ _ => InFlight e.Action Fut
  | _, .recover Fut e _ _ => InFlight e.Action Fut
  | _, .boxed e => e.Action

/-- `Endpoint::action`. -/
def spawn : {ts : List Type} → (e : Endpoint ε Bd Env ts) → e.Action
  | _, .leaf _ _ init => init
  | _, .oneshot _ _ init => some init
  | _, .future _ _ init => init
  | _, .and e1 e2 => ⟨.init (some e1.spawn), .init (some e2.spawn)⟩
  | _, .or e1 e2 => .init e1.spawn e2.spawn
  | _, .orStrict e1 e2 => .init e1.spawn e2.spawn
  | _, .map e _ => e.spawn
  | _, .mapErr e _ => e.spawn
  | _, .andThen _ e _ _ => ⟨e.spawn, none⟩
  | _, .recover _ e _ _ => ⟨e.spawn, none⟩
  | _, .boxed e => e.spawn

/-- The operations of the action of an endpoint.  A box passes every call on. -/
def impl : {ts : List Type} → (e : Endpoint ε Bd Env ts) → EndpointAction ε Bd Env e.Action ts
  | _, .leaf _ a _ => a.action
  | _, .oneshot _ a _ => a.action
  | _, .future _ f _ => f.action
  | _, .and e1 e2 => AndAction.action e1.impl e2.impl
  | _, .or e1 e2 => OrAction.action e1.impl e2.impl
  | _, .orStrict e1 e2 => OrStrictAction.action e1.impl e2.impl
  | _, .map e f => MapAction.action e.impl f
  | _, .mapErr e f => MapErrAction.action e.impl f
  | _, .andThen _ e fut f => AndThenAction.action e.impl fut f
  | _, .recover _ e fut f => RecoverAction.action e.impl fut f
  | _, .boxed e => e.impl

/-- `preflight` of a new action. -/
def preflight {ts : List Type} (e : Endpoint ε Bd Env ts) (cx : PreflightContext) :
    Traced Panic Event (Except (Error ε) (Preflight (HList ts)) × e.Action × CursorInner) :=
  e.impl.preflight cx e.spawn

/-- `poll_action`. -/
def pollAction {ts : List Type} (e : Endpoint ε Bd Env ts) :
    PollFn Panic Event (Error ε) e.Action (World Bd Env) (HList ts) :=
  e.impl.pollAction

end Endpoint

end Finchers
