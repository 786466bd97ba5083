import Finchers.Endpoint.Encoded
import Finchers.Lib.Machine

/-!
# GraphQL requests

A GraphQL request is decoded from the query string of a `GET` request or from the body of a `POST`
request, and executed with a schema.

* `GraphQLRequest.execute` — a single request or a batch of them, with a record of what is run;
* `GraphQLRequest.execute_eq` — each request is run once, in order;
* `parseQueryStr` — the query string: what serde_qs has decoded is percent-decoded once more;
* `RequestFuture.poll` — the future of `graphql_request`.
-/

set_option autoImplicit false

namespace Finchers.Juniper

open Resumable

/-- `juniper::http::GraphQLRequest`, over the input values `V`; `vars` is its field `variables`. -/
structure JuniperRequest (V : Type) where
  query : Str
  operationName : Option Str
  vars : Option V
  deriving DecidableEq, Repr

/-- `GraphQLRequest`, with its kind. -/
inductive GraphQLRequest (V : Type) where
  | single (request : JuniperRequest V)
  | batch (requests : List (JuniperRequest V))
  deriving DecidableEq, Repr

/-- `GraphQLResponse`; the body may have failed to be written. -/
structure GraphQLResponse where
  isOk : Bool
  body : Except String (List UInt8)

/-- A schema with its root node, as juniper runs it on a context, and the JSON of the responses. -/
structure Schema (V Ctx R : Type) where
  execute : JuniperRequest V → Ctx → R
  isOk : R → Bool
  toVec : R → Except String (List UInt8)
  toVecAll : List R → Except String (List UInt8)

/-- A call of `juniper::http::GraphQLRequest::execute`: a request that is run on a context. -/
structure Execution (V Ctx : Type) where
  request : JuniperRequest V
  context : Ctx
  deriving DecidableEq, Repr

/-- Computations that record which requests they run. -/
abbrev Recorded (V Ctx : Type) := Traced Unit (Execution V Ctx)

section

variable {V Ctx R : Type}

/-- `juniper::http::GraphQLRequest::execute`. -/
def JuniperRequest.execute (schema : Schema V Ctx R) (context : Ctx) (request : JuniperRequest V) :
    Recorded V Ctx R := do
  Traced.emit ⟨request, context⟩
  return schema.execute request context

/-- `GraphQLRequest::execute`. -/
def GraphQLRequest.execute (schema : Schema V Ctx R) (context : Ctx) :
    GraphQLRequest V → Recorded V Ctx GraphQLResponse
  | .single request => do
    let response ← request.execute schema context
    return ⟨schema.isOk response, schema.toVec response⟩
  | .batch requests => do
    let responses ← requests.mapM' (JuniperRequest.execute schema context)
    return ⟨responses.all schema.isOk, schema.toVecAll responses⟩

/-- What has to be run for a request: itself, or the requests of the batch. -/
def GraphQLRequest.executions (context : Ctx) : GraphQLRequest V → List (Execution V Ctx)
  | .single request => [⟨request, context⟩]
  | .batch requests => requests.map fun request => ⟨request, context⟩

/-- The response that is written from the results of these runs. -/
def GraphQLRequest.response (schema : Schema V Ctx R) (context : Ctx) :
    GraphQLRequest V → GraphQLResponse
  | .single request =>
    ⟨schema.isOk (schema.execute request context), schema.toVec (schema.execute request context)⟩
  | .batch requests =>
    ⟨requests.all fun request => schema.isOk (schema.execute request context),
      schema.toVecAll (requests.map fun request => schema.execute request context)⟩

theorem JuniperRequest.execute_eq (schema : Schema V Ctx R) (context : Ctx)
    (request : JuniperRequest V) : request.execute schema context =
      ⟨[⟨request, context⟩], .ok (schema.execute request context)⟩ := rfl

theorem executeAll_eq (schema : Schema V Ctx R) (context : Ctx) (requests : List (JuniperRequest V)) :
    requests.mapM' (JuniperRequest.execute schema context) =
      ⟨requests.map fun request => ⟨request, context⟩,
        .ok (requests.map fun request => schema.execute request context)⟩ := by
  induction requests with
  | nil => rfl
  | cons request requests ih =>
    rw [List.mapM'_cons, ih, request.execute_eq, Traced.mk_ok_bind, Traced.mk_ok_bind]
    simp

/-- **A request is run once, and so is each request of a batch**, one after the other. -/
theorem GraphQLRequest.execute_eq (schema : Schema V Ctx R) (context : Ctx)
    (request : GraphQLRequest V) : request.execute schema context =
      ⟨request.executions context, .ok (request.response schema context)⟩ := by
  cases request with
  | single request => rfl
  | batch requests =>
    rw [execute, executeAll_eq, Traced.mk_ok_bind, response]
    simp [executions, List.all_map, Function.comp_def]

end

/-! ## Decoding -/

/-- `ParsedQuery`; `vars` is its field `variables`. -/
structure ParsedQuery where
  query : Str
  operationName : Option Str
  vars : Option Str
  deriving DecidableEq, Repr

/-- What other libraries read: `serde_qs::from_str`, with the keys `query`, `operation_name` and
`variables`; `serde_json::from_str` for an input value; `serde_json::from_slice` for a request. -/
structure Readers (V : Type) where
  fromQueryStr : Str → Except String ParsedQuery
  fromJsonStr : Str → Except String V
  fromJsonSlice : List UInt8 → Except String (GraphQLRequest V)

section

variable {V ε : Type}

/-- `percent_decode(..).decode_utf8()`. -/
def decodeUtf8 (s : Str) : Except (Error ε) Str :=
  (EncodedStr.percentDecode s).mapError fun err => .badRequest (displayUtf8Error err)

/-- `parse_query_str`. -/
def parseQueryStr (x : Readers V) (s : Str) : Except (Error ε) (GraphQLRequest V) := do
  let parsed ← (x.fromQueryStr s).mapError .internalServerError
  let query ← decodeUtf8 parsed.query
  let operationName ← match parsed.operationName with
    | some s => do
      let s ← decodeUtf8 s
      pure (some s)
    | none => pure none
  let vars ← match parsed.vars with
    | some vars => do
      let decoded ← decodeUtf8 vars
      let value ← (x.fromJsonStr decoded).mapError .badRequest
      pure (some value)
    | none => pure none
  return .single ⟨query, operationName, vars⟩

/-- What the future of `graphql_request` reads of the input. -/
structure RequestInput where
  query : Option Str
  contentType : Except String (Option Str)

/-- `RequestKind`; `data` is what the future of the body answers. -/
inductive RequestKind (ε : Type) where
  | get
  | post (data : Poll (Error ε) (List UInt8))

/-- `GraphQLRequestEndpoint::apply`. -/
def RequestKind.apply (method : Method) (data : Poll (Error ε) (List UInt8)) : RequestKind ε :=
  if method = .get then .get else .post data

/-- The request of a body that has been received. -/
def readBody (x : Readers V) (input : RequestInput) (data : List UInt8) :
    Except (Error ε) (GraphQLRequest V) := do
  match ← input.contentType.mapError .badRequest with
  | some m =>
    if m = "application/json".toList then (x.fromJsonSlice data).mapError .badRequest
    else if m = "application/graphql".toList then do
      let query ← (Utf8.decode data).mapError fun err => .badRequest (displayUtf8Error err)
      return .single ⟨query, none, none⟩
    else throw (.badRequest "unsupported content-type.")
  | none => throw (.badRequest "missing content-type.")

/-- `RequestFuture::poll`. -/
def RequestFuture.poll (x : Readers V) (input : RequestInput) :
    RequestKind ε → Poll (Error ε) (GraphQLRequest V)
  | .get => .ofResult (match input.query with
    | none => .error (.badRequest "missing query string")
    | some s => parseQueryStr x s)
  | .post (.ok (.ready data)) => .ofResult (readBody x input data)
  | .post (.ok .notReady) => .ok .notReady
  | .post (.error err) => .error err

end

end Finchers.Juniper
