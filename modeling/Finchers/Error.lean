import Finchers.Http

/-!
# Errors

A boxed `HttpError`: an application's own error value, a message with a status code, or the
`NotMatched` error that `or` and `or_strict` build from the errors of their two sides.
-/

set_option autoImplicit false

namespace Finchers

/-- `HttpError`: the status code, the response and the text of an error value. -/
class HttpError (ε : Type) where
  statusCode : ε → Nat
  toResponse : ε → Request → Response Unit := fun e _ => ⟨statusCode e, [], ()⟩
  display : ε → String

/-- `HttpError for Never`. -/
instance : HttpError Empty where
  statusCode e := nomatch e
  display e := nomatch e

/-- `Error`, over the error values of the application. -/
inductive Error (ε : Type) where
  | custom (e : ε)
  | message (msg : String) (status : Nat)
  | notMatched (left right : Error ε)
  deriving DecidableEq, Repr

namespace Error

variable {ε : Type}

def badRequest (msg : String) : Error ε := .message msg 400

def notFound (msg : String) : Error ε := .message msg 404

def methodNotAllowed (msg : String) : Error ε := .message msg 405

def internalServerError (msg : String) : Error ε := .message msg 500

/-- `HttpError::status_code`. -/
def statusCode [HttpError ε] : Error ε → Nat
  | .custom e => HttpError.statusCode e
  | .message _ status => status
  | .notMatched _ _ => 404

/-- `Display`. -/
def display [HttpError ε] : Error ε → String
  | .custom e => HttpError.display e
  | .message msg _ => msg
  | .notMatched _ _ => "not matched"

/-- `HttpError::to_response`: only an application's error may bring a response of its own. -/
def toResponse [HttpError ε] : Error ε → Request → Response Unit
  | .custom e, request => HttpError.toResponse e request
  | err, _ => ⟨err.statusCode, [], ()⟩

/-- `IntoResponse for Error`. -/
def intoResponse [HttpError ε] (err : Error ε) (request : Request) : Response String :=
  (err.toResponse request).map (fun _ => err.display)

end Error

end Finchers
