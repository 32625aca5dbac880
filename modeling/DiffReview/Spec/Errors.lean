import DiffReview.Lib.Str

/-!
# DiffReview — exceptions

The exceptions the review code raises itself, with their texts, and the ones that reach
it from CPython and pydantic, whose texts are not part of the source.
-/

namespace DiffReview

open Py

/-- Exceptions whose text is written outside the repository. -/
inductive ForeignError where
  /-- `ValueError`: an integer of more than 4300 digits met `int()` or `str()`. -/
  | intMaxStrDigits
  /-- `UnicodeEncodeError`: a lone surrogate met `encode("utf-8")`. -/
  | unicodeEncode
  /-- `pydantic.ValidationError`. -/
  | validation
  /-- `sqlalchemy.exc.DBAPIError`: a statement or a commit failed. -/
  | database
deriving DecidableEq, Repr

inductive PyError where
  | diffParseError (message : Str)
  | providerError (message : Str)
  | foreign (e : ForeignError)
deriving DecidableEq, Repr

/-- `str(exc)`. -/
def PyError.str (foreignText : ForeignError → Str) : PyError → Str
  | .diffParseError message => message
  | .providerError message => message
  | .foreign e => foreignText e

/-- Turns a `none` of the text library into the exception it stands for. -/
def orRaise {α : Type} (e : ForeignError) : Option α → Except PyError α
  | some a => .ok a
  | none => .error (.foreign e)

@[simp] theorem orRaise_eq_ok {α : Type} {e : ForeignError} {o : Option α} {a : α} :
    orRaise e o = .ok a ↔ o = some a := by
  cases o <;> simp [orRaise]

/-- `core.errors.ApiError`: the status, code, message and headers of an error response. -/
structure ApiError where
  statusCode : Nat
  code : Str
  message : Str
  headers : List (Str × Str)
deriving DecidableEq, Repr

/-- How a request handler ends without a result: an `ApiError`, or an exception that
becomes the 500 of `handle_unexpected_error`. -/
inductive Raised where
  | api (e : ApiError)
  | unhandled
deriving DecidableEq, Repr

end DiffReview
