import DiffReview.Spec.Jobs
import DiffReview.Spec.RateLimit

/-!
# DiffReview — the way of a request

`app/core/middleware.py`, `app/core/auth.py`, the exception handlers of `app/core/errors.py`
and the dependencies of the three routes of `app/api/reviews.py`. A request passes
`ContractMiddleware` before any routing; a review route then resolves its dependencies in
order, of which `require_bearer_token` is the first.
-/

namespace DiffReview

open Py

/-! ## Bytes -/

/-- `raw.decode("latin-1")` -/
def latin1 (raw : List UInt8) : Str := raw.map fun b => ⟨b.toNat, by have := b.toNat_lt; omega⟩

/-- `raw.lower()` of bytes changes ASCII letters only. -/
def lowerBytes (raw : List UInt8) : List UInt8 :=
  raw.map fun b => if 0x41 ≤ b ∧ b ≤ 0x5a then b + 0x20 else b

def asciiBytes (s : String) : List UInt8 := s.toList.map fun c => UInt8.ofNat c.toNat

def isAscii (s : Str) : Bool := s.all fun c => c.val < 128

/-- `int(raw)` of bytes, which reads ASCII only. -/
def intOfBytes (raw : List UInt8) : Option Int :=
  if raw.all fun b => b < 128 then intOf (latin1 raw) else none

/-- `secrets.compare_digest` of two strings; `none` is the `TypeError`. -/
def compareDigest (a b : Str) : Option Bool :=
  if isAscii a && isAscii b then some (a = b) else none

/-! ## The middleware -/

structure GateSettings where
  bearerToken : Str
  maxPayloadBytes : Int

/-- An ASGI scope, as far as the middleware reads it. -/
structure Scope where
  type : Str
  method : Str
  path : Str
  headers : List (List UInt8 × List UInt8)

/-- `{key.lower(): value for key, value in scope.get("headers", [])}` -/
def headerMap (scope : Scope) : Table (Prod.fst : List UInt8 × List UInt8 → List UInt8) :=
  Table.fromRows (scope.headers.map fun h => (lowerBytes h.1, h.2))

def header? (scope : Scope) (name : String) : Option (List UInt8) :=
  ((headerMap scope).get? (asciiBytes name)).map Prod.snd

def expectedAuthorization (settings : GateSettings) : Str := lit "Bearer " ++ settings.bearerToken

/-- The value the middleware compares: the last one, or the empty one. -/
def rawAuthorization (scope : Scope) : List UInt8 := (header? scope "authorization").getD []

def unauthorized : ApiError :=
  ⟨401, lit "unauthorized", lit "A valid bearer token is required.", []⟩

def payloadTooLarge : ApiError :=
  ⟨413, lit "payload_too_large", lit "The request payload exceeds the configured limit.", []⟩

/-- What the middleware does with a request: it answers, calls the wrapped application, or
ends with an exception. -/
inductive Passage where
  | answered (response : ApiError)
  | forwarded
  | raised
deriving DecidableEq, Repr

def underV1 (path : Str) : Bool := path = lit "/v1" || startswith path (lit "/v1/")

/-- The check of the declared length. -/
def checkContentLength (settings : GateSettings) (scope : Scope) : Passage :=
  if scope.path = lit "/v1/reviews" && scope.method = lit "POST" then
    match (header? scope "content-length").bind intOfBytes with
    | some length => if length > settings.maxPayloadBytes then .answered payloadTooLarge else .forwarded
    -- no header, or the `ValueError` that is passed over
    | none => .forwarded
  else .forwarded

/-- `ContractMiddleware.__call__` -/
def contractMiddleware (settings : GateSettings) (scope : Scope) : Passage :=
  if scope.type ≠ lit "http" then .forwarded
  else if underV1 scope.path then
    match compareDigest (latin1 (rawAuthorization scope)) (expectedAuthorization settings) with
    | none => .raised
    | some false => .answered unauthorized
    | some true => checkContentLength settings scope
  else checkContentLength settings scope

/-! ## The routes -/

/-- `require_bearer_token` -/
def requireBearerToken (settings : GateSettings) (authorization : Option Str) : Except Raised Unit :=
  match authorization with
  | none => .error (.api unauthorized)
  | some value => match compareDigest value (expectedAuthorization settings) with
    | none => .error .unhandled
    | some false => .error (.api unauthorized)
    | some true => .ok ()

/-- What the review routes share. -/
structure AppState where
  limiter : SlidingWindowRateLimiter
  db : Tables

/-- A route with what its handler is given; `jobId`, `created` and `clock` are what `uuid4`
and the clocks give. -/
inductive Route where
  | submitReview (rawBody : List UInt8) (idempotencyKey : Option Str) (jobId : Str) (created : Nat)
      (clock : ℚ)
  | getReview (jobId : Str)
  | streamReview (jobId : Str)

inductive Answer where
  | submitted (jobId : Str)
  | review (job : ReviewJob)
  | stream (job : ReviewJob)

/-- A dependency refuses the request, or the handler runs. -/
inductive Served where
  | refused (exc : Raised)
  | handled (result : Except Raised Answer)

def notFound : ApiError := ⟨404, lit "not_found", lit "The requested review job was not found.", []⟩

/-- `session.get(ReviewJob, job_id)` and the check behind it. -/
def findJob (db : Tables) (jobId : Str) : Except Raised ReviewJob :=
  match db.jobs.get? jobId with
  | none => .error (.api notFound)
  | some job => .ok job

/-- The handler of a route behind its other dependencies. -/
def runRoute (env : Env) (s : AppState) : Route → Served × AppState
  | .submitReview rawBody idempotencyKey jobId created clock =>
    match s.limiter.consume clock with
    | (.error exc, limiter) => (.refused exc, { s with limiter := limiter })
    | (.ok (), limiter) =>
      match (parseSubmission env rawBody).bind fun sub =>
        createOrReuseJob s.db sub idempotencyKey jobId created with
      | .error exc => (.handled (.error exc), { s with limiter := limiter })
      | .ok (job, db) => (.handled (.ok (.submitted job.id)), ⟨limiter, db⟩)
  | .getReview jobId => (.handled ((findJob s.db jobId).map .review), s)
  | .streamReview jobId => (.handled ((findJob s.db jobId).map .stream), s)

/-- A review route with its dependencies. -/
def reviewRoute (env : Env) (settings : GateSettings) (authorization : Option Str) (route : Route)
    (s : AppState) : Served × AppState :=
  match requireBearerToken settings authorization with
  | .error exc => (.refused exc, s)
  | .ok () => runRoute env s route

/-- The first `Authorization` value, which FastAPI passes to the dependency. -/
def firstAuthorization (scope : Scope) : Option Str :=
  (scope.headers.find? fun h => lowerBytes h.1 = asciiBytes "authorization").map fun h => latin1 h.2

/-- `handle_unexpected_error` -/
def unexpectedError : ApiError :=
  ⟨500, lit "internal", lit "An internal error occurred.", []⟩

/-- The response to an exception: `handle_api_error` or `handle_unexpected_error`. -/
def Raised.response : Raised → ApiError
  | .api e => e
  | .unhandled => unexpectedError

/-- What a client gets: an error response or the result of a handler. -/
inductive Reply where
  | error (response : ApiError)
  | answer (answer : Answer)

def Served.reply : Served → Reply
  | .refused exc => .error exc.response
  | .handled (.error exc) => .error exc.response
  | .handled (.ok answer) => .answer answer

/-- A request on its whole way; `router` sends it to a review route or answers it itself. -/
def serve (env : Env) (settings : GateSettings) (router : Scope → Except ApiError Route)
    (scope : Scope) (s : AppState) : Reply × AppState :=
  match contractMiddleware settings scope with
  | .answered response => (.error response, s)
  | .raised => (.error unexpectedError, s)
  | .forwarded => match router scope with
    | .error response => (.error response, s)
    | .ok route =>
      let (served, s) := reviewRoute env settings (firstAuthorization scope) route s
      (served.reply, s)

end DiffReview
