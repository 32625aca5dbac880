import DiffReview.Spec.Gate
import DiffReview.Spec.System

/-!
# DiffReview — the server

The requests of a process and its workers over one set of tables, in any order, and its
restarts. The limiter lives in memory: a restart begins with an empty one, and with another
reading of the monotonic clock. `lifespan` names its limiter `TokenBucket`; the class that
`app/core/rate_limit.py` has is `SlidingWindowRateLimiter`.
-/

namespace DiffReview

open Py

/-- `handle_http_error` -/
def handleHttpError (statusCode : Nat) (detail : Str) : ApiError where
  statusCode := statusCode
  code := if statusCode = 404 then lit "not_found" else lit "internal"
  message := if statusCode = 404 then lit "The requested resource was not found." else detail
  headers := []

/-- `handle_validation_error` -/
def handleValidationError : ApiError :=
  ⟨422, lit "invalid_diff", lit "The request is not valid.", []⟩

/-- Where the routers send a request that the middleware has let through. -/
inductive Routed where
  /-- No route has the path. -/
  | notFound
  /-- A route has the path, for another method. -/
  | methodNotAllowed
  | matched (route : Route)

def Routed.outcome : Routed → Except ApiError Route
  | .notFound => .error (handleHttpError 404 (lit "Not Found"))
  | .methodNotAllowed => .error (handleHttpError 405 (lit "Method Not Allowed"))
  | .matched route => .ok route

/-- What the limiter would read, of a submission. -/
def Routed.clock? : Routed → Option ℚ
  | .matched (.submitReview _ _ _ _ clock) => some clock
  | _ => none

/-- `Header(max_length=255)` of `submit_review` -/
def Routed.keyTooLong : Routed → Bool
  | .matched (.submitReview _ (some key) _ _ _) => 255 < key.length
  | _ => false

/-- A submission with an invalid header: its dependencies run before the error is raised. -/
def serveInvalid (settings : GateSettings) (scope : Scope) (clock : ℚ) (s : AppState) :
    Reply × AppState :=
  match contractMiddleware settings scope with
  | .answered response => (.error response, s)
  | .raised => (.error unexpectedError, s)
  | .forwarded => match requireBearerToken settings (firstAuthorization scope) with
    | .error exc => (.error exc.response, s)
    | .ok () => match s.limiter.consume clock with
      | (.error exc, limiter) => (.error exc.response, { s with limiter := limiter })
      | (.ok (), limiter) => (.error handleValidationError, { s with limiter := limiter })

def respond (env : Env) (settings : GateSettings) (scope : Scope) (routed : Routed) (s : AppState) :
    Reply × AppState :=
  match routed.keyTooLong, routed.clock? with
  | true, some clock => serveInvalid settings scope clock s
  | _, _ => serve env settings (fun _ => routed.outcome) scope s

structure Server where
  limiter : SlidingWindowRateLimiter
  /-- The last reading of the clock. -/
  clock : ℚ
  service : State

def Server.start (limit : Int) (windowSeconds clock : ℚ) : Server :=
  ⟨.new limit windowSeconds, clock, State.init⟩

/-- What the routes share. -/
def Server.app (s : Server) : AppState := ⟨s.limiter, s.service.db⟩

inductive ServerAction where
  | request (scope : Scope) (routed : Routed)
  /-- A step of the workers, or the end of the process. -/
  | service (a : Action)
  | restart (jobs : List ReviewJob) (clock : ℚ)

def serverStep (env : Env) (settings : GateSettings) (s : Server) : ServerAction → Option Server
  | .request scope routed =>
    if s.service.up ∧ s.clock ≤ routed.clock?.getD s.clock then
      let app := (respond env settings scope routed s.app).2
      some ⟨app.limiter, routed.clock?.getD s.clock, { s.service with db := app.db }⟩
    else none
  -- submissions come by requests, and restarts have a limiter to build
  | .service (.submit ..) => none
  | .service (.recover _) => none
  | .service a => (step env s.service a).map fun t => { s with service := t }
  | .restart jobs clock => (step env s.service (.recover jobs)).map fun t =>
    ⟨.new s.limiter.limit s.limiter.windowSeconds, clock, t⟩

end DiffReview
