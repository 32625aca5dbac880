import DiffReview.Lib.Json
import DiffReview.Spec.Llm
import DiffReview.Spec.Mock
import DiffReview.Spec.Models

/-!
# DiffReview — submissions

`app/services/jobs.py`. `Env` holds what the service is run with: its settings, and the
functions it calls that are not in the repository (`json.loads` with the values it
returns, the pydantic validation of the request, SHA-256, the line patterns of the mock
rules and the texts of foreign exceptions).
-/

namespace DiffReview

open Py

structure Settings where
  maxPayloadBytes : Int
  chunkBytes : Int
  maxConcurrentJobs : Nat
  cerebrasApiKey : Option Str

/-- `app/config.py` -/
def Settings.default : Settings := ⟨1048576, 65536, 4, none⟩

/-- What `json.loads` raises: `JSONDecodeError` or `UnicodeDecodeError`, or anything else. -/
inductive LoadsError where
  | decode
  | other
deriving DecidableEq, Repr

structure Env where
  settings : Settings
  Val : Type
  jsonLoads : List UInt8 → Except LoadsError Val
  /-- `ReviewRequest.model_validate`; `none` is the `ValidationError`. -/
  modelValidate : Val → Option ReviewRequest
  sha256 : List UInt8 → Str
  patterns : Patterns
  foreignText : ForeignError → Str

def Env.llm (env : Env) : LlmEnv := ⟨env.sha256, env.foreignText, env.settings.cerebrasApiKey⟩

structure ParsedSubmission where
  request : ReviewRequest
  rawBodyHash : Str
  requestHash : Str
  inputBytes : Nat
  chunks : Nat
deriving DecidableEq

/-- The canonical request: sorted keys, no whitespace. The braces are `\x7b` and `\x7d`. -/
def canonicalJson (diff : Str) (provider : ProviderName) (maxFindings : Nat) : Str :=
  lit "\x7b\"diff\":" ++ jsonString diff ++ lit ",\"options\":\x7b\"maxFindings\":"
    ++ decimal maxFindings ++ lit ",\"provider\":" ++ jsonString provider.value ++ lit "\x7d\x7d"

def requestHash (sha256 : List UInt8 → Str) (diff : Str) (provider : ProviderName)
    (maxFindings : Nat) : Except PyError Str :=
  (orRaise .unicodeEncode (encode (canonicalJson diff provider maxFindings))).map sha256

/-- An exception that no `except` clause of `parse_submission` names. -/
def orUnhandled {α : Type} : Except PyError α → Except Raised α
  | .ok a => .ok a
  | .error _ => .error .unhandled

/-- The first check of `parse_submission`. -/
def checkPayloadSize (env : Env) (rawBody : List UInt8) : Except Raised Unit :=
  if rawBody.length > env.settings.maxPayloadBytes then .error (.api
    ⟨413, lit "payload_too_large", lit "The request payload exceeds the configured limit.", []⟩)
  else .ok ()

/-- `except (JSONDecodeError, UnicodeDecodeError)` around `json.loads`. -/
def loadsOrReject (env : Env) (rawBody : List UInt8) : Except Raised env.Val :=
  match env.jsonLoads rawBody with
  | .ok payload => .ok payload
  | .error .decode =>
    .error (.api ⟨400, lit "invalid_json", lit "The request body is not valid JSON.", []⟩)
  | .error .other => .error .unhandled

/-- `except ValidationError` around `ReviewRequest.model_validate`. -/
def validateOrReject (env : Env) (payload : env.Val) : Except Raised ReviewRequest :=
  match env.modelValidate payload with
  | some request => .ok request
  | none => .error (.api ⟨422, lit "invalid_diff", lit "The review request is not valid.", []⟩)

/-- `except DiffParseError` around the parser. -/
def parseOrReject (diff : Str) : Except Raised (List FileDiff) :=
  match parseUnifiedDiff diff with
  | .ok files => .ok files
  | .error (.diffParseError _) => .error (.api
      ⟨422, lit "invalid_diff", lit "The supplied diff is not a valid unified diff.", []⟩)
  | .error _ => .error .unhandled

def parseSubmission (env : Env) (rawBody : List UInt8) : Except Raised ParsedSubmission := do
  checkPayloadSize env rawBody
  let payload ← loadsOrReject env rawBody
  let request ← validateOrReject env payload
  let files ← parseOrReject request.diff
  let chunks ← orUnhandled (chunkFileDiffs files env.settings.chunkBytes)
  let hash ← orUnhandled (requestHash env.sha256 request.diff request.provider request.maxFindings)
  let diffBytes ← orUnhandled (orRaise .unicodeEncode (encode request.diff))
  return {
    request := request
    rawBodyHash := env.sha256 rawBody
    requestHash := hash
    inputBytes := diffBytes.length
    chunks := chunks.length }

/-- The row `create_or_reuse_job` adds for a new job. -/
def newJob (sub : ParsedSubmission) (jobId : Str) (cacheHit : Bool) (now : Nat) : ReviewJob where
  id := jobId
  status := .queued
  diff := sub.request.diff
  provider := sub.request.provider
  maxFindings := sub.request.maxFindings
  requestHash := sub.requestHash
  inputBytes := sub.inputBytes
  chunks := sub.chunks
  cacheHit := cacheHit
  findings := none
  errorCode := none
  errorMessage := none
  createdAt := now

def idempotencyConflict : ApiError :=
  ⟨409, lit "idempotency_conflict",
    lit "The idempotency key was already used with a different request body.", []⟩

def inconsistentRecord : ApiError :=
  ⟨500, lit "internal", lit "The idempotency record is inconsistent.", []⟩

/-- `if idempotency_key:` -/
def truthyKey : Option Str → Option Str
  | some [] => none
  | key => key

/-- `if cache is None:` -/
def insertEntry (db : Tables) (hash jobId : Str) : Option (Table CacheEntry.requestHash) :=
  match db.cache.get? hash with
  | none => db.cache.insert? ⟨hash, jobId, .running, none⟩
  | some _ => some db.cache

/-- `if idempotency_key:`, at the insertion. -/
def insertRecord (db : Tables) (key : Option Str) (bodyHash jobId : Str) :
    Option (Table IdempotencyRecord.key) :=
  match key with
  | some key => db.idempotency.insert? ⟨key, bodyHash, jobId⟩
  | none => some db.idempotency

/-- The rows added for a new job, in one transaction; `none` is a unique violation. -/
def insertJob (db : Tables) (sub : ParsedSubmission) (key : Option Str) (jobId : Str) (now : Nat) :
    Option (ReviewJob × Tables) := do
  let job := newJob sub jobId (db.cache.get? sub.requestHash).isSome now
  let jobs ← db.jobs.insert? job
  let cache ← insertEntry db sub.requestHash jobId
  let idempotency ← insertRecord db key sub.rawBodyHash jobId
  return (job, ⟨jobs, idempotency, cache, appendEvent db.events jobId (.status .queued none)⟩)

/-- `create_or_reuse_job` under the submission lock: the job answered and the tables after
the transaction. A unique violation leaves the handler as an unhandled exception. -/
def createOrReuseJob (db : Tables) (sub : ParsedSubmission) (idempotencyKey : Option Str)
    (jobId : Str) (now : Nat) : Except Raised (ReviewJob × Tables) :=
  match (truthyKey idempotencyKey).bind db.idempotency.get? with
  | some existing =>
    if existing.bodyHash ≠ sub.rawBodyHash then .error (.api idempotencyConflict)
    else match db.jobs.get? existing.jobId with
      | none => .error (.api inconsistentRecord)
      | some job => .ok (job, db)
  | none => match insertJob db sub (truthyKey idempotencyKey) jobId now with
    | some result => .ok result
    | none => .error .unhandled

end DiffReview
