import DiffReview.Spec.System

/-!
# DiffReview — submissions without a common lock

`submit_review` with `create_or_reuse_job` again, one database step at a time. Any number
of calls, which may belong to several processes on one database, take their steps in any
order, between each other's and between those of the workers. A transaction reads what is
committed, keeps its own rows to itself, and its `commit` writes all of them or, when a
key is taken, none.
-/

namespace DiffReview

open Py Transition

/-! ## The rows of a transaction -/

/-- What a call has added to its session. -/
structure Added where
  job : ReviewJob
  entry : Option CacheEntry
  record : Option IdempotencyRecord
  event : Option JobEvent

def insertOptional? {κ ρ : Type} {key : ρ → κ} [DecidableEq κ] (t : Table key) :
    Option ρ → Option (Table key)
  | none => some t
  | some r => t.insert? r

/-- The event table has the constraint `uq_job_event_sequence`. -/
def insertEvent? (events : List JobEvent) : Option JobEvent → Option (List JobEvent)
  | none => some events
  | some event =>
    if events.any fun e => e.jobId = event.jobId && e.sequence = event.sequence then none
    else some (events ++ [event])

/-- The tables with the rows in them; `none` is a unique violation. -/
def Added.insert? (rows : Added) (db : Tables) : Option Tables := do
  let jobs ← db.jobs.insert? rows.job
  let cache ← insertOptional? db.cache rows.entry
  let idempotency ← insertOptional? db.idempotency rows.record
  let events ← insertEvent? db.events rows.event
  return ⟨jobs, idempotency, cache, events⟩

/-! ## One call -/

/-- The database call a submission awaits. -/
inductive Await where
  /-- `session.get(IdempotencyRecord, idempotency_key)` -/
  | getRecord (key : Str)
  | getJob (existing : IdempotencyRecord)
  /-- `session.get(CacheEntry, submission.request_hash)` -/
  | getEntry
  /-- `session.flush()` -/
  | flushJob (job : ReviewJob)
  /-- The query of `append_event`, before which the session flushes. -/
  | selectSequence (rows : Added)
  /-- The flush of `append_event`. -/
  | flushEvent (rows : Added)
  | commit (rows : Added)
  /-- The two reads after the `rollback`. -/
  | getRecordAgain (key : Str)
  | getJobAgain (existing : IdempotencyRecord)

/-- How far a submission has come. The last three are its ends: 202 with a new job, 202
with an existing one, and an error. -/
inductive CallState where
  | awaiting (sub : ParsedSubmission) (await : Await)
  | created (job : ReviewJob)
  | reused (job : ReviewJob)
  | raised (exc : Raised)

/-- The job of a call answered 202. -/
def CallState.accepted? : CallState → Option ReviewJob
  | .created job => some job
  | .reused job => some job
  | _ => none

def notQueued : ApiError := ⟨500, lit "internal", lit "The review could not be queued.", []⟩

/-- A call up to its first database step. -/
def CallState.arrived (env : Env) (rawBody : List UInt8) (idempotencyKey : Option Str) : CallState :=
  match parseSubmission env rawBody with
  | .error exc => .raised exc
  | .ok sub => match truthyKey idempotencyKey with
    | some key => .awaiting sub (.getRecord key)
    | none => .awaiting sub .getEntry

/-- A flush of the rows added so far; its `IntegrityError` is not caught. -/
def flushed (db : Tables) (rows : Added) (next : CallState) : CallState :=
  match rows.insert? db with
  | some _ => next
  | none => .raised .unhandled

/-- What a step other than the commit leads to; `jobId` and `now` are what `uuid4` and the
clock give. -/
def Await.next (db : Tables) (sub : ParsedSubmission) (key : Option Str) (jobId : Str) (now : Nat) :
    Await → CallState
  | .getRecord key => match db.idempotency.get? key with
    | none => .awaiting sub .getEntry
    | some existing =>
      if existing.bodyHash ≠ sub.rawBodyHash then .raised (.api idempotencyConflict)
      else .awaiting sub (.getJob existing)
  | .getJob existing => match db.jobs.get? existing.jobId with
    | none => .raised (.api inconsistentRecord)
    | some job => .reused job
  | .getEntry =>
    .awaiting sub (.flushJob (newJob sub jobId (db.cache.get? sub.requestHash).isSome now))
  | .flushJob job => flushed db ⟨job, none, none, none⟩ (.awaiting sub (.selectSequence {
      job := job
      entry := if job.cacheHit then none else some ⟨sub.requestHash, job.id, .running, none⟩
      record := key.map fun key => ⟨key, sub.rawBodyHash, job.id⟩
      event := none }))
  | .selectSequence rows =>
    let event := ⟨rows.job.id, maxSequence db.events rows.job.id + 1, .status .queued none⟩
    flushed db rows (.awaiting sub (.flushEvent { rows with event := some event }))
  | .flushEvent rows => flushed db rows (.awaiting sub (.commit rows))
  | .commit rows => match rows.insert? db with
    | some _ => .created rows.job
    -- `except IntegrityError`
    | none => match key with
      | some key => .awaiting sub (.getRecordAgain key)
      | none => .raised (.api notQueued)
  | .getRecordAgain key => match db.idempotency.get? key with
    | none => .raised (.api notQueued)
    | some existing =>
      if existing.bodyHash = sub.rawBodyHash then .awaiting sub (.getJobAgain existing)
      else .raised (.api notQueued)
  | .getJobAgain existing => match db.jobs.get? existing.jobId with
    | none => .raised (.api notQueued)
    | some job => .reused job

/-- What a step writes to the committed tables. -/
def Await.write (db : Tables) : Await → Tables
  | .commit rows => (rows.insert? db).getD db
  | _ => db

structure Call where
  rawBody : List UInt8
  idempotencyKey : Option Str
  state : CallState

/-! ## All calls -/

/-- The service next to the calls that have been made. -/
structure Calls where
  service : State
  call : Nat → Option Call

def Calls.init : Calls := ⟨State.init, fun _ => none⟩

inductive CallAction where
  /-- A step of the workers or of their process. -/
  | service (a : Action)
  | arrive (c : Nat) (rawBody : List UInt8) (idempotencyKey : Option Str)
  /-- The database step the call awaits; with `failure` it raises another error, which no
  `except` of the handler names. -/
  | database (c : Nat) (jobId : Str) (now : Nat) (failure : Bool)

def Calls.set (x : Calls) (c : Nat) (call : Call) : Calls :=
  { x with call := Function.update x.call c (some call) }

def callStep (env : Env) (x : Calls) : CallAction → Option Calls
  | .service (.submit _ _ _ _) => none
  | .service a => (step env x.service a).map fun s => { x with service := s }
  | .arrive c rawBody idempotencyKey => match x.call c with
    | none => some (x.set c ⟨rawBody, idempotencyKey, .arrived env rawBody idempotencyKey⟩)
    | some _ => none
  | .database c jobId now failure => match x.call c with
    | some ⟨rawBody, idempotencyKey, .awaiting sub await⟩ =>
      if failure then some (x.set c ⟨rawBody, idempotencyKey, .raised .unhandled⟩)
      else
        let next := await.next x.service.db sub (truthyKey idempotencyKey) jobId now
        let service := { x.service with db := await.write x.service.db }
        some ({ x with service := service }.set c ⟨rawBody, idempotencyKey, next⟩)
    | _ => none

end DiffReview
