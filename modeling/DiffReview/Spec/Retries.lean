import DiffReview.Spec.Calls

/-!
# DiffReview — a concurrent identical retry

Two calls of `create_or_reuse_job` for one submission and one key, in two processes on one
database. Here a unique violation is raised by the flush that sends the insert: rows that
were sent hold their keys until the transaction ends, and a flush that needs one of these
keys waits for it.
-/

namespace DiffReview

open Py

/-- Two rows, one of each transaction, with the same key. -/
def sharesKey {κ ρ : Type} [DecidableEq κ] (key : ρ → κ) : Option ρ → Option ρ → Bool
  | some r, some r' => key r = key r'
  | _, _ => false

/-- A unique constraint is between the rows of the two transactions. -/
def Added.clashes (rows rows' : Added) : Bool :=
  sharesKey ReviewJob.id (some rows.job) (some rows'.job)
    || sharesKey CacheEntry.requestHash rows.entry rows'.entry
    || sharesKey IdempotencyRecord.key rows.record rows'.record
    || sharesKey (fun e : JobEvent => (e.jobId, e.sequence)) rows.event rows'.event

/-- The rows an open transaction has sent. -/
def Await.sent : Await → Option Added
  | .selectSequence rows => some ⟨rows.job, none, none, none⟩
  | .flushEvent rows => some { rows with event := none }
  | .commit rows => some rows
  | _ => none

/-- The rows of the session, for a step that flushes. -/
def Await.flushes : Await → Option Added
  | .flushJob job => some ⟨job, none, none, none⟩
  | .selectSequence rows => some rows
  | .flushEvent rows => some rows
  | _ => none

def Await.waitsFor (await : Await) : CallState → Bool
  | .awaiting _ other => match await.flushes, other.sent with
    | some rows, some rows' => rows.clashes rows'
    | _, _ => false
  | _ => false

/-- The committed tables and the two calls. -/
structure Retries where
  db : Tables
  call : Bool → CallState

/-- Both calls before their first database step. -/
def Retries.start (db : Tables) (sub : ParsedSubmission) (idempotencyKey : Option Str) : Retries where
  db := db
  call _ := match truthyKey idempotencyKey with
    | some key => .awaiting sub (.getRecord key)
    | none => .awaiting sub .getEntry

/-- The next database step of the call `c`. -/
def retryStep (idempotencyKey : Option Str) (jobId : Bool → Str) (now : Bool → Nat) (x : Retries)
    (c : Bool) : Option Retries :=
  match x.call c with
  | .awaiting sub await =>
    if await.waitsFor (x.call !c) then none
    else some {
      db := await.write x.db
      call := Function.update x.call c
        (await.next x.db sub (truthyKey idempotencyKey) (jobId c) (now c)) }
  | _ => none

end DiffReview
