import DiffReview.Lib.Table
import DiffReview.Spec.Schemas

/-!
# DiffReview — tables and events

`app/db/models.py` and `app/services/events.py`. A table is keyed by its primary key; the
event table is the list of its rows in the order of their `id`. The timestamps other than
`created_at` of a job are never read and are left out.
-/

namespace DiffReview

open Py

inductive JobStatusValue where
  | queued
  | running
  | done
  | failed
deriving DecidableEq, Repr

structure ReviewJob where
  id : Str
  status : JobStatusValue
  diff : Str
  provider : ProviderName
  maxFindings : Nat
  requestHash : Str
  inputBytes : Nat
  chunks : Nat
  cacheHit : Bool
  findings : Option (List FindingDict)
  errorCode : Option Str
  errorMessage : Option Str
  createdAt : Nat
deriving DecidableEq, Repr

structure IdempotencyRecord where
  key : Str
  bodyHash : Str
  jobId : Str
deriving DecidableEq, Repr

inductive CacheState where
  | running
  | done
  | failed
deriving DecidableEq, Repr

structure CacheEntry where
  requestHash : Str
  sourceJobId : Str
  state : CacheState
  findings : Option (List FindingDict)
deriving DecidableEq, Repr

/-- The `event_type` of an event together with its `payload`. -/
inductive EventBody where
  | status (status : JobStatusValue) (error : Option Str)
  | finding (item : FindingDict)
  | done (total : Nat) (usage : UsageDict)
deriving DecidableEq, Repr

structure JobEvent where
  jobId : Str
  sequence : Nat
  body : EventBody
deriving DecidableEq, Repr

structure Tables where
  jobs : Table ReviewJob.id
  idempotency : Table IdempotencyRecord.key
  cache : Table CacheEntry.requestHash
  events : List JobEvent

def Tables.empty : Tables := ⟨Table.empty, Table.empty, Table.empty, []⟩

/-- The committed events of one job. -/
def eventsOf (events : List JobEvent) (jobId : Str) : List JobEvent :=
  events.filter fun e => e.jobId = jobId

/-- `coalesce(max(sequence), 0)` over the events of the job. -/
def maxSequence (events : List JobEvent) (jobId : Str) : Nat :=
  ((eventsOf events jobId).map (·.sequence)).foldl max 0

def appendEvent (events : List JobEvent) (jobId : Str) (body : EventBody) : List JobEvent :=
  events ++ [⟨jobId, maxSequence events jobId + 1, body⟩]

def appendEvents (events : List JobEvent) (jobId : Str) (bodies : List EventBody) :
    List JobEvent :=
  bodies.foldl (fun events body => appendEvent events jobId body) events

def listEventsAfter (events : List JobEvent) (jobId : Str) (sequence : Nat) : List JobEvent :=
  ((eventsOf events jobId).filter fun e => sequence < e.sequence).insertionSort
    fun a b => a.sequence ≤ b.sequence

end DiffReview
