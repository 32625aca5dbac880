import DiffReview.Spec.System

/-!
# DiffReview — one lifetime of the process

`worker_loop` of `app/workers/review_worker.py` under `lifespan` of `app/main.py`: the workers
look at the stop event between two jobs only, and the shutdown sets it and waits for all of
them. Between `is_set()` and the end of `_claim_job` a worker may still claim.
-/

namespace DiffReview

open Py Transition

/-- Where a worker is in its loop when it holds no job: before the test of the stop event,
behind it, or out of the loop. -/
inductive LoopPosition where
  | checking
  | claiming
  | returned
deriving DecidableEq, Repr

structure Lifespan where
  state : State
  stopping : Bool
  loop : Nat → LoopPosition

/-- The workers as `lifespan` creates them. -/
def Lifespan.start (s : State) : Lifespan := ⟨s, false, fun _ => .checking⟩

inductive LifespanAction where
  /-- A step of the service; a claim is made behind the test. -/
  | service (a : Action)
  /-- `while not stop_event.is_set()` -/
  | check (w : Nat)
  /-- `_claim_job` finds nothing; the pause that follows ends at the test. -/
  | nothing (w : Nat)
  /-- `stop_event.set()` -/
  | stop

def Lifespan.setLoop (x : Lifespan) (w : Nat) (position : LoopPosition) : Lifespan :=
  { x with loop := Function.update x.loop w position }

def NoneQueued (db : Tables) : Prop := ∀ job ∈ db.jobs.rows, job.status ≠ .queued

instance (db : Tables) : Decidable (NoneQueued db) :=
  inferInstanceAs (Decidable (∀ job ∈ db.jobs.rows, job.status ≠ .queued))

/-- A worker task that is between two jobs. -/
def Lifespan.between (env : Env) (x : Lifespan) (w : Nat) : Bool :=
  w < env.settings.maxConcurrentJobs && match x.state.workers w with
    | .idle => true
    | _ => false

def lifespanStep (env : Env) (x : Lifespan) : LifespanAction → Option Lifespan
  -- the process is neither stopped otherwise nor started again
  | .service .kill => none
  | .service (.recover _) => none
  | .service (.claim w jobId) => match x.loop w with
    | .claiming => (step env x.state (.claim w jobId)).map fun s =>
      -- `_process_job` returns to the head of the loop
      { x.setLoop w .checking with state := s }
    | _ => none
  | .service a => (step env x.state a).map fun s => { x with state := s }
  | .check w => match x.between env w, x.loop w with
    | true, .checking => some (x.setLoop w (if x.stopping then .returned else .claiming))
    | _, _ => none
  | .nothing w => match x.between env w, x.loop w with
    | true, .claiming => if NoneQueued x.state.db then some (x.setLoop w .checking) else none
    | _, _ => none
  | .stop => some { x with stopping := true }

end DiffReview
