import DiffReview.Lib.Transition
import DiffReview.Spec.Worker

/-!
# DiffReview — the running service

One process: its tables, its workers and the transactions they take, in any order. A
worker is where `_process_job` has it: in the cache-wait loop, on the provider path before
or after the review, or in the `except` branch before its transaction. `kill` stops the
process at any point; the next one starts with `recover_abandoned_jobs`.
-/

namespace DiffReview

open Py Transition

/-- A worker between two of its transactions, with the job it claimed. -/
inductive Worker where
  | idle
  | waiting (job : ReviewJob)
  | reviewing (job : ReviewJob)
  | storing (job : ReviewJob) (orderedFull : List Finding)
  | failing (job : ReviewJob) (exc : PyError)

/-- The job a worker is processing. -/
def Worker.job? : Worker → Option ReviewJob
  | .idle => none
  | .waiting job => some job
  | .reviewing job => some job
  | .storing job _ => some job
  | .failing job _ => some job

structure State where
  db : Tables
  up : Bool
  workers : Nat → Worker

def State.init : State := ⟨Tables.empty, true, fun _ => .idle⟩

def State.setWorker (s : State) (w : Nat) (worker : Worker) : State :=
  { s with workers := Function.update s.workers w worker }

inductive Action where
  /-- A request body arrives; `jobId` and `now` are what `uuid4` and the clock give. -/
  | submit (rawBody : List UInt8) (idempotencyKey : Option Str) (jobId : Str) (now : Nat)
  | claim (w : Nat) (jobId : Str)
  /-- One turn of the cache-wait loop. -/
  | poll (w : Nat)
  /-- The provider path up to the ordered findings, with the answers of the model. -/
  | review (w : Nat) (jobId : Str) (answers : Answers)
  | store (w : Nat)
  | fail (w : Nat)
  | kill
  | recover (jobs : List ReviewJob)

def submit (env : Env) (s : State) (rawBody : List UInt8) (idempotencyKey : Option Str)
    (jobId : Str) (now : Nat) : Except Raised (ReviewJob × Tables) := do
  let sub ← parseSubmission env rawBody
  createOrReuseJob s.db sub idempotencyKey jobId now

def claim (env : Env) (s : State) (w : Nat) (jobId : Str) : Option State :=
  match s.workers w, s.db.jobs.get? jobId with
  | .idle, some job =>
    if w < env.settings.maxConcurrentJobs ∧ Claimable s.db job then
      let (job, db) := claimJob s.db job
      some { s.setWorker w (if job.cacheHit then .waiting job else .reviewing job) with db := db }
    else none
  | _, _ => none

def poll (s : State) (w : Nat) (job : ReviewJob) : State :=
  match s.db.jobs.get? job.id, s.db.cache.get? job.requestHash with
  | some current, some cache => match finishFromCache s.db current cache with
    | .error exc => s.setWorker w (.failing job exc)
    | .ok (some db) => { s.setWorker w .idle with db := db }
    | .ok none =>
      if cache.state = .failed then
        s.setWorker w (.failing job
          (.providerError (lit "The source review for this cache entry failed.")))
      else s
  | _, _ => s.setWorker w (.failing job (.providerError (lit "Cached review state is missing.")))

def step (env : Env) (s : State) : Action → Option State
  | .submit rawBody idempotencyKey jobId now =>
    if s.up then
      match submit env s rawBody idempotencyKey jobId now with
      | .ok (_, db) => some { s with db := db }
      | .error _ => some s
    else none
  | .claim w jobId => if s.up then claim env s w jobId else none
  | .poll w => match s.workers w with
    | .waiting job => some (poll s w job)
    | _ => none
  | .review w jobId answers => match s.workers w with
    | .reviewing job =>
      if job.id = jobId then
        match reviewDiff env job.diff job.provider answers with
        | .ok orderedFull => some (s.setWorker w (.storing job orderedFull))
        | .error exc => some (s.setWorker w (.failing job exc))
      else none
    | _ => none
  | .store w => match s.workers w with
    | .storing job orderedFull => match storeReview s.db job orderedFull with
      | .ok db => some { s.setWorker w .idle with db := db }
      | .error exc => some (s.setWorker w (.failing job exc))
    | _ => none
  | .fail w => match s.workers w with
    | .failing job exc => some { s.setWorker w .idle with db := failJob env s.db job exc }
    | _ => none
  -- the workers of the process are gone; what they had committed stays
  | .kill => some ⟨s.db, false, fun _ => .idle⟩
  | .recover jobs =>
    if !s.up && jobs.Perm (runningJobs s.db) then
      some { s with db := recoverAbandonedJobs s.db jobs, up := true }
    else none

/-- The states some run of the service reaches. -/
def Reachable (env : Env) (s : State) : Prop := ∃ acts, Run (step env) State.init acts s

end DiffReview
