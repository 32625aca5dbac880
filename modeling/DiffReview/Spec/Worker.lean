import DiffReview.Spec.Jobs

/-!
# DiffReview — the review worker

`app/workers/review_worker.py`: the ordering of the findings and the transactions of a
worker, each as a function of the tables. `recover_abandoned_jobs` of
`app/services/jobs.py`, the transaction of the process start, is at the end.
-/

namespace DiffReview

open Py

/-! ## Ordering -/

/-- The sort key `(finding.path, finding.line, finding.rule_id)`. -/
def Finding.sortKey (f : Finding) : Str ×ₗ Nat ×ₗ Str := toLex (f.path, toLex (f.line, f.ruleId))

/-- `{finding.id: finding for finding in findings}` -/
def dedupById (findings : List Finding) : Table fun f : Finding => f.id := Table.fromRows findings

def orderedFindings (findings : List Finding) (maximum : Nat) : List Finding :=
  ((dedupById findings).rows.insertionSort fun f g => f.sortKey ≤ g.sortKey).take maximum

/-! ## The provider path -/

def providerReview (env : Env) (provider : ProviderName) (answers : Answers)
    (chunks : List ReviewChunk) : Except PyError (List Finding) :=
  match provider with
  | .mock => mockReview env.patterns chunks
  | .llm => llmReview env.llm answers chunks

/-- `ordered_full` of `_process_job`: the job's diff parsed, chunked, reviewed and ordered. -/
def reviewDiff (env : Env) (diff : Str) (provider : ProviderName) (answers : Answers) :
    Except PyError (List Finding) := do
  let files ← parseUnifiedDiff diff
  let chunks ← chunkFileDiffs files env.settings.chunkBytes
  let findings ← providerReview env provider answers chunks
  return orderedFindings findings 10000000

/-! ## Transactions -/

/-- `_claim_job` takes a queued job that no other queued job was created before. -/
def Claimable (db : Tables) (job : ReviewJob) : Prop :=
  job.status = .queued ∧
    ∀ other ∈ db.jobs.rows, other.status = .queued → job.createdAt ≤ other.createdAt

instance (db : Tables) (job : ReviewJob) : Decidable (Claimable db job) :=
  inferInstanceAs (Decidable (_ ∧ _))

def claimJob (db : Tables) (job : ReviewJob) : ReviewJob × Tables :=
  let job := { job with status := .running }
  (job, { db with
    jobs := db.jobs.replace job
    events := appendEvent db.events job.id (.status .running none) })

/-- The rows both successful endings write for the job: its findings, its status and the
terminal block of events. -/
def finishJob (db : Tables) (job : ReviewJob) (limited : List Finding) (cacheHit : Bool) :
    Except PyError Tables := do
  let usage ← Usage.modelValidate ⟨job.inputBytes, job.chunks, cacheHit⟩
  let items := limited.map Finding.modelDump
  return { db with
    jobs := db.jobs.replace { job with findings := some items, status := .done }
    events := appendEvents db.events job.id
      (items.map .finding ++ [.status .done none, .done limited.length usage.modelDump]) }

/-- `_finish_from_cache`; `none` is its `False`, which leaves the tables as they are. -/
def finishFromCache (db : Tables) (job : ReviewJob) (cache : CacheEntry) :
    Except PyError (Option Tables) :=
  match cache.state, cache.findings with
  | .done, some items => do
    let findings ← items.mapM Finding.modelValidate
    return some (← finishJob db job (orderedFindings findings job.maxFindings) true)
  | _, _ => .ok none

/-- The last transaction of the provider path of `_process_job`. -/
def storeReview (db : Tables) (job : ReviewJob) (orderedFull : List Finding) :
    Except PyError Tables :=
  match db.jobs.get? job.id, db.cache.get? job.requestHash with
  | some current, some cache => do
    let entry := { cache with findings := some (orderedFull.map Finding.modelDump), state := .done }
    let db ← finishJob db current (orderedFull.take job.maxFindings) current.cacheHit
    return { db with cache := db.cache.replace entry }
  | _, _ => .error (.providerError (lit "Review persistence state is missing."))

/-- `str(exc)[:1000] or "Review processing failed."` -/
def errorMessage (env : Env) (exc : PyError) : Str :=
  let message := (exc.str env.foreignText).take 1000
  if message = [] then lit "Review processing failed." else message

/-- The transaction of the `except` branch of `_process_job`. -/
def failJob (env : Env) (db : Tables) (job : ReviewJob) (exc : PyError) : Tables :=
  let message := errorMessage env exc
  let failed := match db.jobs.get? job.id with
    | none => db
    | some current => { db with
        jobs := db.jobs.replace { current with
          status := .failed, errorCode := some (lit "internal"), errorMessage := some message }
        events := appendEvent db.events current.id (.status .failed (some message)) }
  match db.cache.get? job.requestHash with
  | some cache =>
    if cache.sourceJobId = job.id then
      { failed with cache := failed.cache.replace { cache with state := .failed } }
    else failed
  | none => failed

/-- One turn of the loop of `recover_abandoned_jobs`. -/
def requeueJob (db : Tables) (job : ReviewJob) : Tables := { db with
  jobs := db.jobs.replace { job with status := .queued }
  events := appendEvent db.events job.id (.status .queued none) }

def runningJobs (db : Tables) : List ReviewJob := db.jobs.rows.filter fun job => job.status = .running

/-- `recover_abandoned_jobs`, over the running jobs in the order the query returns them. -/
def recoverAbandonedJobs (db : Tables) (jobs : List ReviewJob) : Tables := jobs.foldl requeueJob db

end DiffReview
