import DiffReview.Service.Lifecycle
import DiffReview.Spec.System

/-!
# DiffReview — the ledger

The tables seen as a ledger of jobs and cache entries. `Write` says, once for all, what a
transaction of the service can do to them and what it may rely on; the invariants of the
ledger are derived from it.
-/

namespace DiffReview

open Py

/-! ## Writes -/

/-- A review of `job` that the run has made, with its result. -/
def Reviewed (env : Env) (acts : List Action) (job : ReviewJob)
    (result : Except PyError (List Finding)) : Prop :=
  ∃ w answers, Action.review w job.id answers ∈ acts ∧
    reviewDiff env job.diff job.provider answers = result

theorem Reviewed.mono {env : Env} {acts acts' : List Action} {job : ReviewJob}
    {result : Except PyError (List Finding)} (hacts : ∀ a ∈ acts, a ∈ acts')
    (h : Reviewed env acts job result) : Reviewed env acts' job result := by
  obtain ⟨w, answers, hmem, hresult⟩ := h
  exact ⟨w, answers, hacts _ hmem, hresult⟩

theorem Reviewed.same {env : Env} {acts : List Action} {job job' : ReviewJob}
    {result : Except PyError (List Finding)} (hsame : SameJob job job')
    (h : Reviewed env acts job result) : Reviewed env acts job' result := by
  obtain ⟨w, answers, hmem, hresult⟩ := h
  exact ⟨w, answers, hsame.id ▸ hmem, hsame.diff ▸ hsame.provider ▸ hresult⟩

/-- A new row for a job, with its log. -/
def Tables.advance (db : Tables) (job : ReviewJob) (bodies : List EventBody) : Tables := { db with
  jobs := db.jobs.replace job
  events := appendEvents db.events job.id bodies }

/-- A new row for a job and a new row for its cache entry. -/
def Tables.settle (db : Tables) (job : ReviewJob) (bodies : List EventBody) (entry : CacheEntry) :
    Tables := { db.advance job bodies with cache := db.cache.replace entry }

/-- What a submission does to the tables when it makes a new job. -/
inductive Insert (env : Env) (db : Tables) (sub : ParsedSubmission) : Tables → Prop where
  /-- The first job of a request hash, with its entry. -/
  | create {jobId : Str} {now : Nat} {jobs : Table ReviewJob.id}
      {cache : Table CacheEntry.requestHash} (idempotency : Table IdempotencyRecord.key)
      (hjobs : db.jobs.insert? (newJob sub jobId false now) = some jobs)
      (hcache : db.cache.insert? ⟨sub.requestHash, jobId, .running, none⟩ = some cache) :
      Insert env db sub
        ⟨jobs, idempotency, cache, appendEvents db.events jobId [.status .queued none]⟩
  /-- A later job of a request hash. -/
  | attach {jobId : Str} {now : Nat} {jobs : Table ReviewJob.id} {entry : CacheEntry}
      (idempotency : Table IdempotencyRecord.key)
      (hjobs : db.jobs.insert? (newJob sub jobId true now) = some jobs)
      (hcache : db.cache.get? sub.requestHash = some entry) :
      Insert env db sub
        ⟨jobs, idempotency, db.cache, appendEvents db.events jobId [.status .queued none]⟩

/-- What the workers and the process start do to the tables. -/
inductive Progress (env : Env) (acts : List Action) (db : Tables) : Tables → Prop where
  | start {job : ReviewJob} (hjob : db.jobs.get? job.id = some job) (hqueued : job.status = .queued) :
      Progress env acts db
        (db.advance { job with status := .running } [.status .running none])
  | requeue {job : ReviewJob} (hjob : db.jobs.get? job.id = some job)
      (hrunning : job.status = .running) :
      Progress env acts db
        (db.advance { job with status := .queued } [.status .queued none])
  | store {job : ReviewJob} {entry : CacheEntry} {full : List Finding}
      (hjob : db.jobs.get? job.id = some job) (hrunning : job.status = .running)
      (hsource : job.cacheHit = false) (hentry : db.cache.get? job.requestHash = some entry)
      (howner : entry.sourceJobId = job.id) (hopen : entry.state = .running)
      (hfull : Reviewed env acts job (.ok full)) :
      Progress env acts db (db.settle (job.finished (full.take job.maxFindings))
        (terminalBlock ((full.take job.maxFindings).map Finding.modelDump) job.usage)
        { entry with findings := some (full.map Finding.modelDump), state := .done })
  | copy {job : ReviewJob} {entry : CacheEntry} {full : List Finding}
      (hjob : db.jobs.get? job.id = some job) (hrunning : job.status = .running)
      (hhit : job.cacheHit = true) (hentry : db.cache.get? job.requestHash = some entry)
      (hdone : entry.state = .done) (hfull : entry.findings = some (full.map Finding.modelDump)) :
      Progress env acts db (db.advance (job.finished (orderedFindings full job.maxFindings))
        (terminalBlock ((orderedFindings full job.maxFindings).map Finding.modelDump) job.usage))
  | failSource {job : ReviewJob} {entry : CacheEntry} {exc : PyError}
      (hjob : db.jobs.get? job.id = some job) (hrunning : job.status = .running)
      (hsource : job.cacheHit = false) (hentry : db.cache.get? job.requestHash = some entry)
      (howner : entry.sourceJobId = job.id) (hopen : entry.state = .running)
      (hexc : Reviewed env acts job (.error exc)) :
      Progress env acts db (db.settle (job.failedWith (errorMessage env exc))
        [.status .failed (some (errorMessage env exc))] { entry with state := .failed })
  | failHit {job : ReviewJob} {entry : CacheEntry} (exc : PyError)
      (hjob : db.jobs.get? job.id = some job) (hrunning : job.status = .running)
      (hhit : job.cacheHit = true) (hentry : db.cache.get? job.requestHash = some entry)
      (hfailed : entry.state = .failed) :
      Progress env acts db (db.advance (job.failedWith (errorMessage env exc))
        [.status .failed (some (errorMessage env exc))])

inductive Write (env : Env) (acts : List Action) (db db' : Tables) : Prop where
  | insert {rawBody : List UInt8} {sub : ParsedSubmission}
      (hparse : parseSubmission env rawBody = .ok sub) (h : Insert env db sub db')
  | progress (h : Progress env acts db db')

theorem Progress.mono {env : Env} {acts acts' : List Action} {db db' : Tables}
    (hacts : ∀ a ∈ acts, a ∈ acts') (h : Progress env acts db db') : Progress env acts' db db' := by
  cases h with
  | start hjob hqueued => exact .start hjob hqueued
  | requeue hjob hrunning => exact .requeue hjob hrunning
  | store hjob hrunning hsource hentry howner hopen hfull =>
    exact .store hjob hrunning hsource hentry howner hopen (hfull.mono hacts)
  | copy hjob hrunning hhit hentry hdone hfull => exact .copy hjob hrunning hhit hentry hdone hfull
  | failSource hjob hrunning hsource hentry howner hopen hexc =>
    exact .failSource hjob hrunning hsource hentry howner hopen (hexc.mono hacts)
  | failHit exc hjob hrunning hhit hentry hfailed =>
    exact .failHit exc hjob hrunning hhit hentry hfailed

theorem Write.mono {env : Env} {acts acts' : List Action} {db db' : Tables}
    (hacts : ∀ a ∈ acts, a ∈ acts') (h : Write env acts db db') : Write env acts' db db' := by
  cases h with
  | insert hparse h => exact .insert hparse h
  | progress h => exact .progress (h.mono hacts)

section Views

variable {env : Env} {acts : List Action} {db db' : Tables}

/-- A submission seen by the job rows and the events alone. -/
theorem Insert.jobs_eq {sub : ParsedSubmission} (h : Insert env db sub db') :
    ∃ jobId hit now, db.jobs.insert? (newJob sub jobId hit now) = some db'.jobs ∧
      db'.events = appendEvents db.events jobId [.status .queued none] := by
  cases h with
  | create _ hjobs => exact ⟨_, _, _, hjobs, rfl⟩
  | attach _ hjobs => exact ⟨_, _, _, hjobs, rfl⟩

/-- Progress seen by the job rows and the events alone. -/
theorem Progress.jobs_eq (h : Progress env acts db db') :
    ∃ job job' bodies, db.jobs.get? job.id = some job ∧ Advance job job' bodies ∧
      db'.jobs = db.jobs.replace job' ∧ db'.events = appendEvents db.events job'.id bodies := by
  cases h with
  | start hjob hqueued => exact ⟨_, _, _, hjob, .claim hqueued, rfl, rfl⟩
  | requeue hjob hrunning => exact ⟨_, _, _, hjob, .requeue hrunning, rfl, rfl⟩
  | store hjob hrunning => exact ⟨_, _, _, hjob, .finish hrunning _, rfl, rfl⟩
  | copy hjob hrunning => exact ⟨_, _, _, hjob, .finish hrunning _, rfl, rfl⟩
  | failSource hjob hrunning => exact ⟨_, _, _, hjob, .fail hrunning _, rfl, rfl⟩
  | failHit _ hjob hrunning => exact ⟨_, _, _, hjob, .fail hrunning _, rfl, rfl⟩

theorem Write.jobs_cases (h : Write env acts db db') :
    (∃ rawBody sub jobId hit now, parseSubmission env rawBody = .ok sub ∧
        db.jobs.insert? (newJob sub jobId hit now) = some db'.jobs ∧
        db'.events = appendEvents db.events jobId [.status .queued none]) ∨
    (∃ job job' bodies, db.jobs.get? job.id = some job ∧ Advance job job' bodies ∧
        db'.jobs = db.jobs.replace job' ∧ db'.events = appendEvents db.events job'.id bodies) := by
  cases h with
  | insert hparse h =>
    obtain ⟨jobId, hit, now, hjobs, hevents⟩ := h.jobs_eq
    exact .inl ⟨_, _, jobId, hit, now, hparse, hjobs, hevents⟩
  | progress h => exact .inr h.jobs_eq

/-- A job that has ended, and its events, are not written again. -/
theorem Write.job_ended (h : Write env acts db db') {id : Str} {job : ReviewJob}
    (hjob : db.jobs.get? id = some job) (hended : job.status = .done ∨ job.status = .failed) :
    db'.jobs.get? id = some job ∧ eventsOf db'.events id = eventsOf db.events id := by
  rcases h.jobs_cases with ⟨raw, sub, jobId, hit, now, -, hjobs, hevents⟩
    | ⟨j, j', bodies, hj, hadv, hjobs, hevents⟩
  · have hne : id ≠ jobId := by
      rintro rfl
      exact nomatch (Table.get?_of_insert? hjobs).symm.trans hjob
    rw [hevents]
    exact ⟨Table.get?_insert?_of_get? hjobs hjob, eventsOf_appendEvents_ne _ hne⟩
  · have hne : id ≠ j'.id := by
      rw [hadv.same.id]
      rintro rfl
      cases hj.symm.trans hjob
      rcases hadv.not_ended with h | h <;> rcases hended with h' | h' <;>
        exact nomatch h.symm.trans h'
    rw [hjobs, hevents]
    exact ⟨(Table.get?_replace_ne _ _ hne).trans hjob, eventsOf_appendEvents_ne _ hne⟩

/-- An entry that is done or failed is not written again. -/
theorem Write.entry_closed (h : Write env acts db db') {hash : Str} {entry : CacheEntry}
    (hentry : db.cache.get? hash = some entry) (hclosed : entry.state ≠ .running) :
    db'.cache.get? hash = some entry := by
  have hsettle : ∀ {e e' : CacheEntry} {job : ReviewJob}, db.cache.get? job.requestHash = some e →
      e.state = .running → e'.requestHash = e.requestHash →
      (db.cache.replace e').get? hash = some entry := by
    intro e e' job he hopen hkey
    have hne : hash ≠ e'.requestHash := by
      rintro rfl
      rw [hkey, Table.key_of_get? he, he] at hentry
      exact hclosed (Option.some.inj hentry ▸ hopen)
    rw [Table.get?_replace_ne _ _ hne, hentry]
  cases h with
  | insert _ h =>
    cases h with
    | create _ _ hcache => exact Table.get?_insert?_of_get? hcache hentry
    | attach => exact hentry
  | progress h =>
    cases h with
    | store _ _ _ he _ hopen => exact hsettle he hopen rfl
    | failSource _ _ _ he _ hopen => exact hsettle he hopen rfl
    | start => exact hentry
    | requeue => exact hentry
    | copy => exact hentry
    | failHit => exact hentry

end Views

end DiffReview
