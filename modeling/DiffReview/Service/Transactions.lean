import DiffReview.Service.Submissions

/-!
# DiffReview — the transactions are writes

Each transaction of `Spec/Jobs.lean` and `Spec/Worker.lean`, run on the rows it finds in a
ledger, raises nothing and is one of the writes of `Service/Ledger.lean`.
-/

namespace DiffReview

open Py Raise

variable {env : Env} {acts : List Action} {db : Tables} {job : ReviewJob} {entry : CacheEntry}

/-! ## Submissions -/

theorem insertJob_insert (env : Env) {sub : ParsedSubmission} {key : Option Str} {jobId : Str} {now : Nat}
    {db' : Tables} (h : insertJob db sub key jobId now = some (job, db')) :
    Insert env db sub db' := by
  unfold insertJob at h
  obtain ⟨jobs, hjobs, h⟩ := Option.bind_eq_some_iff.mp h
  obtain ⟨cache, hcache, h⟩ := Option.bind_eq_some_iff.mp h
  obtain ⟨idempotency, -, h⟩ := Option.bind_eq_some_iff.mp h
  cases h
  unfold insertEntry at hcache
  cases hget : db.cache.get? sub.requestHash with
  | none =>
    rw [hget] at hjobs hcache
    exact .create idempotency hjobs hcache
  | some entry =>
    rw [hget] at hjobs hcache
    cases hcache
    exact .attach idempotency hjobs hget

/-- A submission answers an existing job, or makes a new one under a key not yet recorded. -/
theorem createOrReuseJob_cases {sub : ParsedSubmission} {key : Option Str} {jobId : Str} {now : Nat}
    {db' : Tables} (h : createOrReuseJob db sub key jobId now = .ok (job, db')) :
    db' = db ∨ (truthyKey key).bind db.idempotency.get? = none ∧
      insertJob db sub (truthyKey key) jobId now = some (job, db') := by
  unfold createOrReuseJob at h
  split at h
  · split at h
    · cases h
    · split at h
      · cases h
      · cases h
        exact .inl rfl
  · next hkey =>
    split at h
    · next result hresult =>
      cases h
      exact .inr ⟨hkey, hresult⟩
    · cases h

theorem submit_cases {s : State} {rawBody : List UInt8} {key : Option Str} {jobId : Str} {now : Nat}
    {db' : Tables} (h : submit env s rawBody key jobId now = .ok (job, db')) :
    ∃ sub, parseSubmission env rawBody = .ok sub ∧ (db' = s.db ∨
      (truthyKey key).bind s.db.idempotency.get? = none ∧
        insertJob s.db sub (truthyKey key) jobId now = some (job, db')) := by
  obtain ⟨sub, hsub, h⟩ := bind_eq_ok.mp h
  exact ⟨sub, hsub, createOrReuseJob_cases h⟩

/-! ## Endings -/

theorem finishJob_eq {limited : List Finding} (hchunks : 1 ≤ job.chunks) :
    finishJob db job limited job.cacheHit = .ok (db.advance (job.finished limited)
      (terminalBlock (limited.map Finding.modelDump) job.usage)) := by
  have husage : Usage.modelValidate ⟨job.inputBytes, job.chunks, job.cacheHit⟩
      = .ok ⟨job.usage, hchunks⟩ := dif_pos hchunks
  unfold finishJob
  rw [husage]
  simp [Tables.advance, terminalBlock, ReviewJob.finished, Usage.modelDump, bind, Except.bind, pure,
    Except.pure]

theorem mapM_modelValidate_modelDump (full : List Finding) :
    (full.map Finding.modelDump).mapM Finding.modelValidate = .ok full := by
  rw [mapM_eq_ok, List.forall₂_map_left_iff]
  exact List.forall₂_same.mpr fun f _ => f.modelValidate_modelDump

/-- A hit ends from a done entry, and waits on any other. -/
theorem finishFromCache_done {full : List Finding} (hchunks : 1 ≤ job.chunks)
    (hhit : job.cacheHit = true) (hdone : entry.state = .done)
    (hfull : entry.findings = some (full.map Finding.modelDump)) :
    finishFromCache db job entry = .ok (some (db.advance
      (job.finished (orderedFindings full job.maxFindings))
      (terminalBlock ((orderedFindings full job.maxFindings).map Finding.modelDump) job.usage))) := by
  unfold finishFromCache
  rw [hdone, hfull]
  simp only [mapM_modelValidate_modelDump]
  rw [← hhit]
  change finishJob db job _ _ >>= _ = _
  rw [finishJob_eq hchunks]
  rfl

theorem finishFromCache_open (hopen : entry.state ≠ .done) :
    finishFromCache db job entry = .ok none := by
  unfold finishFromCache
  split
  · next h _ => exact absurd h hopen
  · rfl

theorem storeReview_eq {full : List Finding} (hjob : db.jobs.get? job.id = some job)
    (hentry : db.cache.get? job.requestHash = some entry) (hchunks : 1 ≤ job.chunks) :
    storeReview db job full = .ok (db.settle (job.finished (full.take job.maxFindings))
      (terminalBlock ((full.take job.maxFindings).map Finding.modelDump) job.usage)
      { entry with findings := some (full.map Finding.modelDump), state := .done }) := by
  unfold storeReview
  rw [hjob, hentry]
  simp only
  rw [finishJob_eq hchunks]
  rfl

theorem failJob_source {exc : PyError} (hjob : db.jobs.get? job.id = some job)
    (hentry : db.cache.get? job.requestHash = some entry) (howner : entry.sourceJobId = job.id) :
    failJob env db job exc = db.settle (job.failedWith (errorMessage env exc))
      [.status .failed (some (errorMessage env exc))] { entry with state := .failed } := by
  simp only [failJob, hjob, hentry, if_pos howner]
  rfl

theorem failJob_hit {exc : PyError} (hjob : db.jobs.get? job.id = some job)
    (hentry : db.cache.get? job.requestHash = some entry) (howner : entry.sourceJobId ≠ job.id) :
    failJob env db job exc = db.advance (job.failedWith (errorMessage env exc))
      [.status .failed (some (errorMessage env exc))] := by
  simp only [failJob, hjob, hentry, if_neg howner]
  rfl

/-! ## The process start -/

theorem get?_requeueJob (hjob : db.jobs.get? job.id = some job) (id : Str) :
    (requeueJob db job).jobs.get? id
      = if id = job.id then some { job with status := .queued } else db.jobs.get? id := by
  have hsame : SameJob job { job with status := .queued } :=
    ⟨rfl, rfl, rfl, rfl, rfl, rfl, rfl, rfl, rfl⟩
  exact Tables.get?_advance [.status .queued none] hjob hsame id

theorem ne_of_nodup_ids {jobs : List ReviewJob} (hnd : ((job :: jobs).map (·.id)).Nodup) :
    ∀ j ∈ jobs, j.id ≠ job.id := by
  intro j hj heq
  have hnew : job.id ∉ jobs.map (·.id) := (List.nodup_cons.mp hnd).1
  exact hnew (heq ▸ List.mem_map_of_mem hj)

/-- The rows after `recover_abandoned_jobs`. -/
theorem get?_recoverAbandonedJobs {jobs : List ReviewJob} (hnd : (jobs.map (·.id)).Nodup)
    (hjobs : ∀ job ∈ jobs, db.jobs.get? job.id = some job) (id : Str) :
    (recoverAbandonedJobs db jobs).jobs.get? id = (db.jobs.get? id).map fun job =>
      if job ∈ jobs then { job with status := .queued } else job := by
  induction jobs generalizing db with
  | nil => simp [recoverAbandonedJobs]
  | cons job jobs ih =>
    obtain ⟨hjob, hrest⟩ := List.forall_mem_cons.mp hjobs
    have hnew := ne_of_nodup_ids hnd
    have hkeep : ∀ j ∈ jobs, (requeueJob db job).jobs.get? j.id = some j := by
      intro j hj
      rw [get?_requeueJob hjob, if_neg (hnew j hj), hrest j hj]
    rw [show recoverAbandonedJobs db (job :: jobs)
      = recoverAbandonedJobs (requeueJob db job) jobs from rfl, ih (List.nodup_cons.mp hnd).2 hkeep,
      get?_requeueJob hjob]
    by_cases hid : id = job.id
    · have hne : ({ job with status := .queued } : ReviewJob) ∉ jobs := fun hmem => hnew _ hmem rfl
      rw [if_pos hid, hid, hjob]
      simp [hne]
    · rw [if_neg hid]
      cases hj : db.jobs.get? id with
      | none => rfl
      | some j =>
        have hne : j ≠ job := by
          rintro rfl
          exact hid (Table.key_of_get? hj).symm
        simp [hne]

theorem recoverAbandonedJobs_progress {jobs : List ReviewJob} (hnd : (jobs.map (·.id)).Nodup)
    (hjobs : ∀ job ∈ jobs, db.jobs.get? job.id = some job ∧ job.status = .running) :
    Relation.ReflTransGen (Progress env acts) db (recoverAbandonedJobs db jobs) := by
  induction jobs generalizing db with
  | nil => exact .refl
  | cons job jobs ih =>
    obtain ⟨⟨hjob, hrunning⟩, hrest⟩ := List.forall_mem_cons.mp hjobs
    refine Relation.ReflTransGen.head (Progress.requeue hjob hrunning)
      (ih (List.nodup_cons.mp hnd).2 fun j hj => ⟨?_, (hrest j hj).2⟩)
    exact (get?_requeueJob hjob j.id).trans
      ((if_neg (ne_of_nodup_ids hnd j hj)).trans (hrest j hj).1)

/-- The jobs the recovery query returns are distinct rows of the table. -/
theorem perm_runningJobs {jobs : List ReviewJob} (hperm : jobs.Perm (runningJobs db)) :
    (jobs.map (·.id)).Nodup ∧
      ∀ job, job ∈ jobs ↔ db.jobs.get? job.id = some job ∧ job.status = .running := by
  refine ⟨?_, fun job => ?_⟩
  · have hsub : ((runningJobs db).map (·.id)).Sublist db.jobs.keys :=
      (List.filter_sublist (p := fun job : ReviewJob => job.status = .running)).map _
    exact (hperm.map _).nodup_iff.mpr (hsub.nodup db.jobs.nodup)
  · rw [hperm.mem_iff, runningJobs, List.mem_filter, Table.get?_eq_some_iff]
    simp

end DiffReview
