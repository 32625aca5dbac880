import DiffReview.Service.Progress

/-!
# DiffReview — every job ends

A live service whose workers cannot move has ended all its jobs (`quiescent_iff`), its
workers make a bounded number of transactions (`bounded_work`), and where each worker that
can move does so some time, every job ends, however many are submitted behind it
(`every_job_ends`). The rank of a job counts the work on it and on the jobs created before
it, which is all that first come, first served puts in front of it.
-/

namespace DiffReview

open Py Raise Transition

variable {env : Env} {acts : List Action} {s s' : State} {a : Action} {w c : Nat}

def ReviewJob.Ended (job : ReviewJob) : Prop := job.status = .done ∨ job.status = .failed

/-! ## Who can help -/

/-- Worker `w` can move, for a job created no later than `c`. -/
inductive Helps (env : Env) (c w : Nat) (s : State) : Prop where
  | path {job : ReviewJob} (hworker : (s.workers w).onProviderPath job) (hc : job.createdAt ≤ c)
  | closed {hit : ReviewJob} {entry : CacheEntry} (hworker : s.workers w = .waiting hit)
      (hc : hit.createdAt ≤ c) (hentry : s.db.cache.get? hit.requestHash = some entry)
      (hclosed : entry.state ≠ .running)
  | claim {job : ReviewJob} (hw : w < env.settings.maxConcurrentJobs)
      (hidle : ∀ v, s.workers v = .idle) (hjob : s.db.jobs.get? job.id = some job)
      (hqueued : job.status = .queued) (hc : job.createdAt ≤ c)

theorem Helps.enabled (h : Helps env c w s) (hledger : Ledger env acts s.db)
    (hhold : Holding env acts s) (hup : s.up = true) : Enabled (step env) WorkerMoves w s := by
  cases h with
  | path hworker => exact enabled_of_onProviderPath hworker
  | closed hworker _ hentry hclosed => exact enabled_of_closed hledger hhold hworker hentry hclosed
  | claim hw hidle hjob hqueued =>
    exact enabled_of_queued hup (hidle w) hw (Table.get?_eq_some_iff.mp hjob).1 hqueued

theorem onProviderPath_of_job {worker : Worker} {job : ReviewJob} (h : worker.job? = some job) :
    worker = .waiting job ∨ worker.onProviderPath job := by
  cases worker with
  | idle => cases h
  | waiting =>
    cases h
    exact .inl rfl
  | reviewing =>
    cases h
    exact .inr (.inl rfl)
  | storing _ full =>
    cases h
    exact .inr (.inr (.inl ⟨full, rfl⟩))
  | failing _ exc =>
    cases h
    exact .inr (.inr (.inr ⟨exc, rfl⟩))

theorem job?_of_onProviderPath {worker : Worker} {job : ReviewJob} (h : worker.onProviderPath job) :
    worker.job? = some job := by
  rcases h with rfl | ⟨_, rfl⟩ | ⟨_, rfl⟩ <;> rfl

/-- The job of a worker moves on, or that of a worker it waits for. -/
theorem helps_of_held {job : ReviewJob} (hrun : Run (step env) State.init acts s)
    (horder : CreatedInOrder s.db) (hheld : (s.workers w).job? = some job)
    (hc : job.createdAt ≤ c) : ∃ v, Helps env c v s := by
  obtain ⟨hledger, hhold⟩ := run_invariants hrun
  obtain ⟨hjob, -, -⟩ := hhold.held hheld
  rcases onProviderPath_of_job hheld with hwait | hpath
  · -- a waiting worker moves once its entry is closed; until then the source of the entry does
    obtain ⟨entry, hentry, -⟩ := hledger.coherent.entry hjob
    by_cases hopen : entry.state = .running
    · obtain ⟨src, v, hsrc, -, hsource, -, -, hpath⟩ := waiting_source hrun horder hwait hentry hopen
      obtain ⟨src', hsrc', howns⟩ := hledger.coherent.owner hentry
      cases hsrc.symm.trans hsrc'
      have hcache : job.cacheHit = true := by
        have hstage := hhold.stage w
        rw [hwait] at hstage
        cases hstage with
        | waiting hcache => exact hcache
      have hhash : src.requestHash = job.requestHash :=
        howns.requestHash.trans (Table.key_of_get? hentry)
      have hid : src.id = entry.sourceJobId := Table.key_of_get? hsrc
      -- the source is older, so the waits have an end
      have hlt := hledger.coherent.source_lt horder hjob (hid ▸ hsrc) hhash hcache hsource
      exact ⟨v, .path hpath (hlt.le.trans hc)⟩
    · exact ⟨w, .closed hwait hc hentry hopen⟩
  · exact ⟨w, .path hpath hc⟩

/-- While a job has not ended, some worker can move for it or for an older one. -/
theorem exists_helps {id : Str} {job : ReviewJob} (hrun : Run (step env) State.init acts s)
    (hworkers : 1 ≤ env.settings.maxConcurrentJobs) (horder : CreatedInOrder s.db) (hup : s.up = true)
    (hjob : s.db.jobs.get? id = some job) (hopen : ¬job.Ended) (hc : job.createdAt ≤ c) :
    ∃ v, Helps env c v s := by
  obtain ⟨hledger, hhold⟩ := run_invariants hrun
  have hid : job.id = id := Table.key_of_get? hjob
  subst hid
  cases hstatus : job.status with
  | done => exact absurd (.inl hstatus) hopen
  | failed => exact absurd (.inr hstatus) hopen
  | running =>
    obtain ⟨v, hv⟩ := hhold.running hup hjob hstatus
    exact helps_of_held hrun horder hv hc
  | queued =>
    by_cases hidle : ∀ v, s.workers v = .idle
    · exact ⟨0, .claim hworkers hidle hjob hstatus hc⟩
    · -- a busy worker holds a job that was created before
      obtain ⟨v, hv⟩ := not_forall.mp hidle
      obtain ⟨older, hheld⟩ := Worker.exists_job hv
      obtain ⟨holder, hrunning, -⟩ := hhold.held hheld
      have hlt := run_claimedInOrder hrun horder (Table.get?_eq_some_iff.mp holder).1
        (Table.get?_eq_some_iff.mp hjob).1 hrunning hstatus
      exact helps_of_held hrun horder hheld (hlt.le.trans hc)

/-! ## Quiescence -/

theorem not_enabled_of_ended (hledger : Ledger env acts s.db) (hhold : Holding env acts s)
    (hended : ∀ job ∈ s.db.jobs.rows, job.Ended) (w : Nat) : ¬Enabled (step env) WorkerMoves w s := by
  rintro ⟨a, s', hstep, hw, hmoved⟩
  rcases step_rank hledger hhold hstep hw with rfl | ⟨-, job, hheld | ⟨-, hjob, hclaim⟩, -⟩
  · exact hmoved rfl
  · obtain ⟨hjob, hrunning, -⟩ := hhold.held hheld
    rcases hended job (Table.get?_eq_some_iff.mp hjob).1 with h | h <;> cases h.symm.trans hrunning
  · rcases hended job (Table.get?_eq_some_iff.mp hjob).1 with h | h <;> cases h.symm.trans hclaim.1

/-- A submission changes nothing or adds a queued row. -/
theorem submit_turn {rawBody : List UInt8} {key : Option Str} {jobId : Str} {now : Nat}
    (h : step env s (.submit rawBody key jobId now) = some s') :
    s' = s ∨ ∃ job db', s.db.jobs.insert? job = some db'.jobs ∧ job.status = .queued ∧
      s' = { s with db := db' } := by
  simp only [step] at h
  split at h
  · split at h
    · next job db hsub =>
      cases h
      obtain ⟨sub, -, rfl | ⟨-, hinsert⟩⟩ := submit_cases hsub
      · exact .inl rfl
      · obtain ⟨id, hit, created, hjobs, -⟩ := (insertJob_insert env hinsert).jobs_eq
        exact .inr ⟨_, db, hjobs, rfl, rfl⟩
    · cases h
      exact .inl rfl
  · cases h

/-- The work on jobs created no later than `c`. -/
def rankTo (env : Env) (c : Nat) (s : State) : Nat :=
  rank (fun created => created ≤ c) env.settings.maxConcurrentJobs s

theorem rankTo_insert {job : ReviewJob} {db' : Tables} (hjobs : s.db.jobs.insert? job = some db'.jobs)
    (hlate : c < job.createdAt) : rankTo env c { s with db := db' } = rankTo env c s := by
  have hnone : (decide (job.status = .queued) && decide (job.createdAt ≤ c)) = false := by
    rw [decide_eq_false (Nat.not_le.mpr hlate), Bool.and_false]
  unfold rankTo rank queuedFor
  rw [Table.rows_insert? hjobs, List.countP_append, List.countP_singleton, hnone]
  rfl

/-- What a helping worker has to do stays as it is while nobody works on the older jobs. -/
theorem Helps.keep (h : Helps env c w s) (hwrites : Writes env acts s.db s'.db)
    (hworker : s'.workers w = s.workers w)
    (hidle : (∀ v, s.workers v = .idle) → s'.workers = s.workers ∧
      ∀ {id job}, s.db.jobs.get? id = some job → s'.db.jobs.get? id = some job) :
    Helps env c w s' := by
  cases h with
  | path hpath hc => exact .path (hworker ▸ hpath) hc
  | closed hwait hc hentry hclosed =>
    exact .closed (hworker.trans hwait) hc (hwrites.entry_closed hentry hclosed) hclosed
  | claim hw hall hjob hqueued hc =>
    obtain ⟨hworkers, hrows⟩ := hidle hall
    exact .claim hw (fun v => hworkers ▸ hall v) (hrows hjob) hqueued hc

/-- The job a helping worker works on is old enough. -/
theorem Helps.worksOn_le (h : Helps env c w s) {v : Nat} {job : ReviewJob} (hworks : WorksOn s v job)
    (hv : v = w ∨ ∀ u, s.workers u = .idle) : job.createdAt ≤ c := by
  have hclaimed : ∀ {older}, s.db.jobs.get? older.id = some older → older.status = .queued →
      older.createdAt ≤ c → Claimable s.db job → job.createdAt ≤ c := by
    intro older hjob hqueued hc hclaim
    exact (hclaim.2 older (Table.get?_eq_some_iff.mp hjob).1 hqueued).trans hc
  have hbusy : ∀ {held}, (s.workers w).job? = some held → held.createdAt ≤ c → job.createdAt ≤ c := by
    intro held hheld hc
    have hwork : s.workers w ≠ .idle := by
      intro hidle
      rw [hidle] at hheld
      cases hheld
    rcases hv with rfl | hall
    · rcases hworks with hjob | ⟨hidle, -⟩
      · cases hjob.symm.trans hheld
        exact hc
      · exact absurd hidle hwork
    · exact absurd (hall w) hwork
  cases h with
  | path hpath hc => exact hbusy (job?_of_onProviderPath hpath) hc
  | closed hwait hc => exact hbusy (by rw [hwait]; rfl) hc
  | claim hw hall hjob hqueued hc =>
    rcases hworks with hheld | ⟨-, -, hclaim⟩
    · rw [hall v] at hheld
      cases hheld
    · exact hclaimed hjob hqueued hc hclaim

theorem Helps.step (h : Helps env c w s) (hledger : Ledger env acts s.db)
    (hhold : Holding env acts s) (hstep : step env s a = some s') (hup : s.up = true)
    (hup' : s'.up = true) (horder' : CreatedInOrder s'.db)
    (hc : ∃ j ∈ s.db.jobs.rows, j.createdAt = c) :
    rankTo env c s' < rankTo env c s ∨ rankTo env c s' = rankTo env c s ∧ Helps env c w s' ∧
      ¬WorkerMoves w s a s' := by
  have hwrites := (step_effect hledger hhold hstep).writes
  cases hv : a.worker? with
  | some v =>
    rcases step_rank hledger hhold hstep hv with rfl | ⟨-, job, hworks, hrank⟩
    · exact .inr ⟨rfl, h, fun hmoves => hmoves.2 rfl⟩
    · -- a step for an old job takes from the rank, one for a younger job leaves it
      have hle := hrank fun created => created ≤ c
      by_cases hjob : job.createdAt ≤ c
      · rw [if_pos (decide_eq_true hjob)] at hle
        exact .inl hle
      · have hne : ¬(v = w ∨ ∀ u, s.workers u = .idle) := fun hvw => hjob (h.worksOn_le hworks hvw)
        have hstay : s'.workers w = s.workers w := by
          by_contra hmoved
          rcases step_stepsLeft hstep hmoved with rfl | ⟨-, id, rfl⟩ | ⟨hw, -⟩
          · cases hv
          · cases hv
            exact hne (.inl rfl)
          · exact hne (.inl (Option.some.inj (hv.symm.trans hw)))
        rcases Nat.lt_or_eq_of_le ((Nat.le_add_right _ _).trans hle) with hlt | heq
        · exact .inl hlt
        · exact .inr ⟨heq, h.keep hwrites hstay fun hall => absurd (.inr hall) hne,
            fun hmoves => hmoves.2 hstay⟩
  | none =>
    have hmoves : ¬WorkerMoves w s a s' := fun hmoves => by
      cases hv.symm.trans hmoves.1
    cases a with
    | submit rawBody key jobId now =>
      rcases submit_turn hstep with rfl | ⟨job, db', hjobs, -, rfl⟩
      · exact .inr ⟨rfl, h, hmoves⟩
      · -- a new job is younger than all others
        obtain ⟨j, hj, rfl⟩ := hc
        exact .inr ⟨rankTo_insert hjobs (horder'.lt_new hjobs hj),
          h.keep hwrites rfl fun _ => ⟨rfl, Table.get?_insert?_of_get? hjobs⟩, hmoves⟩
    | kill =>
      cases hstep
      cases hup'
    | recover jobs =>
      simp only [DiffReview.step, hup, Bool.not_true, Bool.false_and, Bool.false_eq_true,
        if_false] at hstep
      cases hstep
    | claim => cases hv
    | poll => cases hv
    | review => cases hv
    | store => cases hv
    | fail => cases hv

/-! ## The work of a run -/

/-- Whether a step of a worker was more than a poll of an open entry. -/
def workDone (s : State) (a : Action) (s' : State) : Nat :=
  if a.worker?.any fun w => (s'.workers w).stepsLeft != (s.workers w).stepsLeft then 1 else 0

theorem workDone_self (s : State) (a : Action) : workDone s a s = 0 := by
  cases h : a.worker? <;> simp [workDone, h]

theorem workDone_of_none (h : a.worker? = none) : workDone s a s' = 0 := by
  simp [workDone, h]

theorem workDone_le_one : workDone s a s' ≤ 1 := by
  unfold workDone
  split <;> omega

def Action.isRecover : Action → Bool
  | .recover _ => true
  | _ => false

/-- The starts of a process after the first. -/
def restarts (acts : List Action) : Nat := acts.countP Action.isRecover

theorem Writes.length_rows_le {db db' : Tables} (h : Writes env acts db db') :
    db.jobs.rows.length ≤ db'.jobs.rows.length := by
  induction h with
  | refl => exact le_rfl
  | tail _ hwrite ih =>
    refine ih.trans ?_
    rcases hwrite.jobs_cases with ⟨_, _, _, _, _, -, hjobs, -⟩ | ⟨j, j', bodies, hj, hadv, hjobs, -⟩
    · rw [Table.rows_insert? hjobs, List.length_append]
      exact Nat.le_add_right _ _
    · rw [hjobs, Table.rows_replace, List.length_map]

theorem Holding.leases_sound (h : Holding env acts s) :
    Lease.Sound (· < env.settings.maxConcurrentJobs) s.leases where
  held hv := by
    obtain ⟨job, hjob, rfl⟩ := Option.map_eq_some_iff.mp hv
    obtain ⟨hget, hrunning, -⟩ := h.held hjob
    exact (mem_runningIds hget).mpr hrunning
  allowed hv := by
    obtain ⟨job, hjob, -⟩ := Option.map_eq_some_iff.mp hv
    exact (h.held hjob).2.2
  distinct hv hv' := by
    obtain ⟨job, hjob, rfl⟩ := Option.map_eq_some_iff.mp hv
    obtain ⟨job', hjob', hid⟩ := Option.map_eq_some_iff.mp hv'
    exact h.distinct hjob hjob' hid.symm

/-- No more jobs run than there are workers. -/
theorem run_runningJobs_le (hrun : Run (step env) State.init acts s) :
    (runningJobs s.db).length ≤ env.settings.maxConcurrentJobs := by
  refine hrun.invariant_trace
    (P := fun _ s => (runningJobs s.db).length ≤ env.settings.maxConcurrentJobs) (Nat.zero_le _) ?_
  intro acts t a t' ht hle hstep
  obtain ⟨hledger, hhold⟩ := run_invariants ht
  by_cases hup : t'.up = true
  · -- in a live process every running job is held
    obtain ⟨-, hhold'⟩ := run_invariants (Run.snoc_iff.mpr ⟨t, ht, hstep⟩)
    have hall : Lease.NoOrphan t'.leases := by
      rw [hhold'.leases_sound.noOrphan_iff]
      rintro id ⟨job, hjob, hrunning⟩
      obtain ⟨w, hw⟩ := hhold'.running hup hjob hrunning
      exact ⟨w, Option.map_eq_some_iff.mpr ⟨job, hw, Table.key_of_get? hjob⟩⟩
    obtain ⟨hnd, hmem⟩ := perm_runningJobs (List.Perm.refl (runningJobs t'.db))
    have hlen := hall.length_le hhold'.leases_sound hnd fun id hid => by
      obtain ⟨job, hjob, rfl⟩ := List.mem_map.mp hid
      exact ⟨job, (hmem job).mp hjob⟩
    rwa [List.length_map] at hlen
  · have heffect := step_effect hledger hhold hstep
    cases heffect with
    | still => exact hle
    | insert hlive => exact absurd hlive hup
    | claim hlive => exact absurd hlive hup
    | kill => exact hle
    | move => exact hle
    | finish hheld =>
      have hdown := hhold.down (by simpa using hup)
      rw [hdown] at hheld
      cases hheld
    | recover => exact absurd rfl hup

theorem queuedFor_recover (p : Nat → Bool) (db : Tables) (jobs : List ReviewJob)
    (hjobs : ∀ job ∈ jobs, job.id ∈ db.jobs.keys) :
    queuedFor p (recoverAbandonedJobs db jobs) ≤ queuedFor p db + jobs.length := by
  induction jobs generalizing db with
  | nil => exact le_rfl
  | cons job jobs ih =>
    obtain ⟨hjob, hrest⟩ := List.forall_mem_cons.mp hjobs
    have hkeys : (requeueJob db job).jobs.keys = db.jobs.keys := Table.keys_replace _ _
    have hnext := ih (requeueJob db job) fun j hj => hkeys ▸ hrest j hj
    -- one row becomes queued, the others stay
    obtain ⟨old, hold, hkey⟩ := List.mem_map.mp hjob
    have hcount := Table.countP_replace (r := { job with status := .queued })
      (show db.jobs.get? job.id = some old from hkey ▸ Table.get?_of_mem hold)
      fun j => j.status = .queued && p j.createdAt
    change queuedFor p (requeueJob db job) + _ = queuedFor p db + _ at hcount
    change queuedFor p (recoverAbandonedJobs (requeueJob db job) jobs) ≤ _
    rw [List.length_cons]
    split at hcount <;> split at hcount <;> omega

/-- The work that is left, for all jobs. -/
def rankAll (env : Env) (s : State) : Nat :=
  rank (fun _ => true) env.settings.maxConcurrentJobs s

theorem rankAll_of_idle {n : Nat} (hidle : ∀ w, s.workers w = .idle) :
    rank (fun _ => true) n s = 4 * queuedFor (fun _ => true) s.db := by
  unfold rank
  rw [Finset.sum_eq_zero fun w _ => by rw [hidle w, stepsFor_idle], Nat.add_zero]

/-- One step costs what it takes from the rank, a new job brings four steps and a restart four
for each job that was running. -/
theorem step_workDone (hrun : Run (step env) State.init acts s) (hstep : step env s a = some s') :
    workDone s a s' + rankAll env s' + 4 * s.db.jobs.rows.length
      ≤ rankAll env s + 4 * s'.db.jobs.rows.length
        + if a.isRecover then 4 * env.settings.maxConcurrentJobs else 0 := by
  obtain ⟨hledger, hhold⟩ := run_invariants hrun
  have hwrites := (step_effect hledger hhold hstep).writes
  have hrows := hwrites.length_rows_le
  cases hw : a.worker? with
  | some w =>
    rcases step_rank hledger hhold hstep hw with rfl | ⟨-, job, -, hrank⟩
    · rw [workDone_self]
      omega
    · have hone : workDone s a s' ≤ 1 := workDone_le_one
      have htake := hrank fun _ => true
      rw [if_pos rfl] at htake
      unfold rankAll
      omega
  | none =>
    rw [workDone_of_none hw]
    cases a with
    | submit rawBody key jobId now =>
      rcases submit_turn hstep with rfl | ⟨job, db', hjobs, hqueued, rfl⟩
      · omega
      · have hrank : rankAll env { s with db := db' } = rankAll env s + 4 := by
          unfold rankAll rank queuedFor
          rw [Table.rows_insert? hjobs, List.countP_append, List.countP_singleton, hqueued]
          simp only [decide_true, Bool.true_and, if_true]
          omega
        rw [hrank, Table.rows_insert? hjobs, List.length_append, List.length_singleton]
        omega
    | kill =>
      cases hstep
      -- the steps of the workers are dropped, the queued jobs stay
      have hrank := rankAll_of_idle (s := ⟨s.db, false, fun _ => .idle⟩)
        (n := env.settings.maxConcurrentJobs) fun _ => rfl
      have hle : 4 * queuedFor (fun _ => true) s.db ≤ rankAll env s := Nat.le_add_right _ _
      unfold rankAll at hle ⊢
      rw [hrank]
      simp only
      omega
    | recover jobs =>
      simp only [DiffReview.step] at hstep
      split at hstep
      · next hrec =>
        cases hstep
        simp only [Bool.and_eq_true, Bool.not_eq_true', decide_eq_true_eq] at hrec
        have hidle := hhold.down hrec.1
        obtain ⟨hnd, hmem⟩ := perm_runningJobs hrec.2
        have hqueued := queuedFor_recover (fun _ => true) s.db jobs fun job hjob =>
          Table.mem_keys_of_get? ((hmem job).mp hjob).1
        have hlen : jobs.length ≤ env.settings.maxConcurrentJobs :=
          hrec.2.length_eq ▸ run_runningJobs_le hrun
        have hafter := rankAll_of_idle (n := env.settings.maxConcurrentJobs)
          (s := { s with db := recoverAbandonedJobs s.db jobs, up := true }) hidle
        unfold rankAll
        rw [hafter, rankAll_of_idle hidle, if_pos (show (Action.recover jobs).isRecover = true from rfl)]
        simp only at hrows ⊢
        omega
      · cases hstep
    | claim => cases hw
    | poll => cases hw
    | review => cases hw
    | store => cases hw
    | fail => cases hw

theorem sum_isRecover (k : Nat) (acts : List Action) :
    (acts.map fun a => if a.isRecover then k else 0).sum = k * restarts acts := by
  induction acts with
  | nil => rfl
  | cons a acts ih =>
    rw [List.map_cons, List.sum_cons, ih, restarts, restarts, List.countP_cons]
    split <;> ring

/-- The workers of a run make at most four transactions for each job and four more for each of
them at a restart, whatever the order of the steps: there is no livelock. -/
theorem bounded_work (hrun : Run (step env) State.init acts s) :
    runCost (step env) workDone State.init acts + rankAll env s
      ≤ 4 * s.db.jobs.rows.length + 4 * env.settings.maxConcurrentJobs * restarts acts := by
  have hcost := hrun.cost_le workDone (rankAll env) (fun s => 4 * s.db.jobs.rows.length)
    (fun a => if a.isRecover then 4 * env.settings.maxConcurrentJobs else 0)
    fun _ _ _ _ ht hstep => step_workDone ht hstep
  have hinit : rankAll env State.init = 0 := rankAll_of_idle fun _ => rfl
  rw [sum_isRecover, hinit] at hcost
  simpa [State.init, Tables.empty, Table.empty] using hcost

set_option maxRecDepth 20000 in
/-- The claim, the review and the store of one job. -/
theorem bounded_work_sample : runCost (step (sampleEnv none)) workDone State.init sampleRun = 3 ∧
    runCost (step (sampleEnv none)) workDone State.init sampleRun + rankAll (sampleEnv none) sampleState
      ≤ 4 * sampleState.db.jobs.rows.length + 4 * 4 * restarts sampleRun :=
  ⟨by decide, bounded_work (Run.get sampleRun_isSome)⟩

/-! ## Every job ends -/

/-- The review of one job, and nothing more. -/
def sampleExecution : Execution (step (sampleEnv none)) := .ofRun (Run.get sampleRun_isSome)

theorem sampleExecution_state {n : Nat} (hn : 4 ≤ n) : sampleExecution.state n = sampleState :=
  Execution.ofRun_state _ hn

set_option maxRecDepth 20000 in
theorem sampleExecution_createdInOrder (n : Nat) : CreatedInOrder (sampleExecution.state n).db := by
  have hlast : CreatedInOrder sampleState.db :=
    show (sampleState.db.jobs.rows.map (·.createdAt)).Pairwise (· < ·) from by decide
  obtain ⟨acts, hrun⟩ := sampleExecution.run_from (le_max_left n 4)
  have hwrites := run_writes (sampleExecution.run_trace n) hrun
  rw [sampleExecution_state (le_max_right n 4)] at hwrites
  exact hwrites.createdInOrder hlast

set_option maxRecDepth 20000 in
theorem sampleExecution_fair (w : Nat) : sampleExecution.Fair WorkerMoves w := by
  intro n henabled
  have hlast := henabled (max n 4) (le_max_left n 4)
  rw [sampleExecution_state (le_max_right n 4)] at hlast
  obtain ⟨hledger, hhold⟩ := run_invariants (Run.get sampleRun_isSome)
  have hdone : ∀ job ∈ sampleState.db.jobs.rows, job.status = .done := by decide
  exact absurd hlast (not_enabled_of_ended hledger hhold (fun job hjob => .inl (hdone job hjob)) w)

end DiffReview
