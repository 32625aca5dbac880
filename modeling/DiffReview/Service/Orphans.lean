import DiffReview.Lib.Lease
import DiffReview.Service.Logs
import DiffReview.Spec.Faults

/-!
# DiffReview — running jobs without a worker

The jobs of a faulty service as leases: a running job is an open key and the worker that
processes it its holder. Every transaction is a move of the leases, whether it goes through
or raises, but for one: when the transaction of the failure handler raises, the worker
abandons its job (`faultyStep_move`).
-/

namespace DiffReview

open Py Raise Transition

/-! ## Jobs as leases -/

/-- The ids of the running jobs. -/
def runningIds (db : Tables) : Set Str :=
  {id | ∃ job, db.jobs.get? id = some job ∧ job.status = .running}

def State.leases (s : State) : Lease.Leases Nat Str :=
  ⟨runningIds s.db, fun w => (s.workers w).job?.map (·.id)⟩

theorem mem_runningIds {db : Tables} {id : Str} {job : ReviewJob} (h : db.jobs.get? id = some job) :
    id ∈ runningIds db ↔ job.status = .running := by
  constructor
  · rintro ⟨job', hjob', hstatus⟩
    cases h.symm.trans hjob'
    exact hstatus
  · intro hstatus
    exact ⟨job, h, hstatus⟩

theorem leases_setWorker (s : State) (w : Nat) (worker : Worker) (db : Tables) :
    ({ s.setWorker w worker with db := db } : State).leases
      = ⟨runningIds db, Function.update s.leases.holder w (worker.job?.map (·.id))⟩ := by
  refine congrArg (Lease.Leases.mk _) (funext fun v => ?_)
  show ((s.setWorker w worker).workers v).job?.map (·.id) = _
  rw [State.setWorker_workers, Function.update_apply]
  split <;> rfl

/-- A worker that stays with its job keeps its lease. -/
theorem leases_stay {s : State} {w : Nat} {worker : Worker}
    (hstay : worker.job? = (s.workers w).job?) : (s.setWorker w worker).leases = s.leases := by
  have hsame : Function.update s.leases.holder w (worker.job?.map (·.id)) = s.leases.holder := by
    rw [Function.update_eq_self_iff, hstay]
    rfl
  show ({ s.setWorker w worker with db := s.db } : State).leases = s.leases
  rw [leases_setWorker, hsame]
  rfl

/-! ## What the transactions do to the running jobs -/

section Transactions

variable {db db' : Tables} {job current : ReviewJob}

/-- Writing the end of a job closes it and nothing else. -/
theorem runningIds_replace (hcurrent : db.jobs.get? job.id = some current)
    {ended : ReviewJob} (hid : ended.id = job.id) (hstatus : ended.status ≠ .running)
    (hjobs : db'.jobs = db.jobs.replace ended) : runningIds db' = runningIds db \ {job.id} := by
  have hget : ∀ id, db'.jobs.get? id = if id = job.id then some ended else db.jobs.get? id := by
    intro id
    rw [hjobs, Table.get?_replace (hid ▸ Table.mem_keys_of_get? hcurrent), hid]
  ext id
  by_cases heq : id = job.id
  · rw [mem_runningIds ((hget id).trans (if_pos heq))]
    exact iff_of_false hstatus fun hmem => hmem.2 heq
  · have hsame : db'.jobs.get? id = db.jobs.get? id := (hget id).trans (if_neg heq)
    show (∃ j, db'.jobs.get? id = some j ∧ j.status = .running) ↔ _
    rw [hsame]
    exact ⟨fun hmem => ⟨hmem, heq⟩, And.left⟩

theorem finishJob_jobs {limited : List Finding} {cacheHit : Bool}
    (h : finishJob db job limited cacheHit = .ok db') : ∃ ended : ReviewJob,
      ended.id = job.id ∧ ended.status = .done ∧ db'.jobs = db.jobs.replace ended := by
  obtain ⟨usage, -, h⟩ := bind_eq_ok.mp h
  cases h
  exact ⟨{ job with findings := some (limited.map Finding.modelDump), status := .done },
    rfl, rfl, rfl⟩

theorem runningIds_finishFromCache {entry : CacheEntry} (hcurrent : db.jobs.get? job.id = some current)
    (h : finishFromCache db current entry = .ok (some db')) :
    runningIds db' = runningIds db \ {job.id} := by
  unfold finishFromCache at h
  split at h
  · obtain ⟨findings, -, h⟩ := bind_eq_ok.mp h
    obtain ⟨db₁, hfinish, h⟩ := bind_eq_ok.mp h
    cases h
    obtain ⟨ended, hid, hstatus, hjobs⟩ := finishJob_jobs hfinish
    have hkey : current.id = job.id := Table.key_of_get? hcurrent
    exact runningIds_replace hcurrent (hid.trans hkey) (by rw [hstatus]; decide) hjobs
  · cases h

theorem runningIds_storeReview {full : List Finding} (h : storeReview db job full = .ok db') :
    runningIds db' = runningIds db \ {job.id} := by
  unfold storeReview at h
  split at h
  · next current cache hcurrent hcache =>
    obtain ⟨db₁, hfinish, h⟩ := bind_eq_ok.mp h
    cases h
    obtain ⟨ended, hid, hstatus, hjobs⟩ := finishJob_jobs hfinish
    have hkey : current.id = job.id := Table.key_of_get? hcurrent
    exact runningIds_replace hcurrent (hid.trans hkey) (by rw [hstatus]; decide) hjobs
  · cases h

/-- The row a failure handler writes. -/
def failedRow (env : Env) (exc : PyError) (current : ReviewJob) : ReviewJob := { current with
  status := .failed
  errorCode := some (lit "internal")
  errorMessage := some (errorMessage env exc) }

theorem failJob_jobs (env : Env) (db : Tables) (job : ReviewJob) (exc : PyError) :
    (failJob env db job exc).jobs
      = ((db.jobs.get? job.id).map (failedRow env exc)).elim db.jobs db.jobs.replace := by
  unfold failJob
  cases db.jobs.get? job.id <;> cases db.cache.get? job.requestHash <;> simp only <;>
    first | rfl | (split <;> rfl)

theorem runningIds_failJob (env : Env) (db : Tables) (job : ReviewJob) (exc : PyError) :
    runningIds (failJob env db job exc) = runningIds db \ {job.id} := by
  have hjobs := failJob_jobs env db job exc
  cases hcurrent : db.jobs.get? job.id with
  | none =>
    rw [hcurrent] at hjobs
    replace hjobs : (failJob env db job exc).jobs = db.jobs := hjobs
    -- a job without a row is not running
    have hnot : job.id ∉ runningIds db := by
      rintro ⟨j, hj, -⟩
      rw [hcurrent] at hj
      cases hj
    have hsame : runningIds (failJob env db job exc) = runningIds db := by
      unfold runningIds
      rw [hjobs]
    rw [hsame, Set.sdiff_singleton_eq_self hnot]
  | some current =>
    rw [hcurrent] at hjobs
    have hkey : (failedRow env exc current).id = job.id := by
      show current.id = job.id
      exact Table.key_of_get? hcurrent
    have hstatus : (failedRow env exc current).status ≠ .running := by
      show JobStatusValue.failed ≠ .running
      decide
    exact runningIds_replace hcurrent hkey hstatus hjobs

theorem runningIds_insertJob {sub : ParsedSubmission} {key : Option Str} {jobId : Str} {now : Nat}
    (h : insertJob db sub key jobId now = some (job, db')) : runningIds db' = runningIds db := by
  unfold insertJob at h
  obtain ⟨jobs, hjobs, h⟩ := Option.bind_eq_some_iff.mp h
  obtain ⟨cache, -, h⟩ := Option.bind_eq_some_iff.mp h
  obtain ⟨idempotency, -, h⟩ := Option.bind_eq_some_iff.mp h
  cases h
  ext id
  constructor
  · rintro ⟨j, hj, hstatus⟩
    have hget := Table.get?_insert? hjobs id
    rw [show jobs.get? id = some j from hj] at hget
    split at hget
    · cases hget
      cases hstatus
    · exact ⟨j, hget.symm, hstatus⟩
  · rintro ⟨j, hj, hstatus⟩
    exact ⟨j, Table.get?_insert?_of_get? hjobs hj, hstatus⟩

theorem runningIds_claimJob {id : Str} (hjob : db.jobs.get? id = some job) :
    runningIds (claimJob db job).2 = insert job.id (runningIds db) := by
  have hkey : job.id = id := Table.key_of_get? hjob
  have hkeys : (claimJob db job).1.id ∈ db.jobs.keys := by
    show job.id ∈ db.jobs.keys
    exact hkey ▸ Table.mem_keys_of_get? hjob
  have hget : ∀ k, (claimJob db job).2.jobs.get? k
      = if k = job.id then some (claimJob db job).1 else db.jobs.get? k :=
    Table.get?_replace hkeys
  ext k
  by_cases heq : k = job.id
  · rw [mem_runningIds ((hget k).trans (if_pos heq))]
    exact iff_of_true rfl (.inl heq)
  · have hsame : (claimJob db job).2.jobs.get? k = db.jobs.get? k := (hget k).trans (if_neg heq)
    show (∃ j, (claimJob db job).2.jobs.get? k = some j ∧ j.status = .running) ↔ _
    rw [hsame]
    exact ⟨.inr, fun hmem => hmem.resolve_left heq⟩

end Transactions

/-! ## The steps of the faulty service are moves -/

section Steps

variable {env : Env} {s s' : State} {w : Nat} {job : ReviewJob}

/-- The moves of the workers of the service. -/
abbrev Moves (env : Env) (s s' : State) : Prop :=
  Lease.Move (· < env.settings.maxConcurrentJobs) s.leases s'.leases

theorem Moves.of_eq (h : s'.leases = s.leases) : Moves env s s' := by
  rw [Moves, h]
  exact .keep

/-- A worker that ends its job releases it. -/
theorem Moves.release {db' : Tables} (hw : (s.workers w).job? = some job)
    (hdb : runningIds db' = runningIds s.db \ {job.id}) :
    Moves env s { s.setWorker w .idle with db := db' } := by
  rw [Moves, leases_setWorker, hdb]
  exact .release (by show (s.workers w).job?.map (·.id) = _; rw [hw]; rfl)

/-- A worker that claims a job acquires it. -/
theorem Moves.acquire {id : Str} {worker : Worker} (hw : w < env.settings.maxConcurrentJobs)
    (hidle : s.workers w = .idle) (hjob : s.db.jobs.get? id = some job)
    (hqueued : job.status = .queued) (hworker : worker.job? = some (claimJob s.db job).1) :
    Moves env s { s.setWorker w worker with db := (claimJob s.db job).2 } := by
  have hfree : s.leases.holder w = none := by
    show (s.workers w).job?.map (·.id) = none
    rw [hidle]
    rfl
  have hnot : job.id ∉ runningIds s.db := by
    rw [Table.key_of_get? hjob, mem_runningIds hjob, hqueued]
    decide
  have hholder : worker.job?.map (·.id) = some job.id := by rw [hworker]; rfl
  rw [Moves, leases_setWorker, hholder, runningIds_claimJob hjob]
  exact .acquire hw hfree hnot

theorem submit_moves {rawBody : List UInt8} {key : Option Str} {jobId : Str} {now : Nat}
    (h : step env s (.submit rawBody key jobId now) = some s') : Moves env s s' := by
  simp only [step] at h
  split at h
  · split at h
    · next job db' hsubmit =>
      cases h
      refine .of_eq (congrArg (Lease.Leases.mk · _) ?_)
      obtain ⟨sub, -, heq | ⟨-, hinsert⟩⟩ := submit_cases hsubmit
      · rw [heq]
      · exact runningIds_insertJob hinsert
    · cases h
      exact .of_eq rfl
  · cases h

theorem claim_moves {jobId : Str} (h : step env s (.claim w jobId) = some s') : Moves env s s' := by
  simp only [step] at h
  split at h
  · unfold claim at h
    split at h
    · next job hidle hjob =>
      split at h
      · next hcond =>
        cases h
        refine .acquire hcond.1 hidle hjob hcond.2.1 ?_
        split <;> rfl
      · cases h
    · cases h
  · cases h

theorem poll_moves (h : step env s (.poll w) = some s') : Moves env s s' := by
  simp only [step] at h
  split at h
  · next job hw =>
    cases h
    have hjob : (s.workers w).job? = some job := by rw [hw]; rfl
    unfold poll
    split
    · next current cache hcurrent hcache =>
      split
      · exact .of_eq (leases_stay hjob.symm)
      · next hfinish => exact .release hjob (runningIds_finishFromCache hcurrent hfinish)
      · split
        · exact .of_eq (leases_stay hjob.symm)
        · exact .of_eq rfl
    · exact .of_eq (leases_stay hjob.symm)
  · cases h

theorem review_moves {jobId : Str} {answers : Answers}
    (h : step env s (.review w jobId answers) = some s') : Moves env s s' := by
  simp only [step] at h
  split at h
  · next job hw =>
    have hjob : (s.workers w).job? = some job := by rw [hw]; rfl
    split at h
    · split at h
      · cases h
        exact .of_eq (leases_stay hjob.symm)
      · cases h
        exact .of_eq (leases_stay hjob.symm)
    · cases h
  · cases h

theorem store_moves (h : step env s (.store w) = some s') : Moves env s s' := by
  simp only [step] at h
  split at h
  · next job full hw =>
    have hjob : (s.workers w).job? = some job := by rw [hw]; rfl
    split at h
    · next hstore =>
      cases h
      exact .release hjob (runningIds_storeReview hstore)
    · cases h
      exact .of_eq (leases_stay hjob.symm)
  · cases h

theorem fail_moves (h : step env s (.fail w) = some s') : Moves env s s' := by
  simp only [step] at h
  split at h
  · next job exc hw =>
    cases h
    exact .release (by rw [hw]; rfl) (runningIds_failJob env s.db job exc)
  · cases h

theorem succeeds_moves {a : Action} (h : faultyStep env s (.succeeds a) = some s') :
    Moves env s s' := by
  cases a with
  | submit rawBody key jobId now =>
    simp only [faultyStep] at h
    exact submit_moves h
  | claim w jobId =>
    simp only [faultyStep] at h
    exact claim_moves h
  | poll w =>
    simp only [faultyStep] at h
    exact poll_moves h
  | review w jobId answers =>
    simp only [faultyStep] at h
    exact review_moves h
  | store w =>
    simp only [faultyStep] at h
    exact store_moves h
  | fail w =>
    simp only [faultyStep] at h
    exact fail_moves h
  | kill => cases h
  | recover jobs => cases h

/-- A worker whose transaction raises stays with its job, unless it was failing it. -/
theorem Worker.raised_cases {exc : PyError} {worker worker' : Worker}
    (h : worker.raised exc = some worker') :
    worker'.job? = worker.job? ∧ (∀ job exc', worker ≠ .failing job exc') ∨
      ∃ job exc', worker = .failing job exc' ∧ worker' = .idle := by
  cases worker with
  | idle =>
    cases h
    exact .inl ⟨rfl, nofun⟩
  | waiting job =>
    cases h
    exact .inl ⟨rfl, nofun⟩
  | reviewing job => cases h
  | storing job full =>
    cases h
    exact .inl ⟨rfl, nofun⟩
  | failing job exc' =>
    cases h
    exact .inr ⟨job, exc', rfl, rfl⟩

/-- A transaction is a move of the leases, unless it is that of a failure handler and
raises: then the worker abandons its job. -/
theorem faultyStep_move {a : FaultyAction} (h : faultyStep env s a = some s') :
    Moves env s s' ∧ (∀ w exc job exc', a = .raises w exc → s.workers w ≠ .failing job exc') ∨
    ∃ w exc job exc', a = .raises w exc ∧ s.workers w = .failing job exc' ∧
      s'.leases = Lease.abandon s.leases w := by
  cases a with
  | succeeds a => exact .inl ⟨succeeds_moves h, fun _ _ _ _ heq => by cases heq⟩
  | raises w exc =>
    simp only [faultyStep] at h
    obtain ⟨worker, hraised, rfl⟩ := Option.map_eq_some_iff.mp h
    rcases Worker.raised_cases hraised with ⟨hstay, hnot⟩ | ⟨job, exc', hw, rfl⟩
    · refine .inl ⟨.of_eq (leases_stay hstay), ?_⟩
      rintro v exc₁ job exc' heq
      cases heq
      exact hnot job exc'
    · refine .inr ⟨w, exc, job, exc', rfl, hw, ?_⟩
      show ({ s.setWorker w .idle with db := s.db } : State).leases = Lease.abandon s.leases w
      rw [leases_setWorker]
      rfl

end Steps

/-! ## Runs -/

/-- Every running job is held by exactly one worker, which is still processing it, and no
more jobs run than there are workers. -/
def NoOrphans (env : Env) (s : State) : Prop :=
  (∀ job ∈ s.db.jobs.rows, job.status = .running →
      ∃! w, (s.workers w).job?.map (·.id) = some job.id) ∧
    (runningJobs s.db).length ≤ env.settings.maxConcurrentJobs

/-- Some transaction of a failure handler raises in the run. -/
def HandlerRaises (env : Env) (s₀ : State) (acts : List FaultyAction) : Prop :=
  ∃ pre w exc post s job exc', acts = pre ++ .raises w exc :: post ∧
    Run (faultyStep env) s₀ pre s ∧ s.workers w = .failing job exc'

section Runs

variable {env : Env} {s₀ s : State} {acts : List FaultyAction}

theorem noOrphans_iff (h : Lease.Sound (· < env.settings.maxConcurrentJobs) s.leases) :
    NoOrphans env s ↔ Lease.NoOrphan s.leases := by
  constructor
  · rintro ⟨hall, -⟩ id ⟨job, hjob, hstatus⟩
    have hkey : job.id = id := Table.key_of_get? hjob
    exact hkey ▸ hall job (Table.get?_eq_some_iff.mp hjob).1 hstatus
  · intro hall
    refine ⟨fun job hjob hstatus => hall job.id ⟨job, Table.get?_of_mem hjob, hstatus⟩, ?_⟩
    have hnodup : ((runningJobs s.db).map (·.id)).Nodup := (perm_runningJobs (List.Perm.refl _)).1
    have hle := hall.length_le h hnodup fun id hid => by
      obtain ⟨job, hjob, rfl⟩ := List.mem_map.mp hid
      obtain ⟨hrow, hstatus⟩ := List.mem_filter.mp hjob
      exact ⟨job, Table.get?_of_mem hrow, of_decide_eq_true hstatus⟩
    rwa [List.length_map] at hle

theorem Started.sound (h : Started s₀) :
    Lease.Sound (· < env.settings.maxConcurrentJobs) s₀.leases := by
  have hnone : ∀ w, s₀.leases.holder w = none := fun w => by
    show (s₀.workers w).job?.map (·.id) = none
    rw [h.idle w]
    rfl
  exact ⟨fun hw => (by rw [hnone] at hw; cases hw), fun hw => (by rw [hnone] at hw; cases hw),
    fun hw => (by rw [hnone] at hw; cases hw)⟩

theorem Started.noOrphan (h : Started s₀) : Lease.NoOrphan s₀.leases := by
  rintro id ⟨job, hjob, hstatus⟩
  have hmem : job ∈ runningJobs s₀.db :=
    List.mem_filter.mpr ⟨(Table.get?_eq_some_iff.mp hjob).1, decide_eq_true hstatus⟩
  rw [h.settled] at hmem
  cases hmem

/-- The leases stay sound whatever raises. -/
theorem run_sound (hstart : Started s₀) (hrun : Run (faultyStep env) s₀ acts s) :
    Lease.Sound (· < env.settings.maxConcurrentJobs) s.leases := by
  refine hrun.invariant (P := fun s => Lease.Sound (· < env.settings.maxConcurrentJobs) s.leases)
    hstart.sound fun t a t' hsound hstep => ?_
  rcases faultyStep_move hstep with ⟨hmove, -⟩ | ⟨w, -, -, -, -, -, hleases⟩
  · exact hsound.move hmove
  · rw [hleases]
    exact hsound.abandon w

/-- While no handler raises there are no orphans. -/
theorem run_noOrphan (hstart : Started s₀) (hrun : Run (faultyStep env) s₀ acts s)
    (hcalm : ¬HandlerRaises env s₀ acts) : Lease.NoOrphan s.leases := by
  refine hrun.invariant_trace (P := fun acts s => ¬HandlerRaises env s₀ acts →
    Lease.NoOrphan s.leases) (fun _ => hstart.noOrphan) ?_ hcalm
  intro acts t a t' hrun ih hstep hcalm
  have hbefore : ¬HandlerRaises env s₀ acts := by
    rintro ⟨pre, w, exc, post, u, job, exc', rfl, hu⟩
    exact hcalm ⟨pre, w, exc, post ++ [a], u, job, exc', by simp, hu⟩
  rcases faultyStep_move hstep with ⟨hmove, -⟩ | ⟨w, exc, job, exc', rfl, hw, -⟩
  · exact (ih hbefore).move (run_sound hstart hrun) hmove
  · exact absurd ⟨acts, w, exc, [], t, job, exc', rfl, hrun, hw⟩ hcalm

/-- The state behind a handler that raised has an orphan. -/
theorem orphan_of_handlerRaises (hstart : Started s₀) (hrun : Run (faultyStep env) s₀ acts s)
    (hraises : HandlerRaises env s₀ acts) :
    ∃ pre post t, acts = pre ++ post ∧ Run (faultyStep env) s₀ pre t ∧ ¬NoOrphans env t := by
  obtain ⟨pre, w, exc, post, t, job, exc', rfl, ht, hw⟩ := hraises
  obtain ⟨u, hu, hrest⟩ := Run.append_iff.mp hrun
  cases Option.some.inj (hu.symm.trans ht)
  obtain ⟨t', hstep, -⟩ := Run.cons_iff.mp hrest
  have hrun' : Run (faultyStep env) s₀ (pre ++ [.raises w exc]) t' := Run.snoc_iff.mpr ⟨t, ht, hstep⟩
  refine ⟨pre ++ [.raises w exc], post, t', by simp, hrun', ?_⟩
  rw [noOrphans_iff (run_sound hstart hrun')]
  rcases faultyStep_move hstep with ⟨-, hnot⟩ | ⟨w', exc₁, job', exc₂, heq, -, hleases⟩
  · exact absurd hw (hnot w exc job exc' rfl)
  · cases heq
    rw [hleases]
    refine (run_sound hstart ht).not_noOrphan_abandon (k := job.id) ?_
    show (t.workers w).job?.map (·.id) = some job.id
    rw [hw]
    rfl

end Runs

/-- In every state of a run each running job has its worker, exactly when no transaction of
a failure handler raises in it. -/
theorem no_orphans_iff {env : Env} {s₀ s : State} {acts : List FaultyAction} (hstart : Started s₀)
    (hrun : Run (faultyStep env) s₀ acts s) :
    (∀ pre post t, acts = pre ++ post → Run (faultyStep env) s₀ pre t → NoOrphans env t) ↔
      ¬HandlerRaises env s₀ acts := by
  constructor
  · intro hall hraises
    obtain ⟨pre, post, t, hacts, ht, horphan⟩ := orphan_of_handlerRaises hstart hrun hraises
    exact horphan (hall pre post t hacts ht)
  · rintro hcalm pre post t rfl ht
    rw [noOrphans_iff (run_sound hstart ht)]
    refine run_noOrphan hstart ht ?_
    rintro ⟨pre', w, exc, post', u, job, exc', rfl, hu⟩
    exact hcalm ⟨pre', w, exc, post' ++ post, u, job, exc', by simp, hu⟩

theorem started_init : Started State.init := ⟨rfl, fun _ => rfl, rfl⟩

/-- A mock review whose last transaction raises, and so does that of its failure handler. -/
def orphanRun : List FaultyAction :=
  [.succeeds (.submit (sampleBody .mock) none (lit "a") 0), .succeeds (.claim 0 (lit "a")),
    .succeeds (.review 0 (lit "a") fun _ => .ok []), .raises 0 (.foreign .database),
    .raises 0 (.foreign .database)]

set_option maxRecDepth 20000 in
theorem orphanRun_isSome :
    (orphanRun.foldlM (faultyStep (sampleEnv none)) State.init).isSome = true := by decide

def orphanState : State :=
  (orphanRun.foldlM (faultyStep (sampleEnv none)) State.init).get orphanRun_isSome

theorem no_orphans_iff_sample :
    (∀ pre post t, orphanRun = pre ++ post → Run (faultyStep (sampleEnv none)) State.init pre t →
      NoOrphans (sampleEnv none) t) ↔ ¬HandlerRaises (sampleEnv none) State.init orphanRun :=
  no_orphans_iff started_init (Run.get orphanRun_isSome)

set_option maxRecDepth 20000 in
/-- The job is running, every worker is idle, and its cache entry waits for it. -/
theorem running_job_orphaned :
    Run (faultyStep (sampleEnv none)) State.init orphanRun orphanState ∧
      (∃ job ∈ orphanState.db.jobs.rows, job.id = lit "a" ∧ job.status = .running) ∧
      (∀ w < 4, (orphanState.workers w).job? = none) ∧
      (∃ entry ∈ orphanState.db.cache.rows, entry.sourceJobId = lit "a" ∧
        entry.state = .running) ∧
      ¬NoOrphans (sampleEnv none) orphanState := by
  have hjob : ∃ job ∈ orphanState.db.jobs.rows, job.id = lit "a" ∧ job.status = .running := by
    decide
  have hentry : ∃ entry ∈ orphanState.db.cache.rows, entry.sourceJobId = lit "a" ∧
    entry.state = .running := by decide
  have hidle : ∀ w < 4, (orphanState.workers w).job? = none := by decide
  refine ⟨Run.get orphanRun_isSome, hjob, hidle, hentry, fun hall => ?_⟩
  obtain ⟨job, hmem, -, hstatus⟩ := hjob
  obtain ⟨w, hw, -⟩ := hall.1 job hmem hstatus
  -- only the four workers of the process hold a job
  have hlt : w < 4 := (run_sound started_init (Run.get orphanRun_isSome)).allowed hw
  replace hw : (orphanState.workers w).job?.map (·.id) = some job.id := hw
  rw [hidle w hlt] at hw
  cases hw

end DiffReview
