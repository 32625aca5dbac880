import DiffReview.Lib.Liveness
import DiffReview.Service.Orphans
import DiffReview.Service.Waiting

/-!
# DiffReview — the work left

How many transactions the workers still have to make, as a rank of the state. A step of a
worker that moves it takes from the rank (`step_rank`), and a worker that has something to
do can move (`enabled_of_onProviderPath`, `enabled_of_closed`, `enabled_of_queued`). Jobs
are claimed in the order of their creation (`run_claimedInOrder`).
-/

namespace DiffReview

open Py Raise Transition

variable {env : Env} {acts : List Action} {s s' : State} {a : Action}

/-! ## Moves -/

/-- The worker an action belongs to. -/
def Action.worker? : Action → Option Nat
  | .claim w _ => some w
  | .poll w => some w
  | .review w _ _ => some w
  | .store w => some w
  | .fail w => some w
  | _ => none

/-- The moves of the worker `w`; a poll of an open entry is none. -/
def WorkerMoves (w : Nat) (s : State) (a : Action) (s' : State) : Prop :=
  a.worker? = some w ∧ s'.workers w ≠ s.workers w

/-- The transactions a worker may still make for the job it holds. -/
def Worker.stepsLeft : Worker → Nat
  | .idle => 0
  | .waiting _ => 2
  | .reviewing _ => 3
  | .storing _ _ => 2
  | .failing _ _ => 1

theorem Worker.stepsLeft_le (worker : Worker) : worker.stepsLeft ≤ 3 := by
  cases worker <;> simp [Worker.stepsLeft]

theorem Worker.stepsLeft_pos {worker : Worker} {job : ReviewJob} (h : worker.job? = some job) :
    0 < worker.stepsLeft := by
  cases worker with
  | idle => cases h
  | waiting => exact Nat.succ_pos _
  | reviewing => exact Nat.succ_pos _
  | storing => exact Nat.succ_pos _
  | failing => exact Nat.succ_pos _

theorem Worker.exists_job {worker : Worker} (h : worker ≠ .idle) : ∃ job, worker.job? = some job := by
  cases worker with
  | idle => exact absurd rfl h
  | waiting job => exact ⟨job, rfl⟩
  | reviewing job => exact ⟨job, rfl⟩
  | storing job => exact ⟨job, rfl⟩
  | failing job => exact ⟨job, rfl⟩

/-- What a worker is after a poll. -/
theorem poll_workers (s : State) (w : Nat) (job : ReviewJob) :
    ∃ worker, (poll s w job).workers = (s.setWorker w worker).workers ∧
      (worker = s.workers w ∨ worker = .idle ∨ ∃ exc, worker = .failing job exc) := by
  have hstay : s.workers = (s.setWorker w (s.workers w)).workers :=
    (Function.update_eq_self w s.workers).symm
  unfold poll
  split
  · split
    · exact ⟨_, rfl, .inr (.inr ⟨_, rfl⟩)⟩
    · exact ⟨_, rfl, .inr (.inl rfl)⟩
    · split
      · exact ⟨_, rfl, .inr (.inr ⟨_, rfl⟩)⟩
      · exact ⟨_, hstay, .inl rfl⟩
  · exact ⟨_, rfl, .inr (.inr ⟨_, rfl⟩)⟩

/-- A worker that does not claim stays as it is or has fewer steps left. -/
theorem step_worker {w : Nat} (h : step env s a = some s') (hw : a.worker? = some w)
    (hclaim : ∀ id, a ≠ .claim w id) : ∃ worker, s'.workers = (s.setWorker w worker).workers ∧
      (worker = s.workers w ∨ worker.stepsLeft < (s.workers w).stepsLeft) := by
  cases a with
  | submit => cases hw
  | kill => cases hw
  | recover => cases hw
  | claim v id =>
    cases hw
    exact absurd rfl (hclaim id)
  | poll v =>
    cases hw
    simp only [step] at h
    split at h
    · next job hworker =>
      cases h
      obtain ⟨worker, hworkers, hstay | rfl | ⟨exc, rfl⟩⟩ := poll_workers s w job
      · exact ⟨worker, hworkers, .inl hstay⟩
      · exact ⟨_, hworkers, .inr (by rw [hworker]; exact Nat.two_pos)⟩
      · exact ⟨_, hworkers, .inr (by rw [hworker]; exact Nat.one_lt_two)⟩
    · cases h
  | review v id answers =>
    cases hw
    simp only [step] at h
    split at h
    · next job hworker =>
      rw [hworker]
      split at h
      · split at h <;> cases h
        · exact ⟨_, rfl, .inr (Nat.lt_succ_self 2)⟩
        · exact ⟨_, rfl, .inr (show 1 < 3 by omega)⟩
      · cases h
    · cases h
  | store v =>
    cases hw
    simp only [step] at h
    split at h
    · next job full hworker =>
      rw [hworker]
      split at h <;> cases h
      · exact ⟨_, rfl, .inr Nat.two_pos⟩
      · exact ⟨_, rfl, .inr Nat.one_lt_two⟩
    · cases h
  | fail v =>
    cases hw
    simp only [step] at h
    split at h
    · next job exc hworker =>
      rw [hworker]
      cases h
      exact ⟨_, rfl, .inr Nat.one_pos⟩
    · cases h

theorem claim_workers {w : Nat} {id : Str} (h : step env s (.claim w id) = some s') :
    s.workers w = .idle ∧ w < env.settings.maxConcurrentJobs ∧
      ∃ worker, s'.workers = (s.setWorker w worker).workers := by
  simp only [step, claim] at h
  split at h
  · split at h
    · next hidle _ =>
      split at h
      · next hclaim =>
        cases h
        exact ⟨hidle, hclaim.1, _, rfl⟩
      · cases h
    · cases h
  · cases h

/-- A step that changes a worker stops it, claims a job for it or takes from its steps. -/
theorem step_stepsLeft {w : Nat} (h : step env s a = some s') (hw : s'.workers w ≠ s.workers w) :
    a = .kill ∨ (s.workers w = .idle ∧ ∃ id, a = .claim w id) ∨
      a.worker? = some w ∧ (s'.workers w).stepsLeft < (s.workers w).stepsLeft := by
  have hset : ∀ {v worker}, s'.workers = (s.setWorker v worker).workers →
      w = v ∧ s'.workers w = worker := by
    intro v worker hworkers
    rw [hworkers, State.setWorker_workers] at hw ⊢
    split
    · next hv => exact ⟨hv, rfl⟩
    · next hv =>
      rw [if_neg hv] at hw
      exact absurd rfl hw
  by_cases hclaim : ∃ v id, a = .claim v id
  · obtain ⟨v, id, rfl⟩ := hclaim
    obtain ⟨hidle, -, worker, hworkers⟩ := claim_workers h
    obtain ⟨rfl, -⟩ := hset hworkers
    exact .inr (.inl ⟨hidle, id, rfl⟩)
  · cases hv : a.worker? with
    | some v =>
      obtain ⟨worker, hworkers, hsteps⟩ :=
        step_worker h hv fun id heq => hclaim ⟨v, id, heq⟩
      obtain ⟨rfl, hnew⟩ := hset hworkers
      rw [hnew] at hw ⊢
      exact .inr (.inr ⟨rfl, hsteps.resolve_left hw⟩)
    | none =>
      cases a with
      | kill => exact .inl rfl
      | submit =>
        simp only [step] at h
        split at h
        · split at h <;> cases h <;> exact absurd rfl hw
        · cases h
      | recover =>
        simp only [step] at h
        split at h
        · cases h
          exact absurd rfl hw
        · cases h
      | claim => cases hv
      | poll => cases hv
      | review => cases hv
      | store => cases hv
      | fail => cases hv

/-! ## What a worker can do -/

section Enabled

variable {w : Nat}

theorem enabled_of_onProviderPath {job : ReviewJob} (h : (s.workers w).onProviderPath job) :
    Enabled (step env) WorkerMoves w s := by
  rcases h with hworker | ⟨full, hworker⟩ | ⟨exc, hworker⟩
  · refine ⟨.review w job.id fun _ => .ok [], ?_⟩
    simp only [step, hworker, if_pos]
    cases reviewDiff env job.diff job.provider fun _ => .ok [] with
    | ok full =>
      refine ⟨_, rfl, rfl, ?_⟩
      rw [State.setWorker_workers, if_pos rfl, hworker]
      simp
    | error exc =>
      refine ⟨_, rfl, rfl, ?_⟩
      rw [State.setWorker_workers, if_pos rfl, hworker]
      simp
  · refine ⟨.store w, ?_⟩
    simp only [step, hworker]
    cases storeReview s.db job full with
    | ok db =>
      refine ⟨_, rfl, rfl, ?_⟩
      show (s.setWorker w .idle).workers w ≠ _
      rw [State.setWorker_workers, if_pos rfl, hworker]
      simp
    | error exc =>
      refine ⟨_, rfl, rfl, ?_⟩
      rw [State.setWorker_workers, if_pos rfl, hworker]
      simp
  · refine ⟨.fail w, ?_⟩
    simp only [step, hworker]
    refine ⟨_, rfl, rfl, ?_⟩
    show (s.setWorker w .idle).workers w ≠ _
    rw [State.setWorker_workers, if_pos rfl, hworker]
    simp

/-- A worker whose entry is no longer open leaves the cache-wait loop. -/
theorem enabled_of_closed {hit : ReviewJob} {entry : CacheEntry}
    (hledger : Ledger env acts s.db) (hhold : Holding env acts s) (hwait : s.workers w = .waiting hit)
    (hentry : s.db.cache.get? hit.requestHash = some entry) (hclosed : entry.state ≠ .running) :
    Enabled (step env) WorkerMoves w s := by
  have hheld : (s.workers w).job? = some hit := by rw [hwait]; rfl
  obtain ⟨hhit, -, -⟩ := hhold.held hheld
  obtain ⟨src, hsrc, howns⟩ := hledger.coherent.owner hentry
  refine ⟨.poll w, poll s w hit, ?_, rfl, ?_⟩
  · simp only [step, hwait]
  · simp only [poll, hhit, hentry]
    have hmoved : ∀ worker, worker ≠ .waiting hit → (s.setWorker w worker).workers w ≠ s.workers w := by
      intro worker hne
      rw [State.setWorker_workers, if_pos rfl, hwait]
      exact hne
    cases hstate : entry.state with
    | running => exact absurd hstate hclosed
    | done =>
      obtain ⟨full, -, hfull, -⟩ := howns.done (howns.status_of_done hstate)
      have hcache : hit.cacheHit = true := by
        have hstage := hhold.stage w
        rw [hwait] at hstage
        cases hstage with
        | waiting hcache => exact hcache
      rw [finishFromCache_done (hledger.submitted hhit).accepted.chunks_pos hcache hstate hfull]
      exact hmoved .idle (by simp)
    | failed =>
      rw [finishFromCache_open (by rw [hstate]; decide)]
      exact hmoved _ (by simp)

/-- A queued job is claimable, or one created before it is. -/
theorem exists_claimable {db : Tables} {job : ReviewJob} (hjob : job ∈ db.jobs.rows)
    (hqueued : job.status = .queued) :
    ∃ first ∈ db.jobs.rows, Claimable db first ∧ first.createdAt ≤ job.createdAt := by
  set queued := db.jobs.rows.filter fun j => j.status = .queued with hqs
  have hmem : job ∈ queued := by simp [hqs, hjob, hqueued]
  cases hfirst : queued.argmin ReviewJob.createdAt with
  | none =>
    rw [List.argmin_eq_none.mp hfirst] at hmem
    cases hmem
  | some first =>
    have hfirstMem : first ∈ queued := List.argmin_mem hfirst
    have hrow : first ∈ db.jobs.rows ∧ first.status = .queued := by simpa [hqs] using hfirstMem
    have hle : ∀ j ∈ queued, first.createdAt ≤ j.createdAt := fun j hj =>
      List.le_of_mem_argmin hj hfirst
    refine ⟨first, hrow.1, ⟨hrow.2, fun other hother ho => hle other ?_⟩, hle job hmem⟩
    simp [hqs, hother, ho]

theorem enabled_of_queued {job : ReviewJob} (hup : s.up = true) (hidle : s.workers w = .idle)
    (hw : w < env.settings.maxConcurrentJobs) (hjob : job ∈ s.db.jobs.rows)
    (hqueued : job.status = .queued) : Enabled (step env) WorkerMoves w s := by
  obtain ⟨first, hfirst, hclaim, -⟩ := exists_claimable hjob hqueued
  refine ⟨.claim w first.id, ?_⟩
  have hget : s.db.jobs.get? first.id = some first := Table.get?_of_mem hfirst
  simp only [step, claim, hup, if_pos, hidle, hget, hw, hclaim, and_self]
  refine ⟨_, rfl, rfl, ?_⟩
  show (s.setWorker w _).workers w ≠ _
  rw [State.setWorker_workers, if_pos rfl, hidle]
  split <;> simp

end Enabled

/-! ## The order of the claims -/

section Order

variable {db db' : Tables}

theorem CreatedInOrder.eq_of_createdAt (horder : CreatedInOrder db) {j j' : ReviewJob}
    (hj : j ∈ db.jobs.rows) (hj' : j' ∈ db.jobs.rows) (h : j.createdAt = j'.createdAt) : j = j' :=
  List.inj_on_of_nodup_map (horder.imp fun h => Nat.ne_of_lt h) hj hj' h

theorem CreatedInOrder.lt_new (horder : CreatedInOrder db') {job : ReviewJob}
    (hjobs : db.jobs.insert? job = some db'.jobs) {j : ReviewJob} (hj : j ∈ db.jobs.rows) :
    j.createdAt < job.createdAt := by
  unfold CreatedInOrder at horder
  rw [Table.rows_insert? hjobs, List.map_append, List.pairwise_append] at horder
  exact horder.2.2 _ (List.mem_map_of_mem hj) _ (by simp)

/-- The running jobs were created before the queued ones. -/
def ClaimedInOrder (db : Tables) : Prop :=
  ∀ ⦃running queued : ReviewJob⦄, running ∈ db.jobs.rows → queued ∈ db.jobs.rows →
    running.status = .running → queued.status = .queued → running.createdAt < queued.createdAt

theorem ClaimedInOrder.empty : ClaimedInOrder Tables.empty := by
  intro running queued hr
  cases hr

/-- A row after a write to a job is the new row or a row of another job. -/
theorem mem_rows_advance {job job' : ReviewJob} (bodies : List EventBody)
    (hjob : db.jobs.get? job.id = some job) (hsame : SameJob job job') {j : ReviewJob}
    (hj : j ∈ (db.advance job' bodies).jobs.rows) : j = job' ∨ j ∈ db.jobs.rows ∧ j.id ≠ job.id := by
  have hget := Table.get?_of_mem hj
  rw [Tables.get?_advance bodies hjob hsame] at hget
  split at hget
  · exact .inl (Option.some.inj hget).symm
  · next hne => exact .inr ⟨(Table.get?_eq_some_iff.mp hget).1, hne⟩

theorem Effect.claimedInOrder (h : Effect env acts s a s') (hhold : Holding env acts s)
    (horder : CreatedInOrder s'.db) (horder₀ : CreatedInOrder s.db) (hq : ClaimedInOrder s.db) :
    ClaimedInOrder s'.db := by
  cases h with
  | still => exact hq
  | move => exact hq
  | kill => exact hq
  | insert hup hparse hkey hinsert =>
    obtain ⟨jobId, hit, now, hjobs, -⟩ := (insertJob_insert env hinsert).jobs_eq
    intro running queued hr hqueued hrunning hstatus
    rw [Table.rows_insert? hjobs, List.mem_append, List.mem_singleton] at hr hqueued
    rcases hr with hr | rfl
    · rcases hqueued with hqueued | rfl
      · exact hq hr hqueued hrunning hstatus
      · exact horder.lt_new hjobs hr
    · cases hrunning
  | claim hup hidle hlt hjob hclaim =>
    intro running queued hr hqueued hrunning hstatus
    have hsame := (Advance.claim hclaim.1).same
    rcases mem_rows_advance _ hjob hsame hqueued with rfl | ⟨hqueued, hne⟩
    · cases hstatus
    · rcases mem_rows_advance _ hjob hsame hr with rfl | ⟨hr, -⟩
      · -- the oldest queued job was claimed, and no two jobs are of one age
        refine lt_of_le_of_ne (hclaim.2 queued hqueued hstatus) fun heq => ?_
        have hmem := (Table.get?_eq_some_iff.mp hjob).1
        exact hne (congrArg ReviewJob.id (horder₀.eq_of_createdAt hmem hqueued heq)).symm
      · exact hq hr hqueued hrunning hstatus
  | @finish _ _ job job' bodies db' hheld hprogress hadv hended hjobs =>
    obtain ⟨hjob, -, -⟩ := hhold.held hheld
    intro running queued hr hqueued hrunning hstatus
    have hrows : db'.jobs.rows = (s.db.advance job' bodies).jobs.rows := congrArg Table.rows hjobs
    change running ∈ db'.jobs.rows at hr
    change queued ∈ db'.jobs.rows at hqueued
    rw [hrows] at hr hqueued
    rcases mem_rows_advance _ hjob hadv.same hqueued with rfl | ⟨hqueued, -⟩
    · rcases hended with h | h <;> cases h.symm.trans hstatus
    · rcases mem_rows_advance _ hjob hadv.same hr with rfl | ⟨hr, -⟩
      · rcases hended with h | h <;> cases h.symm.trans hrunning
      · exact hq hr hqueued hrunning hstatus
  | recover hdown hperm =>
    intro running queued hr hqueued hrunning hstatus
    exact absurd hrunning (recoverAbandonedJobs_not_running hperm (Table.get?_of_mem hr))

end Order

/-- In every run the jobs are claimed first come, first served. -/
theorem run_claimedInOrder (h : Run (step env) State.init acts s) (horder : CreatedInOrder s.db) :
    ClaimedInOrder s.db := by
  refine h.invariant_trace (P := fun _ s => CreatedInOrder s.db → ClaimedInOrder s.db)
    (fun _ => .empty) ?_ horder
  intro acts t a t' hrun hq ht horder'
  obtain ⟨hledger, hhold⟩ := run_invariants hrun
  have hacts : ∀ b ∈ acts, b ∈ acts ++ [a] := fun b hb => List.mem_append_left _ hb
  have heffect := step_effect hledger hhold ht
  have horder := heffect.writes.createdInOrder horder'
  exact heffect.claimedInOrder (hhold.mono hacts) horder' horder (hq horder)

/-! ## The rank -/

section Rank

variable (p : Nat → Bool)

/-- The queued jobs among those whose time of creation satisfies `p`. -/
def queuedFor (db : Tables) : Nat :=
  db.jobs.rows.countP fun job => job.status = .queued && p job.createdAt

/-- The steps left of a worker that holds such a job. -/
def stepsFor (worker : Worker) : Nat :=
  if worker.job?.any fun job => p job.createdAt then worker.stepsLeft else 0

/-- The transactions that `n` workers still have to make for such jobs: at most four for a job
that is queued, the claim among them. -/
def rank (n : Nat) (s : State) : Nat :=
  4 * queuedFor p s.db + ∑ w ∈ Finset.range n, stepsFor p (s.workers w)

variable {p} {n w : Nat}

theorem stepsFor_of_job {worker : Worker} {job : ReviewJob} (h : worker.job? = some job) :
    stepsFor p worker = if p job.createdAt then worker.stepsLeft else 0 := by
  rw [stepsFor, h, Option.any_some]

theorem stepsFor_idle : stepsFor p .idle = 0 := rfl

theorem sum_setWorker (hw : w < n) (worker : Worker) :
    (∑ v ∈ Finset.range n, stepsFor p ((s.setWorker w worker).workers v)) + stepsFor p (s.workers w)
      = (∑ v ∈ Finset.range n, stepsFor p (s.workers v)) + stepsFor p worker := by
  have hmem : w ∈ Finset.range n := Finset.mem_range.mpr hw
  rw [← Finset.add_sum_erase _ _ hmem, ← Finset.add_sum_erase _ (fun v => stepsFor p (s.workers v)) hmem]
  have hrest : ∑ v ∈ (Finset.range n).erase w, stepsFor p ((s.setWorker w worker).workers v)
      = ∑ v ∈ (Finset.range n).erase w, stepsFor p (s.workers v) := by
    refine Finset.sum_congr rfl fun v hv => ?_
    rw [State.setWorker_workers, if_neg (Finset.ne_of_mem_erase hv)]
  rw [hrest, State.setWorker_workers, if_pos rfl]
  omega

/-- The rank after one worker and the tables have changed. -/
theorem rank_setWorker (hw : w < n) (worker : Worker) (db : Tables) :
    rank p n { s.setWorker w worker with db := db } + stepsFor p (s.workers w) + 4 * queuedFor p s.db
      = rank p n s + stepsFor p worker + 4 * queuedFor p db := by
  have hsum := sum_setWorker (p := p) (s := s) hw worker
  unfold rank
  simp only
  omega

/-- The queued jobs after a write to a job. -/
theorem queuedFor_replace {db : Tables} {job job' : ReviewJob}
    (hjob : db.jobs.get? job.id = some job) (hsame : SameJob job job') :
    (db.jobs.replace job').rows.countP (fun j => j.status = .queued && p j.createdAt)
        + (if job.status = .queued && p job.createdAt then 1 else 0)
      = queuedFor p db + if job'.status = .queued && p job.createdAt then 1 else 0 := by
  rw [queuedFor, ← hsame.createdAt]
  have hcount := Table.countP_replace (r := job') (hsame.id ▸ hjob)
    fun j => j.status = .queued && p j.createdAt
  rwa [hsame.createdAt] at hcount ⊢

theorem queuedFor_claim {db : Tables} {job : ReviewJob} (hjob : db.jobs.get? job.id = some job)
    (hqueued : job.status = .queued) :
    queuedFor p (db.advance { job with status := .running } [.status .running none])
      + (if p job.createdAt then 1 else 0) = queuedFor p db := by
  have hcount := queuedFor_replace (p := p) hjob (Advance.claim hqueued).same
  simp only [hqueued, decide_true, Bool.true_and, reduceCtorEq, decide_false, Bool.false_and,
    Bool.false_eq_true, if_false] at hcount
  exact hcount

theorem queuedFor_finish {db db' : Tables} {job job' : ReviewJob}
    (hjob : db.jobs.get? job.id = some job) (hsame : SameJob job job')
    (hrunning : job.status = .running) (hended : job'.status ≠ .queued)
    (hjobs : db'.jobs = db.jobs.replace job') : queuedFor p db' = queuedFor p db := by
  have hcount := queuedFor_replace (p := p) hjob hsame
  rw [← hjobs] at hcount
  simpa [hrunning, hended, queuedFor] using hcount

end Rank

/-- The job worker `w` works on next: the one it holds, or one it can claim. -/
def WorksOn (s : State) (w : Nat) (job : ReviewJob) : Prop :=
  (s.workers w).job? = some job ∨
    s.workers w = .idle ∧ s.db.jobs.get? job.id = some job ∧ Claimable s.db job

/-- A step of a worker changes nothing or takes from the rank of its job. -/
theorem step_rank {w : Nat} (hledger : Ledger env acts s.db) (hhold : Holding env acts s)
    (h : step env s a = some s') (hw : a.worker? = some w) :
    s' = s ∨ w < env.settings.maxConcurrentJobs ∧ ∃ job, WorksOn s w job ∧
      ∀ p, rank p env.settings.maxConcurrentJobs s' + (if p job.createdAt then 1 else 0)
        ≤ rank p env.settings.maxConcurrentJobs s := by
  have hmoved : ∀ v, (s.workers v).job? ≠ none → s'.workers v ≠ s.workers v →
      v = w ∧ (s'.workers v).stepsLeft < (s.workers v).stepsLeft := by
    intro v hbusy hne
    rcases step_stepsLeft h hne with rfl | ⟨hidle, -⟩ | ⟨hv, hlt⟩
    · cases hw
    · rw [hidle] at hbusy
      exact absurd rfl hbusy
    · exact ⟨Option.some.inj (hv.symm.trans hw), hlt⟩
  have heffect := step_effect hledger hhold h
  cases heffect with
  | still => exact .inl rfl
  | insert => cases hw
  | kill => cases hw
  | recover => cases hw
  | @claim v job worker hup hidle hlt hjob hclaim hworker hstage =>
    cases hw
    refine .inr ⟨hlt, job, .inr ⟨hidle, hjob, hclaim⟩, fun p => ?_⟩
    have hrank := rank_setWorker (p := p) (s := s) hlt worker
      (s.db.advance { job with status := .running } [.status .running none])
    have hqueued := queuedFor_claim (p := p) hjob hclaim.1
    have hle := worker.stepsLeft_le
    rw [hidle, stepsFor_idle, stepsFor_of_job hworker] at hrank
    by_cases hp : p job.createdAt = true
    · rw [if_pos hp] at hrank hqueued ⊢
      omega
    · rw [if_neg hp] at hrank hqueued ⊢
      omega
  | @move _ v job worker hheld hworker hstage =>
    by_cases hsame : worker = s.workers v
    · refine .inl ?_
      rw [hsame, State.setWorker, Function.update_eq_self]
    · have hnew : (s.setWorker v worker).workers v = worker := Function.update_self ..
      obtain ⟨rfl, hlt⟩ := hmoved v (by rw [hheld]; simp) (by rwa [hnew])
      rw [hnew] at hlt
      have hv := (hhold.held hheld).2.2
      refine .inr ⟨hv, job, .inl hheld, fun p => ?_⟩
      have hrank := rank_setWorker (p := p) (s := s) hv worker s.db
      rw [stepsFor_of_job hheld, stepsFor_of_job hworker] at hrank
      change rank p _ (s.setWorker v worker) + _ + _ = _ at hrank
      by_cases hp : p job.createdAt = true
      · simp only [if_pos hp] at hrank ⊢
        omega
      · simp only [if_neg hp] at hrank ⊢
        omega
  | @finish _ v job job' bodies db' hheld hprogress hadv hended hjobs =>
    have hnew : (s.setWorker v .idle).workers v = .idle := Function.update_self ..
    have hpos := Worker.stepsLeft_pos hheld
    obtain ⟨rfl, -⟩ := hmoved v (by rw [hheld]; simp) fun heq => by
      rw [← heq, show ({ s.setWorker v .idle with db := db' } : State).workers v = .idle from hnew] at hheld
      cases hheld
    obtain ⟨hjob, hrunning, hv⟩ := hhold.held hheld
    refine .inr ⟨hv, job, .inl hheld, fun p => ?_⟩
    have hrank := rank_setWorker (p := p) (s := s) hv .idle db'
    have hqueued := queuedFor_finish (p := p) hjob hadv.same hrunning
      (by rcases hended with h | h <;> rw [h] <;> decide) hjobs
    rw [stepsFor_of_job hheld, stepsFor_idle, hqueued] at hrank
    by_cases hp : p job.createdAt = true
    · rw [if_pos hp] at hrank ⊢
      omega
    · rw [if_neg hp] at hrank ⊢
      omega

end DiffReview
