import DiffReview.Service.Transactions

/-!
# DiffReview — who holds which job

The invariant of the workers (`Holding`): in a live process the running jobs are the ones
its workers hold, each by one worker that is where its job allows.
-/

namespace DiffReview

open Py Raise Transition

/-- Where a worker can be with its job. -/
inductive Stage (env : Env) (acts : List Action) (db : Tables) : Worker → Prop where
  | idle : Stage env acts db .idle
  | waiting {job : ReviewJob} (hhit : job.cacheHit = true) : Stage env acts db (.waiting job)
  | reviewing {job : ReviewJob} (hsource : job.cacheHit = false) : Stage env acts db (.reviewing job)
  | storing {job : ReviewJob} {full : List Finding} (hsource : job.cacheHit = false)
      (hfull : Reviewed env acts job (.ok full)) : Stage env acts db (.storing job full)
  | failingSource {job : ReviewJob} {exc : PyError} (hsource : job.cacheHit = false)
      (hexc : Reviewed env acts job (.error exc)) : Stage env acts db (.failing job exc)
  | failingHit {job : ReviewJob} {entry : CacheEntry} (exc : PyError) (hhit : job.cacheHit = true)
      (hentry : db.cache.get? job.requestHash = some entry) (hfailed : entry.state = .failed) :
      Stage env acts db (.failing job exc)

structure Holding (env : Env) (acts : List Action) (s : State) : Prop where
  down : s.up = false → ∀ w, s.workers w = .idle
  held : ∀ {w job}, (s.workers w).job? = some job → s.db.jobs.get? job.id = some job ∧
    job.status = .running ∧ w < env.settings.maxConcurrentJobs
  distinct : ∀ {w w' job job'}, (s.workers w).job? = some job → (s.workers w').job? = some job' →
    job.id = job'.id → w = w'
  running : s.up = true → ∀ {id job}, s.db.jobs.get? id = some job → job.status = .running →
    ∃ w, (s.workers w).job? = some job
  stage : ∀ w, Stage env acts s.db (s.workers w)

theorem Holding.init (env : Env) : Holding env [] State.init where
  down := nofun
  held := nofun
  distinct := nofun
  running := fun _ => nofun
  stage := fun _ => .idle

section Lookup

variable {s : State} {w w' : Nat} {worker : Worker}

@[simp] theorem State.setWorker_db : (s.setWorker w worker).db = s.db := rfl

@[simp] theorem State.setWorker_up : (s.setWorker w worker).up = s.up := rfl

theorem State.setWorker_workers :
    (s.setWorker w worker).workers w' = if w' = w then worker else s.workers w' :=
  Function.update_apply _ _ _ _

end Lookup

section Stages

variable {env : Env} {acts acts' : List Action} {db db' : Tables}

theorem Stage.mono {worker : Worker} (h : Stage env acts db worker)
    (hacts : ∀ a ∈ acts, a ∈ acts')
    (hclosed : ∀ {hash entry}, db.cache.get? hash = some entry → entry.state ≠ .running →
      db'.cache.get? hash = some entry) : Stage env acts' db' worker := by
  cases h with
  | idle => exact .idle
  | waiting hhit => exact .waiting hhit
  | reviewing hsource => exact .reviewing hsource
  | storing hsource hfull => exact .storing hsource (hfull.mono hacts)
  | failingSource hsource hexc => exact .failingSource hsource (hexc.mono hacts)
  | failingHit exc hhit hentry hfailed =>
    exact .failingHit exc hhit (hclosed hentry (by rw [hfailed]; decide)) hfailed

theorem Writes.entry_closed (h : Writes env acts db db') {hash : Str} {entry : CacheEntry}
    (hentry : db.cache.get? hash = some entry) (hclosed : entry.state ≠ .running) :
    db'.cache.get? hash = some entry := by
  induction h with
  | refl => exact hentry
  | tail _ hwrite ih => exact hwrite.entry_closed ih hclosed

end Stages

theorem Holding.mono {env : Env} {acts acts' : List Action} {s : State}
    (hacts : ∀ a ∈ acts, a ∈ acts') (h : Holding env acts s) : Holding env acts' s :=
  { h with stage := fun w => (h.stage w).mono hacts fun hentry _ => hentry }

section Moves

variable {env : Env} {acts : List Action} {s : State} {db' : Tables} {w : Nat}

/-- A worker goes on with the job it holds; the tables are not touched. -/
theorem Holding.move (h : Holding env acts s) {worker : Worker}
    (hjob : worker.job? = (s.workers w).job?) (hbusy : (s.workers w).job? ≠ none)
    (hstage : Stage env acts s.db worker) : Holding env acts (s.setWorker w worker) := by
  have hjob? : ∀ v, ((s.setWorker w worker).workers v).job? = (s.workers v).job? := by
    intro v
    rw [State.setWorker_workers]
    split
    · subst v
      exact hjob
    · rfl
  refine ⟨fun hdown => ?_, fun {v job} hv => ?_, fun {v v' j j'} hv hv' => ?_, fun hup => ?_,
    fun v => ?_⟩
  · rw [h.down hdown w] at hbusy
    exact absurd rfl hbusy
  · exact h.held (hjob? v ▸ hv)
  · exact h.distinct (hjob? v ▸ hv) (hjob? v' ▸ hv')
  · intro id job hget hrunning
    obtain ⟨v, hv⟩ := h.running hup hget hrunning
    exact ⟨v, (hjob? v).trans hv⟩
  · rw [State.setWorker_workers]
    split
    · exact hstage
    · exact (h.stage v).mono (fun _ ha => ha) fun hentry _ => hentry

/-- An idle worker takes a job that was not running. -/
theorem Holding.take (h : Holding env acts s) {worker : Worker}
    {job : ReviewJob} (hidle : s.workers w = .idle) (hlt : w < env.settings.maxConcurrentJobs)
    (hup : s.up = true) (hworker : worker.job? = some job) (hrunning : job.status = .running)
    (hfree : ∀ {j}, s.db.jobs.get? job.id = some j → j.status ≠ .running)
    (hget : ∀ id, db'.jobs.get? id = if id = job.id then some job else s.db.jobs.get? id)
    (hclosed : ∀ {hash entry}, s.db.cache.get? hash = some entry → entry.state ≠ .running →
      db'.cache.get? hash = some entry)
    (hstage : Stage env acts db' worker) :
    Holding env acts { s.setWorker w worker with db := db' } := by
  have hjob? : ∀ v, ((s.setWorker w worker).workers v).job?
      = if v = w then some job else (s.workers v).job? := by
    intro v
    rw [State.setWorker_workers]
    split
    · exact hworker
    · rfl
  have hne : ∀ {v j}, (s.workers v).job? = some j → j.id ≠ job.id := by
    intro v j hv heq
    obtain ⟨hj, hr, -⟩ := h.held hv
    exact hfree (heq ▸ hj) hr
  refine ⟨fun hdown => ?_, fun {v j} hv => ?_, fun {v v' j j'} hv hv' hid => ?_, fun _ => ?_,
    fun v => ?_⟩
  · exact nomatch hup.symm.trans hdown
  · rw [hjob?] at hv
    rw [hget]
    split at hv
    · next hvw =>
      cases hv
      exact ⟨if_pos rfl, hrunning, hvw ▸ hlt⟩
    · obtain ⟨hj, hr, hv'⟩ := h.held hv
      exact ⟨(if_neg (hne hv)).trans hj, hr, hv'⟩
  · rw [hjob?] at hv hv'
    split at hv <;> split at hv'
    · next h₁ h₂ => exact h₁.trans h₂.symm
    · cases hv
      exact absurd hid.symm (hne hv')
    · cases hv'
      exact absurd hid (hne hv)
    · exact h.distinct hv hv' hid
  · intro id j hj hr
    rw [hget] at hj
    split at hj
    · cases hj
      exact ⟨w, (hjob? w).trans (if_pos rfl)⟩
    · obtain ⟨v, hv⟩ := h.running hup hj hr
      have hvw : v ≠ w := by
        rintro rfl
        rw [hidle] at hv
        cases hv
      exact ⟨v, (hjob? v).trans ((if_neg hvw).trans hv)⟩
  · change Stage env acts db' ((s.setWorker w worker).workers v)
    rw [State.setWorker_workers]
    split
    · exact hstage
    · exact (h.stage v).mono (fun _ ha => ha) hclosed

/-- A worker lets go of its job, which has ended. -/
theorem Holding.release (h : Holding env acts s)
    {job : ReviewJob} (job' : ReviewJob) (hworker : (s.workers w).job? = some job)
    (hended : job'.status ≠ .running)
    (hget : ∀ id, db'.jobs.get? id = if id = job.id then some job' else s.db.jobs.get? id)
    (hclosed : ∀ {hash entry}, s.db.cache.get? hash = some entry → entry.state ≠ .running →
      db'.cache.get? hash = some entry) :
    Holding env acts { s.setWorker w .idle with db := db' } := by
  have hother : ∀ {v j}, ((s.setWorker w .idle).workers v).job? = some j →
      (s.workers v).job? = some j ∧ j.id ≠ job.id := by
    intro v j hv
    rw [State.setWorker_workers] at hv
    split at hv
    · cases hv
    · next hvw => exact ⟨hv, fun heq => hvw (h.distinct hv hworker heq)⟩
  refine ⟨fun hdown v => ?_, fun {v j} hv => ?_, fun {v v' j j'} hv hv' hid => ?_, fun hup => ?_,
    fun v => ?_⟩
  · rw [h.down hdown w] at hworker
    cases hworker
  · obtain ⟨hv, hne⟩ := hother hv
    rw [hget]
    obtain ⟨hj, hr, hlt⟩ := h.held hv
    exact ⟨(if_neg hne).trans hj, hr, hlt⟩
  · exact h.distinct (hother hv).1 (hother hv').1 hid
  · intro id j hj hr
    rw [hget] at hj
    split at hj
    · cases hj
      exact absurd hr hended
    · next hid =>
      obtain ⟨v, hv⟩ := h.running hup hj hr
      refine ⟨v, ?_⟩
      change ((s.setWorker w .idle).workers v).job? = some j
      rw [State.setWorker_workers, if_neg, hv]
      -- worker `w` held another job
      rintro rfl
      rw [hworker] at hv
      cases hv
      exact hid (Table.key_of_get? hj).symm
  · change Stage env acts db' ((s.setWorker w .idle).workers v)
    rw [State.setWorker_workers]
    split
    · exact .idle
    · exact (h.stage v).mono (fun _ ha => ha) hclosed

/-- The rows of the running jobs stay; new rows are not running. -/
theorem Holding.submitted (h : Holding env acts s)
    {job : ReviewJob} (hnew : job.status = .queued)
    (hjobs : s.db.jobs.insert? job = some db'.jobs)
    (hclosed : ∀ {hash entry}, s.db.cache.get? hash = some entry → entry.state ≠ .running →
      db'.cache.get? hash = some entry) : Holding env acts { s with db := db' } where
  down := h.down
  held hv := by
    obtain ⟨hj, hr, hlt⟩ := h.held hv
    exact ⟨Table.get?_insert?_of_get? hjobs hj, hr, hlt⟩
  distinct := h.distinct
  running hup {id j} hj hr := by
    have hget := Table.get?_insert? hjobs id
    rw [hj] at hget
    split at hget
    · cases hget
      cases hnew.symm.trans hr
    · exact h.running hup hget.symm hr
  stage w := (h.stage w).mono (fun _ ha => ha) hclosed

end Moves

end DiffReview
