import DiffReview.Service.Waiting

/-!
# DiffReview — why a job fails

A job that failed had its own review fail, or hangs on a source that failed after the job
was accepted: so it is in every run in which no submission is bound to an entry that has
already failed (`failures_have_causes_iff`), and in no other. `create_or_reuse_job` asks
only whether there is an entry, so such submissions do happen.
-/

namespace DiffReview

open Py Transition

/-- The source failed after the job was accepted: its failed event stands after the first
event of the job. -/
def FailedAfter (events : List JobEvent) (srcId jobId : Str) : Prop :=
  ∃ pre post message sequence, events = pre ++ ⟨jobId, 1, .status .queued none⟩ :: post ∧
    ⟨srcId, sequence, .status .failed (some message)⟩ ∈ post

theorem FailedAfter.append {events : List JobEvent} {srcId jobId : Str}
    (h : FailedAfter events srcId jobId) (added : List JobEvent) :
    FailedAfter (events ++ added) srcId jobId := by
  obtain ⟨pre, post, message, sequence, rfl, hfailed⟩ := h
  refine ⟨pre, post ++ added, message, sequence, ?_, List.mem_append_left _ hfailed⟩
  rw [List.append_assoc, List.cons_append]

/-- Every job bound to a failed entry was accepted before that entry failed. -/
def FailuresAreLate (db : Tables) : Prop :=
  ∀ ⦃job : ReviewJob⦄ ⦃entry : CacheEntry⦄, db.jobs.get? job.id = some job → job.cacheHit = true →
    db.cache.get? job.requestHash = some entry → entry.state = .failed →
    FailedAfter db.events entry.sourceJobId job.id

/-- The job failed with a review of its own, or with a source that failed after the job
was accepted. -/
def FailedForCause (env : Env) (acts : List Action) (db : Tables) (job : ReviewJob) : Prop :=
  (job.cacheHit = false ∧ ∃ exc, Reviewed env acts job (.error exc)) ∨
  ∃ src, db.jobs.get? src.id = some src ∧ src.requestHash = job.requestHash ∧
    src.cacheHit = false ∧ src.status = .failed ∧ FailedAfter db.events src.id job.id

structure FailuresHaveCauses (env : Env) (acts : List Action) (db : Tables) : Prop where
  late : FailuresAreLate db
  cause : ∀ job ∈ db.jobs.rows, job.status = .failed → FailedForCause env acts db job

/-- A new job of a request hash whose entry has already failed. -/
def ReusesFailedEntry (env : Env) (s : State) : Action → Prop
  | .submit rawBody key jobId _ => s.up = true ∧ ∃ sub entry,
      parseSubmission env rawBody = .ok sub ∧
      (truthyKey key).bind s.db.idempotency.get? = none ∧ s.db.jobs.get? jobId = none ∧
      s.db.cache.get? sub.requestHash = some entry ∧ entry.state = .failed
  | _ => False

/-- No step of the run reuses a failed entry. -/
def AvoidsFailedEntries (env : Env) (acts : List Action) : Prop :=
  ∀ pre a post t, acts = pre ++ a :: post → Run (step env) State.init pre t →
    ¬ ReusesFailedEntry env t a

/-! ## What each write keeps -/

section Writes

variable {env : Env} {acts : List Action} {db db' : Tables}

theorem Logged.first_event (hlog : Logged db) {id : Str} {job : ReviewJob}
    (hjob : db.jobs.get? id = some job) :
    ∃ rest, eventsOf db.events id = ⟨id, 1, .status .queued none⟩ :: rest := by
  have hnum := hlog.numbered hjob
  have hhead := (hlog.log hjob).head?_eq
  unfold Numbered at hnum
  unfold logOf at hhead
  cases hevents : eventsOf db.events id with
  | nil =>
    rw [hevents] at hhead
    cases hhead
  | cons e rest =>
    rw [hevents] at hnum hhead
    have hid : e.jobId = id := by
      have hmem : e ∈ eventsOf db.events id := by simp [hevents]
      simpa [eventsOf] using (List.mem_filter.mp hmem).2
    have hseq : e.sequence = 1 := (List.cons.inj hnum).1
    have hbody : e.body = .status .queued none := Option.some.inj hhead
    refine ⟨rest, ?_⟩
    rw [← hid, ← hseq, ← hbody]

/-- The failed event that a source's end appends comes after the acceptance of its hits. -/
theorem Logged.failedAfter (hlog : Logged db) {id srcId message : Str} {job : ReviewJob}
    (hjob : db.jobs.get? id = some job) :
    FailedAfter (appendEvents db.events srcId [.status .failed (some message)]) srcId id := by
  obtain ⟨rest, hfirst⟩ := hlog.first_event hjob
  have hmem : (⟨id, 1, .status .queued none⟩ : JobEvent) ∈ db.events :=
    (List.mem_filter.mp (show _ ∈ eventsOf db.events id from by rw [hfirst]; simp)).1
  obtain ⟨pre, post, hsplit⟩ := List.append_of_mem hmem
  refine ⟨pre, post ++ [⟨srcId, maxSequence db.events srcId + 1, .status .failed (some message)⟩],
    message, _, ?_, List.mem_append_right _ (List.mem_singleton.mpr rfl)⟩
  rw [show appendEvents db.events srcId [.status .failed (some message)]
    = db.events ++ [⟨srcId, maxSequence db.events srcId + 1, .status .failed (some message)⟩] from rfl]
  generalize maxSequence db.events srcId + 1 = sequence
  rw [hsplit, List.append_assoc, List.cons_append]

/-- Writes that fail no entry and make no job keep the failures late. -/
theorem FailuresAreLate.of_same_entries (hlate : FailuresAreLate db) {id : Str}
    {bodies : List EventBody} (hevents : db'.events = appendEvents db.events id bodies)
    (hjobs : ∀ {job}, db'.jobs.get? job.id = some job → ∃ old, db.jobs.get? job.id = some old ∧
      SameJob old job)
    (hcache : ∀ {hash entry}, db'.cache.get? hash = some entry → entry.state = .failed →
      db.cache.get? hash = some entry) : FailuresAreLate db' := by
  intro job entry hjob hhit hentry hfailed
  obtain ⟨added, happ, -, -⟩ := appendEvents_eq_append db.events id bodies
  obtain ⟨old, hold, hsame⟩ := hjobs hjob
  rw [hevents, happ]
  have hlate' := @hlate old entry (hsame.id ▸ hold) (hsame.cacheHit ▸ hhit)
    (hsame.requestHash ▸ hcache hentry hfailed) hfailed
  rw [hsame.id]
  exact hlate'.append added

theorem Progress.same_jobs (h : Progress env acts db db') {id : Str} {job : ReviewJob}
    (hget : db'.jobs.get? id = some job) : ∃ old, db.jobs.get? id = some old ∧ SameJob old job := by
  obtain ⟨j, j', bodies, hj, hadv, hjobs, -⟩ := h.jobs_eq
  have hrows := Tables.get?_advance bodies hj hadv.same id
  rw [show (db.advance j' bodies).jobs = db.jobs.replace j' from rfl, ← hjobs, hget] at hrows
  split at hrows
  · next hid =>
    cases hrows
    exact ⟨j, hid ▸ hj, hadv.same⟩
  · exact ⟨job, hrows.symm, rfl, rfl, rfl, rfl, rfl, rfl, rfl, rfl, rfl⟩

theorem Progress.failuresAreLate (h : Progress env acts db db') (hledger : Ledger env acts db)
    (hlate : FailuresAreLate db) : FailuresAreLate db' := by
  have hjobs : ∀ {job : ReviewJob}, db'.jobs.get? job.id = some job →
      ∃ old, db.jobs.get? job.id = some old ∧ SameJob old job := fun {_} => h.same_jobs
  have hsettle : ∀ {k : Str} {e : CacheEntry} (e' : CacheEntry) {hash : Str} {entry : CacheEntry},
      db.cache.get? k = some e → e'.requestHash = e.requestHash →
      (db.cache.replace e').get? hash = some entry →
      entry = e' ∨ db.cache.get? hash = some entry := by
    intro k e e' hash entry he hkey hentry
    have hmem : e'.requestHash ∈ db.cache.keys := by
      rw [hkey, Table.key_of_get? he]
      exact Table.mem_keys_of_get? he
    rw [Table.get?_replace hmem] at hentry
    split at hentry
    · exact .inl (Option.some.inj hentry).symm
    · exact .inr hentry
  cases h with
  | start => exact hlate.of_same_entries rfl hjobs fun hentry _ => hentry
  | requeue => exact hlate.of_same_entries rfl hjobs fun hentry _ => hentry
  | copy => exact hlate.of_same_entries rfl hjobs fun hentry _ => hentry
  | failHit => exact hlate.of_same_entries rfl hjobs fun hentry _ => hentry
  | @store job e full hjob hrunning hsource he =>
    refine hlate.of_same_entries rfl hjobs fun {hash entry} hentry hfailed => ?_
    rcases hsettle { e with findings := some (full.map Finding.modelDump), state := .done }
      he rfl hentry with rfl | hentry
    · cases hfailed
    · exact hentry
  | @failSource job e exc hjob hrunning hsource he howner hopen hexc =>
    intro hit entry hhit hcache hentry hfailed
    obtain ⟨old, hold, hsame⟩ := hjobs hhit
    rcases hsettle { e with state := .failed } he rfl hentry with rfl | hentry
    · rw [howner]
      exact hledger.logged.failedAfter hold
    · have hlate' := @hlate old entry (hsame.id ▸ hold)
        (hsame.cacheHit ▸ hcache) (hsame.requestHash ▸ hentry) hfailed
      obtain ⟨added, happ, -, -⟩ := appendEvents_eq_append db.events job.id
        [.status .failed (some (errorMessage env exc))]
      rw [hsame.id]
      change FailedAfter (appendEvents db.events job.id _) _ _
      rw [happ]
      exact hlate'.append added

theorem progresses_failuresAreLate (h : Relation.ReflTransGen (Progress env acts) db db')
    (hledger : Ledger env acts db) (hlate : FailuresAreLate db) : FailuresAreLate db' := by
  suffices Ledger env acts db' ∧ FailuresAreLate db' from this.2
  induction h with
  | refl => exact ⟨hledger, hlate⟩
  | tail _ hp ih => exact ⟨(Write.progress hp).ledger ih.1, hp.failuresAreLate ih.1 ih.2⟩

end Writes

/-! ## Runs -/

section Runs

variable {env : Env} {acts : List Action} {s s' : State} {a : Action}

theorem Effect.failuresAreLate (h : Effect env acts s a s') (hledger : Ledger env acts s.db)
    (hgood : ¬ ReusesFailedEntry env s a) (hlate : FailuresAreLate s.db) :
    FailuresAreLate s'.db := by
  cases h with
  | still => exact hlate
  | move => exact hlate
  | kill => exact hlate
  | claim hup hidle hlt hjob hclaim =>
    have hprogress : Progress env acts s.db _ := .start hjob hclaim.1
    exact hprogress.failuresAreLate hledger hlate
  | finish _ hprogress => exact hprogress.failuresAreLate hledger hlate
  | recover hdown hperm =>
    obtain ⟨hnd, hmem⟩ := perm_runningJobs hperm
    exact progresses_failuresAreLate
      (recoverAbandonedJobs_progress hnd fun job hj => (hmem job).mp hj) hledger hlate
  | @insert rawBody key jobId now sub job db' hup hparse hkey hinsert =>
    obtain ⟨jobs, hjobs, hrest⟩ := Option.bind_eq_some_iff.mp hinsert
    obtain ⟨cache, hcache, hrest⟩ := Option.bind_eq_some_iff.mp hrest
    obtain ⟨idempotency, -, hrest⟩ := Option.bind_eq_some_iff.mp hrest
    cases hrest
    have hfresh : s.db.jobs.get? jobId = none := Table.get?_of_insert? hjobs
    intro hit entry hhit hcacheHit hentry hfailed
    have hget := Table.get?_insert? hjobs hit.id
    rw [show jobs.get? hit.id = some hit from hhit] at hget
    -- the entry is the one the submission found
    have hold : s.db.cache.get? hit.requestHash = some entry := by
      change cache.get? hit.requestHash = some entry at hentry
      unfold insertEntry at hcache
      cases hfound : s.db.cache.get? sub.requestHash with
      | some e =>
        rw [hfound] at hcache
        cases hcache
        exact hentry
      | none =>
        rw [hfound] at hcache
        rw [Table.get?_insert? hcache] at hentry
        split at hentry
        · cases hentry
          cases hfailed
        · exact hentry
    split at hget
    · cases hget
      exact absurd ⟨hup, sub, entry, hparse, hkey, hfresh, hold, hfailed⟩ hgood
    · exact (hlate hget.symm hcacheHit hold hfailed).append _

/-- A job bound to an entry that has failed already is accepted after the failure. -/
theorem ReusesFailedEntry.not_late (h : ReusesFailedEntry env s a) (hledger : Ledger env acts s.db)
    (hstep : step env s a = some s') : ¬ FailuresAreLate s'.db := by
  cases a with
  | submit rawBody key jobId now =>
    obtain ⟨hup, sub, entry, hparse, hkey, hfresh, hentry, hfailed⟩ := h
    have hins : ∃ jobs, s.db.jobs.insert? (newJob sub jobId true now) = some jobs :=
      ⟨_, Table.insert?_eq_some_iff.mpr ⟨hfresh, rfl⟩⟩
    obtain ⟨jobs, hjobs⟩ := hins
    have hrecord : ∃ idempotency,
        insertRecord s.db (truthyKey key) sub.rawBodyHash jobId = some idempotency := by
      cases hk : truthyKey key with
      | none => exact ⟨_, rfl⟩
      | some k =>
        rw [hk] at hkey
        exact ⟨_, Table.insert?_eq_some_iff.mpr ⟨hkey, rfl⟩⟩
    obtain ⟨idempotency, hrecord⟩ := hrecord
    have hcreate : createOrReuseJob s.db sub key jobId now = .ok (newJob sub jobId true now,
        ⟨jobs, idempotency, s.db.cache, appendEvent s.db.events jobId (.status .queued none)⟩) := by
      simp [createOrReuseJob, hkey, insertJob, insertEntry, hentry, hjobs, hrecord]
    have hsubmit : submit env s rawBody key jobId now = createOrReuseJob s.db sub key jobId now := by
      rw [submit, hparse]
      rfl
    simp only [step, if_pos hup, hsubmit, hcreate] at hstep
    cases hstep
    intro hlate
    obtain ⟨pre, post, message, sequence, hevents, hmem⟩ := @hlate (newJob sub jobId true now) _
      ((Table.get?_insert? hjobs _).trans (if_pos rfl)) rfl hentry hfailed
    -- the queued event of the new job is the last one, and its only one
    have hnew : (⟨jobId, 1, .status .queued none⟩ : JobEvent) ∉ s.db.events := by
      intro hold
      have hnone := hledger.logged.known hfresh
      have hmem : (⟨jobId, 1, .status .queued none⟩ : JobEvent) ∈ eventsOf s.db.events jobId :=
        List.mem_filter.mpr ⟨hold, by simp⟩
      rw [hnone] at hmem
      cases hmem
    have hlast : appendEvent s.db.events jobId (.status .queued none)
        = s.db.events ++ [⟨jobId, maxSequence s.db.events jobId + 1, .status .queued none⟩] := rfl
    change appendEvent s.db.events jobId _ = pre ++ ⟨jobId, 1, _⟩ :: post at hevents
    rw [hlast] at hevents
    rcases List.append_eq_append_iff.mp hevents with ⟨mid, -, hmid⟩ | ⟨mid, hold, hmid⟩
    · cases mid with
      | nil =>
        rw [List.nil_append] at hmid
        rw [← (List.cons.inj hmid).2] at hmem
        cases hmem
      | cons e mid =>
        have hlen := congrArg List.length hmid
        simp at hlen
    · cases mid with
      | nil =>
        rw [List.nil_append] at hmid
        rw [(List.cons.inj hmid).2] at hmem
        cases hmem
      | cons e mid =>
        refine hnew ?_
        rw [hold, ← (List.cons.inj hmid).1]
        simp
  | _ => exact absurd h id

theorem AvoidsFailedEntries.of_append {post : List Action}
    (h : AvoidsFailedEntries env (acts ++ post)) : AvoidsFailedEntries env acts := by
  intro pre a rest t hacts
  refine h pre a (rest ++ post) t ?_
  rw [hacts, List.append_assoc, List.cons_append]

theorem run_failuresAreLate (hrun : Run (step env) State.init acts s)
    (havoid : AvoidsFailedEntries env acts) : FailuresAreLate s.db := by
  refine hrun.invariant_trace
    (P := fun acts s => AvoidsFailedEntries env acts → FailuresAreLate s.db) (fun _ => ?_) ?_ havoid
  · intro job entry hjob
    cases (show none = some job from hjob)
  · intro acts t a t' hrun hlate ht havoid
    obtain ⟨hledger, hhold⟩ := run_invariants hrun
    have hacts : ∀ b ∈ acts, b ∈ acts ++ [a] := fun b hb => List.mem_append_left _ hb
    exact (step_effect hledger hhold ht).failuresAreLate (hledger.mono hacts)
      (havoid acts a [] t rfl hrun) (hlate havoid.of_append)

/-- When failures are late, every failed job has its cause. -/
theorem Ledger.failuresHaveCauses {db : Tables} (hledger : Ledger env acts db)
    (hlate : FailuresAreLate db) : FailuresHaveCauses env acts db := by
  refine ⟨hlate, fun job hmem hfailed => ?_⟩
  have hjob := Table.get?_of_mem hmem
  obtain ⟨entry, hentry, hdep⟩ := hledger.coherent.entry hjob
  obtain ⟨src, hsrc, howns⟩ := hledger.coherent.owner hentry
  have hid := Table.key_of_get? hsrc
  cases hhit : job.cacheHit with
  | false =>
    rw [hdep.source hhit, hjob] at hsrc
    cases hsrc
    obtain ⟨exc, hexc, -⟩ := howns.failed hfailed
    exact .inl ⟨hhit, exc, hexc⟩
  | true =>
    have hentryFailed := hdep.failed hhit hfailed
    refine .inr ⟨src, hid ▸ hsrc, howns.requestHash.trans (Table.key_of_get? hentry),
      howns.cacheHit, howns.status_of_failed hentryFailed, ?_⟩
    rw [hid]
    exact hlate hjob hhit hentry hentryFailed

/-- Every state of a run has causes for its failures exactly when no step of the run makes
a job for a request hash whose entry has already failed. -/
theorem failures_have_causes_iff (hrun : Run (step env) State.init acts s) :
    (∀ pre post t, acts = pre ++ post → Run (step env) State.init pre t →
      FailuresHaveCauses env pre t.db) ↔ AvoidsFailedEntries env acts := by
  constructor
  · rintro hall pre a post t rfl hpre hreuse
    obtain ⟨t₁, hpre', hrest⟩ := Run.append_iff.mp hrun
    obtain rfl : t₁ = t := Option.some.inj (hpre'.symm.trans hpre)
    obtain ⟨t', hstep, -⟩ := Run.cons_iff.mp hrest
    have hpre₁ : Run (step env) State.init (pre ++ [a]) t' := Run.snoc_iff.mpr ⟨t₁, hpre, hstep⟩
    have hcauses := hall (pre ++ [a]) post t' (by simp) hpre₁
    exact hreuse.not_late (run_invariants hpre).1 hstep hcauses.late
  · rintro havoid pre post t rfl hpre
    exact (run_invariants hpre).1.failuresHaveCauses (run_failuresAreLate hpre havoid.of_append)

theorem failures_have_causes_iff_sample :
    (∀ pre post t, sampleRun = pre ++ post → Run (step (sampleEnv none)) State.init pre t →
      FailuresHaveCauses (sampleEnv none) pre t.db) ↔
    AvoidsFailedEntries (sampleEnv none) sampleRun :=
  failures_have_causes_iff (Run.get sampleRun_isSome)

end Runs

/-! ## A poisoned request -/

theorem FailedAfter.mem_dropWhile {events : List JobEvent} {srcId jobId : Str}
    (h : FailedAfter events srcId jobId) :
    ∃ e ∈ events.dropWhile fun e => e ≠ ⟨jobId, 1, .status .queued none⟩, e.jobId = srcId := by
  obtain ⟨pre, post, message, sequence, rfl, hmem⟩ := h
  refine ⟨⟨srcId, sequence, .status .failed (some message)⟩, ?_, rfl⟩
  rw [List.dropWhile_append]
  split
  · rw [List.dropWhile_cons_of_neg (by simp)]
    exact List.mem_cons_of_mem _ hmem
  · exact List.mem_append_right _ (List.mem_cons_of_mem _ hmem)

/-- A review that fails once, and the same request submitted again. -/
def poisonedRun : List Action :=
  [.submit (sampleBody .llm) none (lit "a") 0, .claim 0 (lit "a"),
    .review 0 (lit "a") fun _ => .error (lit "503"), .fail 0,
    .submit (sampleBody .llm) none (lit "b") 1, .claim 0 (lit "b"), .poll 0, .fail 0]

def poisonedEnv : Env := sampleEnv (some (lit "key"))

set_option maxRecDepth 20000 in
theorem poisonedRun_isSome :
    (poisonedRun.foldlM (step poisonedEnv) State.init).isSome = true := by decide

def poisonedState : State := (poisonedRun.foldlM (step poisonedEnv) State.init).get poisonedRun_isSome

set_option maxRecDepth 20000 in
/-- The second job fails with the review of the first, which had failed before it came. -/
theorem failed_request_stays_poisoned :
    Run (step poisonedEnv) State.init poisonedRun poisonedState ∧
      (∃ job ∈ poisonedState.db.jobs.rows, job.id = lit "b" ∧ job.status = .failed ∧
        job.cacheHit = true ∧ ¬ FailedForCause poisonedEnv poisonedRun poisonedState.db job) ∧
      ¬ FailuresHaveCauses poisonedEnv poisonedRun poisonedState.db := by
  have hjob : ∃ job ∈ poisonedState.db.jobs.rows, job.id = lit "b" ∧ job.status = .failed ∧
      job.cacheHit = true := by decide
  obtain ⟨job, hmem, hid, hfailed, hhit⟩ := hjob
  have hlater : ∀ e ∈ poisonedState.db.events.dropWhile
      fun e => e ≠ ⟨lit "b", 1, .status .queued none⟩, e.jobId = lit "b" := by decide
  have hcause : ¬ FailedForCause poisonedEnv poisonedRun poisonedState.db job := by
    rintro (⟨hsource, -⟩ | ⟨src, hsrc, -, hsource, -, hafter⟩)
    · exact nomatch hsource.symm.trans hhit
    · rw [hid] at hafter
      obtain ⟨e, he, hsrcId⟩ := hafter.mem_dropWhile
      have hsame : src.id = job.id := hsrcId.symm.trans ((hlater e he).trans hid.symm)
      rw [hsame, Table.get?_of_mem hmem] at hsrc
      cases hsrc
      exact nomatch hsource.symm.trans hhit
  exact ⟨Run.get poisonedRun_isSome, ⟨job, hmem, hid, hfailed, hhit, hcause⟩,
    fun h => hcause (h.cause job hmem hfailed)⟩

end DiffReview
