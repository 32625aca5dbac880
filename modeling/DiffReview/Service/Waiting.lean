import DiffReview.Service.Cache

/-!
# DiffReview — no deadlock on cached reviews

A worker in the cache-wait loop occupies one of the few workers, so its source must be
with another one. When the clock follows the order of submission, a hit is claimed only
after its source was (`HitsAfterSources`), and the running source of a waiting hit is held
on the provider path.
-/

namespace DiffReview

open Py Transition

/-- `created_at` increases with the order of submission. -/
def CreatedInOrder (db : Tables) : Prop := (db.jobs.rows.map (·.createdAt)).Pairwise (· < ·)

/-- No hit runs while the source of its hash is still queued. -/
def HitsAfterSources (db : Tables) : Prop :=
  ∀ ⦃hit src : ReviewJob⦄, db.jobs.get? hit.id = some hit → db.jobs.get? src.id = some src →
    src.requestHash = hit.requestHash → hit.cacheHit = true → src.cacheHit = false →
    hit.status = .running → src.status ≠ .queued

theorem HitsAfterSources.empty : HitsAfterSources Tables.empty := by
  intro hit src hhit
  cases (show none = some hit from hhit)

section Order

variable {env : Env} {acts : List Action} {db db' : Tables}

/-- Earlier tables were in order when later ones are. -/
theorem Write.createdInOrder (h : Write env acts db db') (horder : CreatedInOrder db') :
    CreatedInOrder db := by
  unfold CreatedInOrder at horder ⊢
  rcases h.jobs_cases with ⟨_, _, _, _, _, -, hjobs, -⟩ | ⟨job, job', bodies, hjob, hadv, hjobs, -⟩
  · rw [Table.rows_insert? hjobs, List.map_append] at horder
    exact (List.pairwise_append.mp horder).1
  · rw [hjobs, Table.map_rows_replace] at horder
    · exact horder
    · intro r hr
      rw [hadv.same.id, hjob] at hr
      rw [← Option.some.inj hr]
      exact hadv.same.createdAt

theorem Writes.createdInOrder (h : Writes env acts db db') (horder : CreatedInOrder db') :
    CreatedInOrder db := by
  induction h with
  | refl => exact horder
  | tail _ hwrite ih => exact ih (hwrite.createdInOrder horder)

/-- The source of a hit was created before it. -/
theorem Coherent.source_lt (hcoh : Coherent env acts db) (horder : CreatedInOrder db)
    {hit src : ReviewJob} (hhit : db.jobs.get? hit.id = some hit)
    (hsrc : db.jobs.get? src.id = some src) (hhash : src.requestHash = hit.requestHash)
    (hcache : hit.cacheHit = true) (hsource : src.cacheHit = false) :
    src.createdAt < hit.createdAt := by
  obtain ⟨entry, hentry, hdep⟩ := hcoh.entry hhit
  obtain ⟨entry', hentry', hdep'⟩ := hcoh.entry hsrc
  rw [hhash, hentry] at hentry'
  cases hentry'
  have hbefore := hdep.before hcache
  rw [hdep'.source hsource] at hbefore
  exact hbefore.lt_of_pairwise horder hsrc hhit

end Order

section Steps

variable {env : Env} {acts : List Action} {s s' : State} {a : Action}

theorem Effect.hitsAfterSources (h : Effect env acts s a s') (hledger : Ledger env acts s.db)
    (hhold : Holding env acts s) (horder : CreatedInOrder s.db) (hq : HitsAfterSources s.db) :
    HitsAfterSources s'.db := by
  cases h with
  | still => exact hq
  | move => exact hq
  | kill => exact hq
  | @insert _ _ _ _ sub _ _ hup hparse hkey hinsert =>
    intro hit src hhit hsrc hhash hcache hsource hrunning
    have hins := insertJob_insert env hinsert
    obtain ⟨jobId, _, now, hjobs, -⟩ := hins.jobs_eq
    have hold := Table.get?_insert? hjobs hit.id
    rw [hhit] at hold
    split at hold
    · cases hold
      cases hrunning
    -- a new source would have found no entry, but the hit has one
    have holdSrc := Table.get?_insert? hjobs src.id
    rw [hsrc] at holdSrc
    split at holdSrc
    · obtain ⟨entry, hentry, -⟩ := hledger.coherent.entry hold.symm
      cases holdSrc
      cases hins with
      | create _ hjobs' hcache' =>
        have hnone := Table.get?_of_insert? hcache'
        rw [← hhash] at hentry
        cases hnone.symm.trans hentry
      | attach _ hjobs' =>
        obtain ⟨-, hrow⟩ := List.append_inj' ((Table.rows_insert? hjobs').symm.trans
          (Table.rows_insert? hjobs)) rfl
        cases hrow
        cases hsource
    · exact hq hold.symm holdSrc.symm hhash hcache hsource hrunning
  | @claim _ job _ hup hidle hlt hjob hclaim =>
    intro hit src hhit hsrc hhash hcache hsource hrunning
    have hrows := Tables.get?_advance [.status .running none] hjob
      (Advance.claim hclaim.1).same
    rw [hrows] at hhit hsrc
    split at hsrc
    · cases hsrc
      intro hqueued
      cases hqueued
    · split at hhit
      · -- the claimed hit was the oldest queued job
        cases hhit
        intro hqueued
        have hlt := hledger.coherent.source_lt horder hjob hsrc hhash hcache hsource
        have hle := hclaim.2 src (Table.get?_eq_some_iff.mp hsrc).1 hqueued
        omega
      · exact hq hhit hsrc hhash hcache hsource hrunning
  | @finish _ _ job job' bodies _ hheld hprogress hadv hended hjobs =>
    intro hit src hhit hsrc hhash hcache hsource hrunning
    obtain ⟨hjob, -, -⟩ := hhold.held hheld
    have hrows := Tables.get?_advance bodies hjob hadv.same
    rw [show (s.db.advance job' bodies).jobs = s.db.jobs.replace job' from rfl, ← hjobs] at hrows
    rw [hrows] at hhit hsrc
    split at hhit
    · cases hhit
      rcases hended with h | h <;> cases h.symm.trans hrunning
    · split at hsrc
      · cases hsrc
        intro hqueued
        rcases hended with h | h <;> cases h.symm.trans hqueued
      · exact hq hhit hsrc hhash hcache hsource hrunning
  | recover hdown hperm =>
    intro hit src hhit hsrc hhash hcache hsource hrunning
    exact absurd hrunning (recoverAbandonedJobs_not_running hperm hhit)

theorem run_hitsAfterSources (h : Run (step env) State.init acts s) (horder : CreatedInOrder s.db) :
    HitsAfterSources s.db := by
  refine h.invariant_trace (P := fun _ s => CreatedInOrder s.db → HitsAfterSources s.db)
    (fun _ => .empty) ?_ horder
  intro acts t a t' hrun hq ht horder'
  obtain ⟨hledger, hhold⟩ := run_invariants hrun
  have hacts : ∀ b ∈ acts, b ∈ acts ++ [a] := fun b hb => List.mem_append_left _ hb
  have heffect := step_effect hledger hhold ht
  have horder := heffect.writes.createdInOrder horder'
  exact heffect.hitsAfterSources (hledger.mono hacts) (hhold.mono hacts) horder (hq horder)

/-- The worker has its job on the provider path, from the parse to the last transaction. -/
def Worker.onProviderPath (worker : Worker) (job : ReviewJob) : Prop :=
  worker = .reviewing job ∨ (∃ full, worker = .storing job full) ∨ ∃ exc, worker = .failing job exc

/-- The running source of an open entry is held by another worker on the provider path. -/
theorem waiting_source {w : Nat} {hit : ReviewJob} {entry : CacheEntry}
    (hrun : Run (step env) State.init acts s) (horder : CreatedInOrder s.db)
    (hwait : s.workers w = .waiting hit) (hentry : s.db.cache.get? hit.requestHash = some entry)
    (hopen : entry.state = .running) :
    ∃ src w', s.db.jobs.get? entry.sourceJobId = some src ∧ src.status = .running ∧
      src.cacheHit = false ∧ w' ≠ w ∧ w' < env.settings.maxConcurrentJobs ∧
      (s.workers w').onProviderPath src := by
  obtain ⟨hledger, hhold⟩ := run_invariants hrun
  have hheld : (s.workers w).job? = some hit := by rw [hwait]; rfl
  obtain ⟨hhit, hrunning, -⟩ := hhold.held hheld
  have hcache : hit.cacheHit = true := by
    have hstage := hhold.stage w
    rw [hwait] at hstage
    cases hstage with
    | waiting hcache => exact hcache
  have hup : s.up = true := by
    by_contra hdown
    have hidle := hhold.down (by simpa using hdown) w
    rw [hwait] at hidle
    cases hidle
  obtain ⟨src, hsrc, howns⟩ := hledger.coherent.owner hentry
  have hid := Table.key_of_get? hsrc
  have hhash : src.requestHash = hit.requestHash :=
    howns.requestHash.trans (Table.key_of_get? hentry)
  have hsrcRunning : src.status = .running := by
    have hnq := run_hitsAfterSources hrun horder hhit (hid ▸ hsrc) hhash hcache howns.cacheHit hrunning
    have hstate := howns.state
    rw [hopen] at hstate
    cases hstatus : src.status with
    | queued => exact absurd hstatus hnq
    | running => rfl
    | done => rw [hstatus] at hstate; cases hstate
    | failed => rw [hstatus] at hstate; cases hstate
  obtain ⟨w', hw'⟩ := hhold.running hup hsrc hsrcRunning
  have hstage := hhold.stage w'
  have hsource := howns.cacheHit
  refine ⟨src, w', hsrc, hsrcRunning, hsource, ?_, (hhold.held hw').2.2, ?_⟩
  · rintro rfl
    rw [hheld] at hw'
    cases hw'
    exact nomatch hsource.symm.trans hcache
  · cases hworker : s.workers w' with
    | idle => rw [hworker] at hw'; cases hw'
    | waiting job =>
      rw [hworker] at hw' hstage
      cases hw'
      cases hstage with
      | waiting hcache' => exact nomatch hsource.symm.trans hcache'
    | reviewing job =>
      rw [hworker] at hw'
      cases hw'
      exact .inl rfl
    | storing job full =>
      rw [hworker] at hw'
      cases hw'
      exact .inr (.inl ⟨full, rfl⟩)
    | failing job exc =>
      rw [hworker] at hw'
      cases hw'
      exact .inr (.inr ⟨exc, rfl⟩)

/-- A worker in the cache-wait loop finds its entry done or failed, or its source running
with another worker on the provider path; so the workers never all wait on open entries. -/
theorem no_deadlock_on_cache (hrun : Run (step env) State.init acts s)
    (horder : CreatedInOrder s.db) :
    (∀ w hit, s.workers w = .waiting hit →
      ∃ entry, s.db.cache.get? hit.requestHash = some entry ∧
        (entry.state = .done ∨ entry.state = .failed ∨
          ∃ src w', s.db.jobs.get? entry.sourceJobId = some src ∧ src.status = .running ∧
            src.cacheHit = false ∧ w' ≠ w ∧ w' < env.settings.maxConcurrentJobs ∧
            (s.workers w').onProviderPath src)) ∧
      (1 ≤ env.settings.maxConcurrentJobs →
        ¬ ∀ w, w < env.settings.maxConcurrentJobs → ∃ hit entry, s.workers w = .waiting hit ∧
          s.db.cache.get? hit.requestHash = some entry ∧ entry.state = .running) := by
  constructor
  · intro w hit hwait
    obtain ⟨hledger, hhold⟩ := run_invariants hrun
    have hheld : (s.workers w).job? = some hit := by rw [hwait]; rfl
    obtain ⟨entry, hentry, -⟩ := hledger.coherent.entry (hhold.held hheld).1
    refine ⟨entry, hentry, ?_⟩
    cases hstate : entry.state with
    | done => exact .inl rfl
    | failed => exact .inr (.inl rfl)
    | running => exact .inr (.inr (waiting_source hrun horder hwait hentry hstate))
  · intro hpos hall
    obtain ⟨hit, entry, hwait, hentry, hopen⟩ := hall 0 (by omega)
    obtain ⟨src, w', -, -, -, -, hlt, hpath⟩ := waiting_source hrun horder hwait hentry hopen
    obtain ⟨hit', -, hwait', -⟩ := hall w' hlt
    rw [hwait'] at hpath
    rcases hpath with h | ⟨_, h⟩ | ⟨_, h⟩ <;> cases h

end Steps

/-- A hit claimed while another worker reviews its source. -/
def waitingRun : List Action :=
  [.submit (sampleBody .mock) none (lit "a") 0, .submit (sampleBody .mock) none (lit "b") 1,
    .claim 0 (lit "a"), .claim 1 (lit "b")]

set_option maxRecDepth 20000 in
theorem waitingRun_isSome :
    (waitingRun.foldlM (step (sampleEnv none)) State.init).isSome = true := by decide

def waitingState : State := (waitingRun.foldlM (step (sampleEnv none)) State.init).get waitingRun_isSome

set_option maxRecDepth 20000 in
theorem no_deadlock_on_cache_sample :
    (∃ hit, waitingState.workers 1 = .waiting hit) ∧
      (∀ w hit, waitingState.workers w = .waiting hit →
        ∃ entry, waitingState.db.cache.get? hit.requestHash = some entry ∧
          (entry.state = .done ∨ entry.state = .failed ∨
            ∃ src w', waitingState.db.jobs.get? entry.sourceJobId = some src ∧
              src.status = .running ∧ src.cacheHit = false ∧ w' ≠ w ∧ w' < 4 ∧
              (waitingState.workers w').onProviderPath src)) ∧
      ¬ ∀ w, w < 4 → ∃ hit entry, waitingState.workers w = .waiting hit ∧
        waitingState.db.cache.get? hit.requestHash = some entry ∧ entry.state = .running := by
  have horder : CreatedInOrder waitingState.db :=
    show (waitingState.db.jobs.rows.map (·.createdAt)).Pairwise (· < ·) from by decide
  obtain ⟨hwait, hfree⟩ := no_deadlock_on_cache (Run.get waitingRun_isSome) horder
  exact ⟨⟨_, rfl⟩, hwait, hfree (by decide)⟩

end DiffReview
