import DiffReview.Service.Logs

/-!
# DiffReview — ownership and coherence of the cache

For each request hash with a job: one entry, one source job that owns it and was
submitted first, and an entry whose state follows the source's status.
-/

namespace DiffReview

open Py Transition

/-- The entry of a request hash, with its source. -/
structure CacheOwnership (db : Tables) (hash : Str) (entry : CacheEntry) (src : ReviewJob) : Prop where
  entry_iff : ∀ e, e ∈ db.cache.rows ∧ e.requestHash = hash ↔ e = entry
  source_iff : ∀ j, j ∈ db.jobs.rows ∧ j.requestHash = hash ∧ j.cacheHit = false ↔ j = src
  owner : entry.sourceJobId = src.id
  first : ∀ j ∈ db.jobs.rows, j.requestHash = hash → j ≠ src → db.jobs.Before src.id j.id
  running_iff : entry.state = .running ↔ src.status = .queued ∨ src.status = .running
  done_iff : entry.state = .done ↔ src.status = .done
  failed_iff : entry.state = .failed ↔ src.status = .failed
  findings : entry.state = .done → ∃ full, entry.findings = some full ∧
    src.findings = some (full.take src.maxFindings)
  hits : ∀ j ∈ db.jobs.rows, j.requestHash = hash → j.cacheHit = true → j.status = .done →
    entry.state = .done

theorem Coherent.ownership {env : Env} {acts : List Action} {db : Tables}
    (hcoh : Coherent env acts db) {job : ReviewJob} (hjob : job ∈ db.jobs.rows) :
    ∃ entry src, CacheOwnership db job.requestHash entry src := by
  obtain ⟨entry, hentry, -⟩ := hcoh.entry (Table.get?_of_mem hjob)
  obtain ⟨src, hsrc, howns⟩ := hcoh.owner hentry
  have hkey : entry.requestHash = job.requestHash := Table.key_of_get? hentry
  -- a job of the hash depends on this entry
  have hdepends : ∀ j ∈ db.jobs.rows, j.requestHash = job.requestHash → Depends db entry j := by
    intro j hj hhash
    obtain ⟨e, he, hdep⟩ := hcoh.entry (Table.get?_of_mem hj)
    rw [hhash, hentry] at he
    cases he
    exact hdep
  have howner : entry.sourceJobId = src.id := (Table.key_of_get? hsrc).symm
  refine ⟨entry, src, ?_, ?_, howner, ?_, ?_, ?_, ?_, ?_, ?_⟩
  · intro e
    rw [← Table.get?_eq_some_iff, hentry, Option.some.injEq]
    exact eq_comm
  · intro j
    constructor
    · rintro ⟨hj, hhash, hsource⟩
      have hid := (hdepends j hj hhash).source hsource
      rw [hid, Table.get?_of_mem hj] at hsrc
      exact Option.some.inj hsrc
    · rintro rfl
      exact ⟨(Table.get?_eq_some_iff.mp hsrc).1, howns.requestHash.trans hkey, howns.cacheHit⟩
  · intro j hj hhash hne
    cases hhit : j.cacheHit with
    | true => exact howner ▸ (hdepends j hj hhash).before hhit
    | false =>
      have hid := (hdepends j hj hhash).source hhit
      rw [hid, Table.get?_of_mem hj] at hsrc
      exact absurd (Option.some.inj hsrc) hne
  · rw [howns.state]
    cases src.status <;> simp [cacheStateOf]
  · rw [howns.state]
    cases src.status <;> simp [cacheStateOf]
  · rw [howns.state]
    cases src.status <;> simp [cacheStateOf]
  · intro hdone
    obtain ⟨full, -, hfull, hfindings⟩ := howns.done (howns.status_of_done hdone)
    exact ⟨full.map Finding.modelDump, hfull, by rw [hfindings, List.map_take]⟩
  · intro j hj hhash hhit hdone
    exact ((hdepends j hj hhash).done hhit hdone).1

/-- Every request hash with a job has an entry and a source in every reachable state, and
an entry that is done or failed stays as it is in every run. -/
theorem cache_ownership {env : Env} {acts : List Action} {s : State} {job : ReviewJob}
    (hrun : Run (step env) State.init acts s) (hjob : job ∈ s.db.jobs.rows) :
    ∃ entry src, CacheOwnership s.db job.requestHash entry src ∧
      (entry.state ≠ .running → ∀ acts' s', Run (step env) s acts' s' →
        s'.db.cache.get? job.requestHash = some entry) := by
  obtain ⟨hledger, -⟩ := run_invariants hrun
  obtain ⟨entry, src, hown⟩ := hledger.coherent.ownership hjob
  refine ⟨entry, src, hown, fun hclosed acts' s' hrun' => ?_⟩
  have hentry : s.db.cache.get? job.requestHash = some entry :=
    Table.get?_eq_some_iff.mpr ((hown.entry_iff entry).mpr rfl)
  exact (run_writes hrun hrun').entry_closed hentry hclosed

theorem cache_ownership_sample :
    sampleJob ∈ sampleState.db.jobs.rows ∧
      ∃ entry src, CacheOwnership sampleState.db sampleJob.requestHash entry src ∧
        (entry.state ≠ .running → ∀ acts' s', Run (step (sampleEnv none)) sampleState acts' s' →
          s'.db.cache.get? sampleJob.requestHash = some entry) := by
  have hjob : sampleJob ∈ sampleState.db.jobs.rows :=
    (Table.get?_eq_some_iff.mp (Option.some_get sampleJob_isSome).symm).1
  exact ⟨hjob, cache_ownership (Run.get sampleRun_isSome) hjob⟩

end DiffReview
