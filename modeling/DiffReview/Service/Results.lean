import DiffReview.Review.LlmReview
import DiffReview.Review.MockReview
import DiffReview.Service.Failures

/-!
# DiffReview — what a finished job holds

A job that is done, fresh or from the cache, holds the first `maxFindings` of one ordered
review of its own diff. For the mock provider that review is exact, for the LLM it is
grounded.
-/

namespace DiffReview

open Py Raise Transition

variable {env : Env} {acts : List Action} {s : State} {job : ReviewJob}

theorem reviewDiff_eq_ok {diff : Str} {provider : ProviderName} {answers : Answers}
    {full : List Finding} (h : reviewDiff env diff provider answers = .ok full) :
    ∃ files chunks fs, parseUnifiedDiff diff = .ok files ∧
      chunkFileDiffs files env.settings.chunkBytes = .ok chunks ∧
      providerReview env provider answers chunks = .ok fs ∧
      full = orderedFindings fs 10000000 := by
  obtain ⟨files, hfiles, h⟩ := bind_eq_ok.mp h
  obtain ⟨chunks, hchunks, h⟩ := bind_eq_ok.mp h
  obtain ⟨fs, hfs, h⟩ := bind_eq_ok.mp h
  cases h
  exact ⟨files, chunks, fs, hfiles, hchunks, hfs, rfl⟩

/-- Jobs of one request hash have one request. -/
theorem Submitted.same_request (hcf : CollisionFree env.sha256) {job' : ReviewJob}
    (h : Submitted env job) (h' : Submitted env job') (hhash : job.requestHash = job'.requestHash) :
    job.diff = job'.diff ∧ job.provider = job'.provider ∧ job.maxFindings = job'.maxFindings :=
  hcf h.accepted.requestHash (hhash ▸ h'.accepted.requestHash)

/-- A done job holds the start of a review that the run has made of its diff. -/
theorem Ledger.done_findings {db : Tables} (hledger : Ledger env acts db)
    (hcf : CollisionFree env.sha256) {id : Str} (hjob : db.jobs.get? id = some job)
    (hdone : job.status = .done) :
    ∃ src w answers files chunks fs, src ∈ db.jobs.rows ∧ src.requestHash = job.requestHash ∧
      Action.review w src.id answers ∈ acts ∧ parseUnifiedDiff job.diff = .ok files ∧
      chunkFileDiffs files env.settings.chunkBytes = .ok chunks ∧
      providerReview env job.provider answers chunks = .ok fs ∧
      job.findings = some (((orderedFindings fs 10000000).take job.maxFindings).map
        Finding.modelDump) := by
  obtain ⟨entry, hentry, hdep⟩ := hledger.coherent.entry hjob
  obtain ⟨src, hsrc, howns⟩ := hledger.coherent.owner hentry
  have hid : job.id = id := Table.key_of_get? hjob
  have hhash : src.requestHash = job.requestHash :=
    howns.requestHash.trans (Table.key_of_get? hentry)
  obtain ⟨hdiff, hprovider, hmax⟩ :=
    (hledger.submitted hsrc).same_request hcf (hledger.submitted hjob) hhash
  -- the source is done, and the job holds the start of what its entry stores
  have hsrcDone : src.status = .done := by
    cases hhit : job.cacheHit with
    | true => exact howns.status_of_done (hdep.done hhit hdone).1
    | false =>
      rw [hdep.source hhit, hid, hjob] at hsrc
      cases hsrc
      exact hdone
  obtain ⟨full, ⟨w, answers, hmem, hreview⟩, hentryFull, hsrcFull⟩ := howns.done hsrcDone
  obtain ⟨files, chunks, fs, hfiles, hchunks, hfs, rfl⟩ := reviewDiff_eq_ok hreview
  rw [hdiff] at hfiles
  rw [hprovider] at hfs
  refine ⟨src, w, answers, files, chunks, fs, (Table.get?_eq_some_iff.mp hsrc).1, hhash, hmem, hfiles,
    hchunks, hfs, ?_⟩
  cases hhit : job.cacheHit with
  | true =>
    obtain ⟨-, full', hentryFull', hfindings⟩ := hdep.done hhit hdone
    have hsame : full' = orderedFindings fs 10000000 := by
      have hmaps := Option.some.inj (hentryFull'.symm.trans hentryFull)
      exact List.map_injective_iff.mpr Finding.modelDump_injective hmaps
    rw [hfindings, hsame, orderedFindings_orderedFindings]
  | false =>
    rw [hdep.source hhit, hid, hjob] at hsrc
    cases hsrc
    exact hsrcFull

/-- An ordered review of fewer than ten million findings is not cut. -/
theorem orderedFindings_uncut {fs : List Finding} (h : fs.length < 10000000) :
    orderedFindings fs 10000000 = orderedAll fs := by
  rw [orderedFindings_eq_take, List.take_of_length_le]
  have hsub : (orderedAll fs).length ≤ fs.length := by
    have hids : ((orderedAll fs).map (·.id)).Subperm (fs.map (·.id)) := by
      refine (orderedAll_ids_nodup fs).subperm fun id hid => ?_
      obtain ⟨f, hf, rfl⟩ := List.mem_map.mp hid
      exact List.mem_map_of_mem (mem_of_mem_orderedAll hf)
    simpa using hids.length_le
  omega

/-! ## Mock jobs -/

/-- Every done mock job, fresh or from the cache, holds the first `maxFindings` of the exact
review of its diff. -/
theorem mock_done_exact (hcf : CollisionFree env.sha256) (hrun : Run (step env) State.init acts s)
    (hjob : job ∈ s.db.jobs.rows) (hmock : job.provider = .mock) (hdone : job.status = .done)
    (hsize : ∀ files chunks fs, parseUnifiedDiff job.diff = .ok files →
      chunkFileDiffs files env.settings.chunkBytes = .ok chunks →
      mockReview env.patterns chunks = .ok fs → fs.length < 10000000) :
    ∃ files full, parseUnifiedDiff job.diff = .ok files ∧ ExactMockReview env.patterns files full ∧
      job.findings = some ((full.take job.maxFindings).map Finding.modelDump) := by
  obtain ⟨hledger, -⟩ := run_invariants hrun
  obtain ⟨-, -, answers, files, chunks, fs, -, -, -, hfiles, hchunks, hfs, hfindings⟩ :=
    hledger.done_findings hcf (Table.get?_of_mem hjob) hdone
  rw [hmock] at hfs
  have hreview : mockReview env.patterns chunks = .ok fs := hfs
  refine ⟨files, orderedAll fs, hfiles, mockReview_exact hfiles hchunks hreview, ?_⟩
  rw [hfindings, orderedFindings_uncut (hsize files chunks fs hfiles hchunks hreview)]

set_option maxRecDepth 20000 in
theorem mock_done_exact_sample :
    sampleJob.provider = .mock ∧ sampleJob.status = .done ∧
      ∃ files full, parseUnifiedDiff sampleJob.diff = .ok files ∧
        ExactMockReview samplePatterns files full ∧
        sampleJob.findings = some ((full.take sampleJob.maxFindings).map Finding.modelDump) := by
  have hjob : sampleJob ∈ sampleState.db.jobs.rows :=
    (Table.get?_eq_some_iff.mp (Option.some_get sampleJob_isSome).symm).1
  have hmock : sampleJob.provider = .mock := by decide
  have hdone : sampleJob.status = .done := by decide
  have hone : (parseUnifiedDiff sampleJob.diff >>= fun files =>
      chunkFileDiffs files 65536 >>= fun chunks =>
      (mockReview samplePatterns chunks).map List.length) = .ok 1 := by decide
  refine ⟨hmock, hdone, mock_done_exact
    (show CollisionFree (sampleEnv none).sha256 from collisionFree_of_injective sampleSha256_injective)
    (Run.get sampleRun_isSome) hjob hmock hdone ?_⟩
  intro files chunks fs hfiles hchunks hfs
  rw [hfiles] at hone
  change (chunkFileDiffs files 65536 >>= _) = _ at hone
  rw [show chunkFileDiffs files 65536 = .ok chunks from hchunks] at hone
  change (mockReview samplePatterns chunks).map List.length = _ at hone
  rw [show mockReview samplePatterns chunks = .ok fs from hfs] at hone
  have hlength : fs.length = 1 := Except.ok.inj hone
  omega

/-! ## LLM jobs -/

/-- Every done LLM job, fresh or from the cache, holds the first `maxFindings` of a grounded
review of its diff, made from what the model answered in the run. -/
theorem llm_done_grounded (hcf : CollisionFree env.sha256)
    (hrun : Run (step env) State.init acts s) (hjob : job ∈ s.db.jobs.rows)
    (hllm : job.provider = .llm) (hdone : job.status = .done)
    (hsize : ∀ w src answers, src ∈ s.db.jobs.rows → src.requestHash = job.requestHash →
      Action.review w src.id answers ∈ acts → proposalCount answers job.chunks < 10000000) :
    ∃ files chunks src w answers full, parseUnifiedDiff job.diff = .ok files ∧
      chunkFileDiffs files env.settings.chunkBytes = .ok chunks ∧ src ∈ s.db.jobs.rows ∧
      src.requestHash = job.requestHash ∧ Action.review w src.id answers ∈ acts ∧
      GroundedReview env.sha256 files chunks answers full ∧
      job.findings = some ((full.take job.maxFindings).map Finding.modelDump) := by
  obtain ⟨hledger, -⟩ := run_invariants hrun
  obtain ⟨src, w, answers, files, chunks, fs, hsrc, hhash, hmem, hfiles, hchunks, hfs, hfindings⟩ :=
    hledger.done_findings hcf (Table.get?_of_mem hjob) hdone
  rw [hllm] at hfs
  have hreview : llmReview env.llm answers chunks = .ok fs := hfs
  have hcount : job.chunks = chunks.length := by
    obtain ⟨files', chunks', hfiles', hchunks', hlen⟩ :=
      (hledger.submitted (Table.get?_of_mem hjob)).accepted.chunked
    cases hfiles.symm.trans hfiles'
    cases hchunks.symm.trans hchunks'
    exact hlen
  have hlt : fs.length < 10000000 := by
    have hle := length_llmReview_le hreview
    have hsmall := hsize w src answers hsrc hhash hmem
    rw [hcount] at hsmall
    omega
  refine ⟨files, chunks, src, w, answers, orderedAll fs, hfiles, hchunks, hsrc, hhash, hmem,
    llmReview_grounded hchunks hreview, ?_⟩
  rw [hfindings, orderedFindings_uncut hlt]

/-- One proposal, for the line that adds the call of `eval`. -/
def sampleAnswers : Answers := fun _ => .ok
  [⟨lit "x", 1, by decide, .critical, .security, lit "Unsafe eval", lit "eval"⟩]

def llmRun : List Action :=
  [.submit (sampleBody .llm) none (lit "a") 0, .claim 0 (lit "a"),
    .review 0 (lit "a") sampleAnswers, .store 0]

set_option maxRecDepth 20000 in
theorem llmRun_isSome : (llmRun.foldlM (step poisonedEnv) State.init).isSome = true := by decide

def llmState : State := (llmRun.foldlM (step poisonedEnv) State.init).get llmRun_isSome

set_option maxRecDepth 20000 in
theorem llmJob_isSome : (llmState.db.jobs.get? (lit "a")).isSome = true := by decide

def llmJob : ReviewJob := (llmState.db.jobs.get? (lit "a")).get llmJob_isSome

set_option maxRecDepth 20000 in
theorem llm_done_grounded_sample :
    llmJob.provider = .llm ∧ llmJob.status = .done ∧ llmJob.findings.map List.length = some 1 ∧
      ∃ files chunks src w answers full, parseUnifiedDiff llmJob.diff = .ok files ∧
        chunkFileDiffs files 65536 = .ok chunks ∧ src ∈ llmState.db.jobs.rows ∧
        src.requestHash = llmJob.requestHash ∧ Action.review w src.id answers ∈ llmRun ∧
        GroundedReview sampleSha256 files chunks answers full ∧
        llmJob.findings = some ((full.take llmJob.maxFindings).map Finding.modelDump) := by
  have hjob : llmJob ∈ llmState.db.jobs.rows :=
    (Table.get?_eq_some_iff.mp (Option.some_get llmJob_isSome).symm).1
  have hllm : llmJob.provider = .llm := by decide
  have hdone : llmJob.status = .done := by decide
  refine ⟨hllm, hdone, by decide, llm_done_grounded
    (show CollisionFree poisonedEnv.sha256 from collisionFree_of_injective sampleSha256_injective)
    (Run.get llmRun_isSome) hjob hllm hdone ?_⟩
  intro w src answers _ _ hmem
  have hanswers : answers = sampleAnswers := by
    simp only [llmRun, List.mem_cons, List.not_mem_nil, or_false, reduceCtorEq, false_or,
      Action.review.injEq] at hmem
    exact hmem.2.2
  have hchunks : llmJob.chunks = 1 := by decide
  rw [hanswers, hchunks]
  decide

end DiffReview
