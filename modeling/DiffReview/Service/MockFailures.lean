import DiffReview.Diff.Numbering
import DiffReview.Service.Results

/-!
# DiffReview — when an accepted mock review fails

Submission checks the diff, not the numbers of its lines. A mock review of an accepted
diff fails exactly when a rule matches an added line that opens a hunk declared to start
at line 0, or whose number is too long to be printed (`accepted_mock_review_iff`).
-/

namespace DiffReview

open Py Raise Transition

/-- The first new-file line of a hunk whose header declares the start 0. -/
def OpensZeroHunk (lines : List Str) (file : FileDiff) (l : NewFileLine) : Prop :=
  (declaredStarts lines)[l.hunk.toNat]? = some 0 ∧ (hunkLines file.lines l.hunk).head? = some l

/-- The declared start and the lines before `l` in its hunk make a number `str` accepts. -/
def PrintableNumber (lines : List Str) (file : FileDiff) (l : NewFileLine) : Prop :=
  ∀ start, (declaredStarts lines)[l.hunk.toNat]? = some start →
    start + (hunkLines file.lines l.hunk).idxOf l < 10 ^ maxStrDigits

/-- No rule matches an added line that opens a hunk declared at 0, or that is numbered past
the digit limit. -/
def Reportable (p : Patterns) (diff : Str) : Prop :=
  ∀ lines ∈ sections (splitlines diff) (sectionStarts (splitlines diff)), ∀ file sawHunk,
    parseSection lines = .ok (file, sawHunk) → ∀ rule ∈ allRules p, ∀ l ∈ file.addedLines,
      ruleMatches p file rule l = true → ¬ OpensZeroHunk lines file l ∧ PrintableNumber lines file l

theorem line_in_range_iff {lines : List Str} {file : FileDiff} {sawHunk : Bool}
    (h : parseSection lines = .ok (file, sawHunk)) {l : NewFileLine} (hl : l ∈ file.lines) :
    1 ≤ l.line ∧ l.line < 10 ^ maxStrDigits ↔
      ¬ OpensZeroHunk lines file l ∧ PrintableNumber lines file l := by
  obtain ⟨start, hstart, hline⟩ := parseSection_line_eq h hl
  have hmem : l ∈ hunkLines file.lines l.hunk := List.mem_filter.mpr ⟨hl, by simp⟩
  have hfirst : (hunkLines file.lines l.hunk).idxOf l = 0 ↔
      (hunkLines file.lines l.hunk).head? = some l := by
    cases hlines : hunkLines file.lines l.hunk with
    | nil =>
      rw [hlines] at hmem
      cases hmem
    | cons first rest =>
      by_cases heq : first = l
      · simp [heq]
      · simp [heq, List.idxOf_cons_ne _ heq]
  have hzero : 1 ≤ l.line ↔ ¬ OpensZeroHunk lines file l := by
    rw [OpensZeroHunk, hstart, ← hfirst, Option.some.injEq]
    omega
  have hlong : l.line < 10 ^ maxStrDigits ↔ PrintableNumber lines file l := by
    rw [PrintableNumber, hline]
    constructor
    · intro hlt s hs
      cases hstart.symm.trans hs
      exact hlt
    · intro hall
      exact hall start hstart
  rw [hzero, hlong]

theorem reportable_iff {p : Patterns} {diff : Str} {files : List FileDiff}
    (hfiles : parseUnifiedDiff diff = .ok files) :
    Reportable p diff ↔ ∀ rule ∈ allRules p, ∀ l ∈ matchedLines p files rule,
      1 ≤ l.line ∧ l.line < 10 ^ maxStrDigits := by
  obtain ⟨-, parsed, hparsed, -, rfl⟩ := parseUnifiedDiff_eq_ok hfiles
  constructor
  · intro hall rule hrule l hl
    obtain ⟨file, hfile, hl⟩ := List.mem_flatMap.mp hl
    obtain ⟨⟨file, sawHunk⟩, hmem, rfl⟩ := List.mem_map.mp hfile
    obtain ⟨lines, hlines, hsection⟩ := mem_of_mapM_eq_ok hparsed hmem
    obtain ⟨hadded, hmatch⟩ := List.mem_filter.mp hl
    exact (line_in_range_iff hsection (List.mem_filter.mp hadded).1).mpr
      (hall lines hlines file sawHunk hsection rule hrule l hadded hmatch)
  · intro hall lines hlines file sawHunk hsection rule hrule l hadded hmatch
    obtain ⟨result, hmem, hresult⟩ := exists_mem_of_mapM_eq_ok hparsed hlines
    cases hsection.symm.trans hresult
    refine (line_in_range_iff hsection (List.mem_filter.mp hadded).1).mp (hall rule hrule l ?_)
    exact List.mem_flatMap.mpr
      ⟨file, List.mem_map.mpr ⟨(file, sawHunk), hmem, rfl⟩, List.mem_filter.mpr ⟨hadded, hmatch⟩⟩

/-- The provider raises nothing exactly on a reportable diff. -/
theorem mockReview_ok_iff {p : Patterns} {diff : Str} {maximumBytes : Int} {files : List FileDiff}
    {chunks : List ReviewChunk} (hfiles : parseUnifiedDiff diff = .ok files)
    (hchunks : chunkFileDiffs files maximumBytes = .ok chunks) :
    (∃ fs, mockReview p chunks = .ok fs) ↔ Reportable p diff := by
  have hordered : ∀ file ∈ files, LinesOrdered file.path file.lines := fun _ hf =>
    parseUnifiedDiff_linesOrdered hfiles hf
  rw [mockReview_eq (chunkFileDiffs_files hchunks), exists_mapM_eq_ok, reportable_iff hfiles]
  constructor
  · intro hall rule hrule l hl
    exact exists_mockFinding_iff.mp (hall (rule, l) (hit_of_mem_matchedLines hrule hordered hl))
  · rintro hall ⟨rule, l⟩ hhit
    exact exists_mockFinding_iff.mpr
      (hall rule (mem_hits hhit) l (mem_matchedLines_of_hit hordered hhit))

theorem reviewDiff_mock_ok_iff {env : Env} {diff : Str} (answers : Answers) {files : List FileDiff}
    {chunks : List ReviewChunk} (hfiles : parseUnifiedDiff diff = .ok files)
    (hchunks : chunkFileDiffs files env.settings.chunkBytes = .ok chunks) :
    (∃ full, reviewDiff env diff .mock answers = .ok full) ↔ Reportable env.patterns diff := by
  rw [← mockReview_ok_iff hfiles hchunks]
  constructor
  · rintro ⟨full, hfull⟩
    obtain ⟨files', chunks', fs, hfiles', hchunks', hfs, -⟩ := reviewDiff_eq_ok hfull
    cases hfiles.symm.trans hfiles'
    cases hchunks.symm.trans hchunks'
    exact ⟨fs, hfs⟩
  · rintro ⟨fs, hfs⟩
    refine ⟨orderedFindings fs 10000000, ?_⟩
    simp only [reviewDiff, hfiles, bind, Except.bind, hchunks, providerReview, hfs, pure, Except.pure]

/-- A reachable mock job that has ended is done or failed as its diff says. -/
theorem mock_job_done_iff {env : Env} {acts : List Action} {s : State} {job : ReviewJob}
    (hcf : CollisionFree env.sha256) (hrun : Run (step env) State.init acts s)
    (hjob : job ∈ s.db.jobs.rows) (hmock : job.provider = .mock)
    (hended : job.status = .done ∨ job.status = .failed) :
    job.status = .done ↔ Reportable env.patterns job.diff := by
  obtain ⟨hledger, -⟩ := run_invariants hrun
  have hget := Table.get?_of_mem hjob
  have hsub := hledger.submitted hget
  obtain ⟨files, chunks, hfiles, hchunks, -⟩ := hsub.accepted.chunked
  obtain ⟨entry, hentry, hdep⟩ := hledger.coherent.entry hget
  obtain ⟨src, hsrc, howns⟩ := hledger.coherent.owner hentry
  have hhash : src.requestHash = job.requestHash :=
    howns.requestHash.trans (Table.key_of_get? hentry)
  obtain ⟨hdiff, hprovider, -⟩ := (hledger.submitted hsrc).same_request hcf hsub hhash
  -- the job ends as its source did
  have hsame : src.status = job.status := by
    cases hhit : job.cacheHit with
    | false =>
      rw [hdep.source hhit, hget] at hsrc
      cases hsrc
      rfl
    | true =>
      rcases hended with hdone | hfailed
      · rw [hdone, howns.status_of_done (hdep.done hhit hdone).1]
      · rw [hfailed, howns.status_of_failed (hdep.failed hhit hfailed)]
  rcases hended with hdone | hfailed
  · obtain ⟨full, ⟨w, answers, -, hreview⟩, -, -⟩ := howns.done (hsame.trans hdone)
    rw [hdiff, hprovider, hmock] at hreview
    exact iff_of_true hdone ((reviewDiff_mock_ok_iff _ hfiles hchunks).mp ⟨full, hreview⟩)
  · obtain ⟨exc, ⟨w, answers, -, hreview⟩, -⟩ := howns.failed (hsame.trans hfailed)
    rw [hdiff, hprovider, hmock] at hreview
    refine iff_of_false (by rw [hfailed]; decide) fun hreportable => ?_
    obtain ⟨full, hfull⟩ := (reviewDiff_mock_ok_iff answers hfiles hchunks).mpr hreportable
    exact nomatch hreview.symm.trans hfull

/-- An accepted mock review succeeds, and its jobs can end only done, exactly when its diff
is reportable. -/
theorem accepted_mock_review_iff {env : Env} {rawBody : List UInt8} {sub : ParsedSubmission}
    (hparse : parseSubmission env rawBody = .ok sub) (hmock : sub.request.provider = .mock) :
    ((∀ answers cacheHit, ∃ full usage,
        reviewDiff env sub.request.diff sub.request.provider answers = .ok full ∧
        Usage.modelValidate ⟨sub.inputBytes, sub.chunks, cacheHit⟩ = .ok usage) ↔
      Reportable env.patterns sub.request.diff) ∧
    (CollisionFree env.sha256 → ∀ acts s job, Run (step env) State.init acts s →
      job ∈ s.db.jobs.rows → job.diff = sub.request.diff → job.provider = .mock →
      job.status = .done ∨ job.status = .failed →
      (job.status = .done ↔ Reportable env.patterns sub.request.diff)) := by
  obtain ⟨-, haccepted⟩ := parseSubmission_eq_ok hparse
  obtain ⟨files, chunks, hfiles, hchunks, -⟩ := haccepted.chunked
  refine ⟨⟨fun hall => ?_, fun hreportable answers cacheHit => ?_⟩, ?_⟩
  · obtain ⟨full, -, hfull, -⟩ := hall (fun _ => .ok []) false
    rw [hmock] at hfull
    exact (reviewDiff_mock_ok_iff _ hfiles hchunks).mp ⟨full, hfull⟩
  · obtain ⟨full, hfull⟩ := (reviewDiff_mock_ok_iff answers hfiles hchunks).mpr hreportable
    rw [hmock]
    exact ⟨full, ⟨⟨sub.inputBytes, sub.chunks, cacheHit⟩, haccepted.chunks_pos⟩, hfull,
      dif_pos haccepted.chunks_pos⟩
  · intro hcf acts s job hrun hjob hdiff hprovider hended
    rw [← hdiff]
    exact mock_job_done_iff hcf hrun hjob hprovider hended

set_option maxRecDepth 20000 in
theorem sampleParsed_isSome :
    (parseSubmission (sampleEnv none) (sampleBody .mock)).toOption.isSome = true := by decide

def sampleParsed : ParsedSubmission :=
  (parseSubmission (sampleEnv none) (sampleBody .mock)).toOption.get sampleParsed_isSome

theorem parseSubmission_sample :
    parseSubmission (sampleEnv none) (sampleBody .mock) = .ok sampleParsed :=
  eq_ok_of_toOption (Option.some_get sampleParsed_isSome).symm

set_option maxRecDepth 20000 in
theorem accepted_mock_review_iff_sample :
    ((∀ answers cacheHit, ∃ full usage,
        reviewDiff (sampleEnv none) sampleParsed.request.diff sampleParsed.request.provider answers
          = .ok full ∧
        Usage.modelValidate ⟨sampleParsed.inputBytes, sampleParsed.chunks, cacheHit⟩ = .ok usage) ↔
      Reportable samplePatterns sampleParsed.request.diff) ∧
    (CollisionFree sampleSha256 → ∀ acts s job, Run (step (sampleEnv none)) State.init acts s →
      job ∈ s.db.jobs.rows → job.diff = sampleParsed.request.diff → job.provider = .mock →
      job.status = .done ∨ job.status = .failed →
      (job.status = .done ↔ Reportable samplePatterns sampleParsed.request.diff)) :=
  accepted_mock_review_iff parseSubmission_sample (by decide)

/-! ## A hunk declared at line 0 -/

def zeroDiff : Str := lit "--- a/x\n+++ b/x\n@@ -0,0 +0,1 @@\n+eval(\n"

def zeroBody : List UInt8 := (encode (canonicalJson zeroDiff .mock 100)).getD []

def zeroEnv : Env := { sampleEnv none with
  jsonLoads := fun body =>
    if body = zeroBody then .ok ⟨zeroDiff, .mock, 100, defaultMaxFindings_le⟩ else .error .decode }

set_option maxRecDepth 20000 in
/-- The body is accepted, and its review fails: the added line is numbered 0. -/
theorem accepted_mock_review_fails :
    (parseSubmission zeroEnv zeroBody).map (fun sub => (sub.request.diff, sub.request.provider))
        = .ok (zeroDiff, .mock) ∧
      ∀ answers, ¬ ∃ full, reviewDiff zeroEnv zeroDiff .mock answers = .ok full := by
  have hfails : reviewDiff zeroEnv zeroDiff .mock (fun _ => .ok [])
      = .error (.foreign .validation) := by rfl
  refine ⟨by rfl, fun answers ⟨full, hfull⟩ => ?_⟩
  exact nomatch hfails.symm.trans hfull

end DiffReview
