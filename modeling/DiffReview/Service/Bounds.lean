import DiffReview.Review.Prompts
import DiffReview.Review.Rules
import DiffReview.Service.Results

/-!
# DiffReview — how much a job can be

A diff cannot report more lines than it has characters, and each added line meets nine rules:
under the default payload limit no mock review comes near the ten million findings at which
`_process_job` would cut it, so a done job holds the start of the whole review
(`mock_done_whole`). The chunks of a job, each one request to the model, are bounded by its
bytes (`chunks_bounded`).
-/

namespace DiffReview

open Py Raise Transition Blocks

/-! ## Lines -/

/-- A line of the text gives at most one line of the file. -/
theorem length_lines_le {lines : List Str} {file : FileDiff} {sawHunk : Bool}
    (h : parseSection lines = .ok (file, sawHunk)) : file.lines.length ≤ lines.length := by
  obtain ⟨-, i, st, -, -, -, hst, hlines, -⟩ := parseSection_eq_ok h
  have hscan : st.lines.length ≤ (lines.drop (i + 1)).length := by
    refine foldlM_invariant (P := fun pre st => st.lines.length ≤ pre.length) hst le_rfl ?_
    intro pre line c c' _ ih hstep
    -- a hunk header and a skipped line report nothing
    have hone : c'.lines.length ≤ c.lines.length + 1 := by
      rcases scanLine_kinds hstep with ⟨-, start, -, rfl⟩ | ⟨-, rfl | ⟨n, -, -, ⟨-, rfl⟩ | ⟨-, rfl⟩⟩⟩
      · exact Nat.le_succ _
      · exact Nat.le_succ _
      · exact Nat.le_succ _
      · unfold HunkScan.report
        split
        · exact Nat.le_succ _
        · exact (List.length_append ..).le
    rw [List.length_append, List.length_singleton]
    omega
  rw [hlines]
  rw [List.length_drop] at hscan
  omega

/-- A text has no more lines than characters. -/
theorem length_splitlines_le (s : Str) : (splitlines s).length ≤ s.length := by
  -- no line is empty
  have hall : ∀ ls : List Str, (∀ l ∈ ls, l ≠ []) → ls.length ≤ ls.flatten.length := by
    intro ls hls
    induction ls with
    | nil => exact le_rfl
    | cons l ls ih =>
      obtain ⟨hl, hls⟩ := List.forall_mem_cons.mp hls
      have hpos := List.length_pos_iff.mpr hl
      have hrest := ih hls
      rw [List.flatten_cons, List.length_append, List.length_cons]
      omega
  have hlines := hall (splitlines s) fun l hl => ne_nil_of_mem_splitlines hl
  rwa [flatten_splitlines] at hlines

/-- The lines of all files are no more than the characters of the diff. -/
theorem length_allLines_le {diff : Str} {files : List FileDiff} (h : parseUnifiedDiff diff = .ok files) :
    (files.flatMap (·.lines)).length ≤ diff.length := by
  obtain ⟨parsed, hparsed, rfl⟩ := parsed_sections h
  have hsections : ∀ {blocks : List (List Str)} {parsed : List (FileDiff × Bool)},
      List.Forall₂ (fun b p => parseSection b = .ok p) blocks parsed →
      ((parsed.map (·.1)).flatMap (·.lines)).length ≤ blocks.flatten.length := by
    intro blocks parsed hparsed
    induction hparsed with
    | nil => exact le_rfl
    | cons hp _ ih =>
      have hfirst := length_lines_le hp
      rw [List.map_cons, List.flatMap_cons, List.flatten_cons, List.length_append, List.length_append]
      omega
  have hlines := congrArg List.length (splitlines_eq_sections diff)
  rw [List.length_append] at hlines
  have hlast := length_splitlines_le diff
  have hfirst := hsections hparsed
  omega

/-! ## Findings -/

theorem length_flatMap_le {α β : Type} {f : α → List β} {as : List α} {n : Nat}
    (h : ∀ a ∈ as, (f a).length ≤ n) : (as.flatMap f).length ≤ n * as.length := by
  induction as with
  | nil => exact Nat.zero_le _
  | cons a as ih =>
    obtain ⟨ha, has⟩ := List.forall_mem_cons.mp h
    have hrest := ih has
    rw [List.flatMap_cons, List.length_append, List.length_cons, Nat.mul_succ]
    omega

/-- Eight line rules and the rule of the swallowed exceptions. -/
theorem length_fileHits_le (p : Patterns) {file : FileDiff} (h : LinesOrdered file.path file.lines) :
    (fileHits p file).length ≤ 9 * file.lines.length := by
  have hadded : file.addedLines.length ≤ file.lines.length := List.length_filter_le _ _
  have hrules : (file.addedLines.flatMap fun line =>
      ((rules p).filter fun rule => rule.pattern line.content).map fun rule => (rule, line)).length
        ≤ 8 * file.addedLines.length := by
    refine length_flatMap_le fun line _ => ?_
    rw [List.length_map]
    exact List.length_filter_le _ (rules p)
  -- the rule of the swallowed exceptions reports an added line once
  have hcatch := (emptyCatchLines_sublist p.isWord h).length_le
  rw [fileHits, List.length_append, List.length_map]
  omega

theorem length_mockReview_le {p : Patterns} {diff : Str} {maximumBytes : Int} {files : List FileDiff}
    {chunks : List ReviewChunk} {fs : List Finding} (hfiles : parseUnifiedDiff diff = .ok files)
    (hchunks : chunkFileDiffs files maximumBytes = .ok chunks) (hfs : mockReview p chunks = .ok fs) :
    fs.length ≤ 9 * diff.length := by
  rw [mockReview_eq (chunkFileDiffs_files hchunks)] at hfs
  rw [← (mapM_eq_ok.mp hfs).length_eq]
  have hhits : ∀ files : List FileDiff, (∀ file ∈ files, LinesOrdered file.path file.lines) →
      (files.flatMap (fileHits p)).length ≤ 9 * (files.flatMap (·.lines)).length := by
    intro files h
    induction files with
    | nil => exact le_rfl
    | cons file files ih =>
      obtain ⟨hfile, hfiles⟩ := List.forall_mem_cons.mp h
      have hfirst := length_fileHits_le p hfile
      have hrest := ih hfiles
      rw [List.flatMap_cons, List.flatMap_cons, List.length_append, List.length_append]
      omega
  have hall := hhits files fun file hf => parseUnifiedDiff_linesOrdered hfiles hf
  have hlines := length_allLines_le hfiles
  omega

/-! ## Jobs -/

/-- A string of a JSON text has no more characters than the text has bytes. -/
def DiffInBody (env : Env) : Prop :=
  ∀ rawBody payload request, env.jsonLoads rawBody = .ok payload →
    env.modelValidate payload = some request → request.diff.length ≤ rawBody.length

/-- What an accepted body has been measured to. -/
theorem parseSubmission_measured {env : Env} {rawBody : List UInt8} {sub : ParsedSubmission}
    (h : parseSubmission env rawBody = .ok sub) :
    (rawBody.length : Int) ≤ env.settings.maxPayloadBytes ∧
      (∃ payload, env.jsonLoads rawBody = .ok payload ∧
        env.modelValidate payload = some sub.request) ∧
      ∃ bytes, encode sub.request.diff = some bytes ∧ sub.inputBytes = bytes.length := by
  obtain ⟨⟨⟩, hsize, h⟩ := bind_eq_ok.mp h
  obtain ⟨payload, hpayload, h⟩ := bind_eq_ok.mp h
  obtain ⟨request, hrequest, h⟩ := bind_eq_ok.mp h
  obtain ⟨files, -, h⟩ := bind_eq_ok.mp h
  obtain ⟨chunks, -, h⟩ := bind_eq_ok.mp h
  obtain ⟨hash, -, h⟩ := bind_eq_ok.mp h
  obtain ⟨bytes, hbytes, h⟩ := bind_eq_ok.mp h
  cases h
  refine ⟨?_, ⟨payload, ?_, ?_⟩, bytes, orRaise_eq_ok.mp (orUnhandled_eq_ok.mp hbytes), rfl⟩
  · unfold checkPayloadSize at hsize
    split at hsize
    · cases hsize
    · next hsmall => exact not_lt.mp hsmall
  · unfold loadsOrReject at hpayload
    split at hpayload
    · next hloads =>
      cases hpayload
      exact hloads
    · cases hpayload
    · cases hpayload
  · unfold validateOrReject at hrequest
    split at hrequest
    · next hvalidate =>
      cases hrequest
      exact hvalidate
    · cases hrequest

variable {env : Env} {acts : List Action} {s : State} {job : ReviewJob}

theorem Submitted.length_diff_le (h : Submitted env job) (hbody : DiffInBody env) :
    (job.diff.length : Int) ≤ env.settings.maxPayloadBytes := by
  obtain ⟨rawBody, sub, hsub, hsame⟩ := h
  obtain ⟨hsize, ⟨payload, hloads, hvalidate⟩, -⟩ := parseSubmission_measured hsub
  have hdiff := hbody rawBody payload sub.request hloads hvalidate
  rw [hsame.diff]
  show (sub.request.diff.length : Int) ≤ env.settings.maxPayloadBytes
  omega

/-- Every done mock job, fresh or from the cache, holds the first `maxFindings` of the exact
review of its diff: the payload limit keeps a review below the cut of `_process_job`. -/
theorem mock_done_whole (hcf : CollisionFree env.sha256) (hbody : DiffInBody env)
    (hlimit : 9 * env.settings.maxPayloadBytes < 10000000)
    (hrun : Run (step env) State.init acts s) (hjob : job ∈ s.db.jobs.rows)
    (hmock : job.provider = .mock) (hdone : job.status = .done) :
    ∃ files full, parseUnifiedDiff job.diff = .ok files ∧ ExactMockReview env.patterns files full ∧
      job.findings = some ((full.take job.maxFindings).map Finding.modelDump) := by
  obtain ⟨hledger, -⟩ := run_invariants hrun
  have hget := Table.get?_of_mem hjob
  obtain ⟨-, -, answers, files, chunks, fs, -, -, -, hfiles, hchunks, hfs, hfindings⟩ :=
    hledger.done_findings hcf hget hdone
  rw [hmock] at hfs
  have hreview : mockReview env.patterns chunks = .ok fs := hfs
  have hlength := length_mockReview_le hfiles hchunks hreview
  have hdiff := (hledger.submitted hget).length_diff_le hbody
  -- nine findings for each character at most: `[:10_000_000]` cuts nothing
  refine ⟨files, orderedAll fs, hfiles, mockReview_exact hfiles hchunks hreview, ?_⟩
  rw [hfindings, orderedFindings_uncut (by omega)]

def textEnv : Env := { sampleEnv none with patterns := linePatterns samplePatterns.isWord }

set_option maxRecDepth 20000 in
theorem diffInBody_textEnv : DiffInBody textEnv := by
  have hmock : (sampleRequest .mock).diff.length ≤ (sampleBody .mock).length := by decide
  have hllm : (sampleRequest .llm).diff.length ≤ (sampleBody .llm).length := by decide
  intro rawBody payload request hloads hvalidate
  cases hvalidate
  change (if rawBody = sampleBody .mock then Except.ok (sampleRequest .mock)
    else if rawBody = sampleBody .llm then .ok (sampleRequest .llm) else .error _) = _ at hloads
  split at hloads
  · next hraw =>
    rw [hraw, ← Except.ok.inj hloads]
    exact hmock
  · split at hloads
    · next hraw =>
      rw [hraw, ← Except.ok.inj hloads]
      exact hllm
    · cases hloads

set_option maxRecDepth 20000 in
theorem textRun_isSome : (sampleRun.foldlM (step textEnv) State.init).isSome = true := by decide

def textState : State := (sampleRun.foldlM (step textEnv) State.init).get textRun_isSome

set_option maxRecDepth 20000 in
theorem textJob_isSome : (textState.db.jobs.get? (lit "a")).isSome = true := by decide

def textJob : ReviewJob := (textState.db.jobs.get? (lit "a")).get textJob_isSome

/-- All files together have no more bytes than the diff. -/
theorem total_bytes_le {diff : Str} {files : List FileDiff} {bytes : List UInt8}
    (hfiles : parseUnifiedDiff diff = .ok files) (hbytes : encode diff = some bytes)
    (hsizes : ∀ f ∈ files, ∃ n, f.byteSize = .ok n) :
    total FileDiff.bytes files ≤ bytes.length := by
  obtain ⟨preamble, hdiff, -⟩ := exists_preamble hfiles
  obtain ⟨raw, hraw, hrawLength⟩ := encode_raw hsizes
  have hplain := exists_encode_iff.mp ⟨bytes, hbytes⟩
  obtain ⟨first, hfirst⟩ := exists_encode_iff.mpr fun c hc =>
    hplain c (hdiff ▸ List.mem_append_left _ hc)
  -- the files are the diff behind its preamble
  have hall := encode_append hfirst hraw
  rw [← hdiff, hbytes] at hall
  have hlength := congrArg List.length (Option.some.inj hall)
  rw [List.length_append] at hlength
  omega

/-- A job is asked about in few requests: two chunks in a row are more than one limit. -/
theorem chunks_bounded (hrun : Run (step env) State.init acts s) (hjob : job ∈ s.db.jobs.rows) :
    1 ≤ job.chunks ∧ env.settings.chunkBytes * (job.chunks - 1) ≤ 2 * (job.inputBytes : Int) := by
  obtain ⟨hledger, -⟩ := run_invariants hrun
  have hsubmitted := hledger.submitted (Table.get?_of_mem hjob)
  refine ⟨hsubmitted.accepted.chunks_pos, ?_⟩
  obtain ⟨files, chunks, hfiles, hchunks, hcount⟩ := hsubmitted.accepted.chunked
  obtain ⟨rawBody, sub, hsub, hsame⟩ := hsubmitted
  obtain ⟨-, -, bytes, hbytes, hinput⟩ := parseSubmission_measured hsub
  have hsizes := exists_byteSize_of_chunkFileDiffs hchunks
  have hdiff : job.diff = sub.request.diff := hsame.diff
  rw [← hdiff] at hbytes
  have htotal := total_bytes_le hfiles hbytes hsizes
  rw [chunkFileDiffs_eq _ hsizes] at hchunks
  obtain ⟨f, rest, rfl⟩ := List.exists_cons_of_ne_nil (parseUnifiedDiff_ne_nil hfiles)
  have hbound : env.settings.chunkBytes *
      ((greedy FileDiff.bytes env.settings.chunkBytes [f] rest).length - 1)
        ≤ total FileDiff.bytes [f] + 2 * (total FileDiff.bytes rest : Int) :=
    bound_mul_length_greedy_le (List.cons_ne_nil f []) rest
  have hlength : job.chunks = (greedy FileDiff.bytes env.settings.chunkBytes [f] rest).length := by
    rw [hcount, ← Except.ok.inj hchunks, List.length_map, greedy_nil_cons]
  rw [← List.singleton_append, total_append] at htotal
  have hinputBytes : job.inputBytes = bytes.length := hsame.inputBytes.trans hinput
  rw [hlength, hinputBytes]
  omega

theorem chunks_bounded_sample : 1 ≤ textJob.chunks ∧
    65536 * ((textJob.chunks : Int) - 1) ≤ 2 * (textJob.inputBytes : Int) :=
  chunks_bounded (Run.get textRun_isSome)
    (Table.get?_eq_some_iff.mp (Option.some_get textJob_isSome).symm).1

end DiffReview
