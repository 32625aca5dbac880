import DiffReview.Diff.Chunks
import DiffReview.Review.Ordering

/-!
# DiffReview — the LLM review is grounded

Whatever the model answers, a finding of `llmReview` is a proposal whose path and line are
an added line of its own chunk, with the content of that line as evidence; and every such
proposal gives its id to the result.
-/

namespace DiffReview

open Py Raise

/-- The id of the finding a proposal gives. -/
def proposalId (sha256 : List UInt8 → Str) (p : LLMFindingProposal) : Except PyError Str := do
  let digest := (sha256 (← orRaise .unicodeEncode (encode (normalizeTitle p.title)))).take 10
  let number ← orRaise .intMaxStrDigits (strInt p.line)
  return llmId p.path number digest

/-- The proposal points at an added line of the chunk. -/
def Grounded (chunk : ReviewChunk) (p : LLMFindingProposal) : Prop :=
  ∃ l ∈ chunk.files.flatMap FileDiff.addedLines, l.path = p.path ∧ l.line = p.line

/-- A finding of a proposal, with the content of an added line of the chunk. -/
structure GroundedFinding (sha256 : List UInt8 → Str) (chunk : ReviewChunk)
    (p : LLMFindingProposal) (item : FindingDict) : Prop where
  id : proposalId sha256 p = .ok item.id
  line : ∃ l ∈ chunk.files.flatMap FileDiff.addedLines,
    l.path = item.path ∧ l.line = item.line ∧ l.content = item.evidence
  path_eq : item.path = p.path
  line_eq : item.line = p.line
  title : item.title = normalizeTitle p.title

theorem normalizeTitle_ne_nil (title : Str) : normalizeTitle title ≠ [] := by
  unfold normalizeTitle
  dsimp only
  split
  · decide
  · assumption

theorem length_normalizeTitle_le (title : Str) : (normalizeTitle title).length ≤ 120 := by
  unfold normalizeTitle
  dsimp only
  split
  · decide
  · exact List.length_take_le _ _

/-! ## The evidence of a chunk -/

theorem evidenceMap_get? {chunk : ReviewChunk} {path : Str} {line : Nat}
    {pair : (Str × Nat) × Str} (h : (evidenceMap chunk).get? (path, line) = some pair) :
    ∃ l ∈ chunk.files.flatMap FileDiff.addedLines,
      l.path = path ∧ l.line = line ∧ l.content = pair.2 := by
  obtain ⟨hmem, hkey⟩ := Table.get?_eq_some_iff.mp h
  obtain ⟨l, hl, rfl⟩ := List.mem_map.mp (Table.mem_of_mem_rows_fromRows hmem)
  exact ⟨l, hl, congrArg Prod.fst hkey, congrArg Prod.snd hkey, rfl⟩

theorem evidenceMap_get?_eq_none {chunk : ReviewChunk} {p : LLMFindingProposal} :
    (evidenceMap chunk).get? (p.path, p.line) = none ↔ ¬ Grounded chunk p := by
  rw [Table.get?_eq_none_iff, evidenceMap, Table.mem_keys_fromRows, List.map_map, List.mem_map]
  simp [Grounded]

/-! ## One proposal -/

theorem groundProposal_none {sha256 : List UInt8 → Str} {chunk : ReviewChunk}
    {p : LLMFindingProposal} (h : groundProposal sha256 (evidenceMap chunk) p = .ok none) :
    ¬ Grounded chunk p := by
  unfold groundProposal at h
  split at h
  · next hnone => exact evidenceMap_get?_eq_none.mp hnone
  · obtain ⟨_, -, h⟩ := bind_eq_ok.mp h
    obtain ⟨_, -, h⟩ := bind_eq_ok.mp h
    cases h

theorem groundProposal_some {sha256 : List UInt8 → Str} {chunk : ReviewChunk}
    {p : LLMFindingProposal} {item : FindingDict}
    (h : groundProposal sha256 (evidenceMap chunk) p = .ok (some item)) :
    Grounded chunk p ∧ GroundedFinding sha256 chunk p item := by
  unfold groundProposal at h
  split at h
  · cases h
  · next key content hget =>
    obtain ⟨bytes, hbytes, h⟩ := bind_eq_ok.mp h
    obtain ⟨number, hnumber, h⟩ := bind_eq_ok.mp h
    cases h
    have hid : proposalId sha256 p
        = .ok (llmId p.path number ((sha256 bytes).take 10)) := by
      rw [proposalId, hbytes, hnumber]
      rfl
    have hline := evidenceMap_get? hget
    refine ⟨?_, hid, hline, rfl, rfl, rfl⟩
    obtain ⟨l, hl, hpath, hnum, -⟩ := hline
    exact ⟨l, hl, hpath, hnum⟩

/-! ## The whole review -/

/-- The proposals the model gives for the chunk with a given number. -/
def Proposed (chunks : List ReviewChunk) (answers : Answers) (chunk : ReviewChunk)
    (p : LLMFindingProposal) : Prop :=
  ∃ i proposals, chunks[i]? = some chunk ∧ answers i = .ok proposals ∧ p ∈ proposals

theorem analyzeChunk_eq_ok {sha256 : List UInt8 → Str} {chunk : ReviewChunk}
    {answer : Except Str (List LLMFindingProposal)} {items : List FindingDict}
    (h : analyzeChunk sha256 chunk answer = .ok items) :
    ∃ proposals results, answer = .ok proposals ∧
      proposals.mapM (groundProposal sha256 (evidenceMap chunk)) = .ok results ∧
      items = results.filterMap id := by
  unfold analyzeChunk at h
  split at h
  · cases h
  · next proposals =>
    obtain ⟨results, hresults, rfl⟩ := map_eq_ok.mp h
    exact ⟨proposals, results, rfl, hresults, rfl⟩

theorem modelValidate_eq_ok {item : FindingDict} {f : Finding}
    (h : Finding.modelValidate item = .ok f) : f.modelDump = item := by
  unfold Finding.modelValidate at h
  split at h
  · cases h
    rfl
  · cases h

theorem llmReview_eq_ok {env : LlmEnv} {answers : Answers} {chunks : List ReviewChunk}
    {fs : List Finding} (h : llmReview env answers chunks = .ok fs) :
    ∃ results, (chunks.zipIdx.mapM fun c => analyzeChunk env.sha256 c.1 (answers c.2))
        = .ok results ∧ fs.map Finding.modelDump = results.flatten := by
  obtain ⟨-, -, h⟩ := bind_eq_ok.mp h
  obtain ⟨items, hitems, h⟩ := bind_eq_ok.mp h
  unfold invokeGraph at hitems
  split at hitems
  · cases hitems
  · next results hresults =>
    cases hitems
    refine ⟨results, hresults, ?_⟩
    have hall := mapM_eq_ok.mp h
    rw [← List.forall₂_eq_eq_eq, List.forall₂_map_left_iff]
    exact (hall.imp fun item f hf => modelValidate_eq_ok hf).flip

/-- Every finding is what one proposal for one chunk gives. -/
theorem exists_groundProposal_of_mem {env : LlmEnv} {answers : Answers} {chunks : List ReviewChunk}
    {fs : List Finding} (h : llmReview env answers chunks = .ok fs) {f : Finding} (hf : f ∈ fs) :
    ∃ chunk p, Proposed chunks answers chunk p ∧
      groundProposal env.sha256 (evidenceMap chunk) p = .ok (some f.modelDump) := by
  obtain ⟨results, hresults, hdump⟩ := llmReview_eq_ok h
  have hmem : f.modelDump ∈ results.flatten := hdump ▸ List.mem_map_of_mem hf
  obtain ⟨items, hitems, hitem⟩ := List.mem_flatten.mp hmem
  obtain ⟨⟨chunk, i⟩, hchunk, hanalyze⟩ := mem_of_mapM_eq_ok hresults hitems
  obtain ⟨proposals, rs, hanswer, hrs, rfl⟩ := analyzeChunk_eq_ok hanalyze
  obtain ⟨r, hr, hsome⟩ := List.mem_filterMap.mp hitem
  obtain ⟨p, hp, hground⟩ := mem_of_mapM_eq_ok hrs hr
  rw [show r = some f.modelDump from hsome] at hground
  exact ⟨chunk, p, ⟨i, proposals, List.mem_zipIdx_iff_getElem?.mp hchunk, hanswer, hp⟩, hground⟩

theorem mem_llmReview {env : LlmEnv} {answers : Answers} {chunks : List ReviewChunk}
    {fs : List Finding} (h : llmReview env answers chunks = .ok fs) {f : Finding} (hf : f ∈ fs) :
    ∃ chunk p, Proposed chunks answers chunk p ∧ Grounded chunk p ∧
      GroundedFinding env.sha256 chunk p f.modelDump := by
  obtain ⟨chunk, p, hproposed, hground⟩ := exists_groundProposal_of_mem h hf
  obtain ⟨hgrounded, hfinding⟩ := groundProposal_some hground
  exact ⟨chunk, p, hproposed, hgrounded, hfinding⟩

theorem exists_mem_llmReview {env : LlmEnv} {answers : Answers} {chunks : List ReviewChunk}
    {fs : List Finding} (h : llmReview env answers chunks = .ok fs) {chunk : ReviewChunk}
    {p : LLMFindingProposal} (hp : Proposed chunks answers chunk p) (hg : Grounded chunk p) :
    ∃ f ∈ fs, proposalId env.sha256 p = .ok f.id := by
  obtain ⟨i, proposals, hchunk, hanswer, hmem⟩ := hp
  obtain ⟨results, hresults, hdump⟩ := llmReview_eq_ok h
  have hindexed : (chunk, i) ∈ chunks.zipIdx := List.mem_zipIdx_iff_getElem?.mpr hchunk
  obtain ⟨items, hitems, hanalyze⟩ := exists_mem_of_mapM_eq_ok hresults hindexed
  obtain ⟨proposals', rs, hanswer', hrs, rfl⟩ := analyzeChunk_eq_ok hanalyze
  cases hanswer.symm.trans hanswer'
  obtain ⟨r, hr, hground⟩ := exists_mem_of_mapM_eq_ok hrs hmem
  cases r with
  | none => exact absurd hg (groundProposal_none hground)
  | some item =>
    have hitem : item ∈ results.flatten :=
      List.mem_flatten.mpr ⟨_, hitems, List.mem_filterMap.mpr ⟨some item, hr, rfl⟩⟩
    rw [← hdump] at hitem
    obtain ⟨f, hf, rfl⟩ := List.mem_map.mp hitem
    exact ⟨f, hf, (groundProposal_some hground).2.id⟩

/-- The proposals of the first `n` chunks, counted. -/
def proposalCount (answers : Answers) (n : Nat) : Nat :=
  ((List.range n).map fun i => ((answers i).toOption.getD []).length).sum

theorem length_llmReview_le {env : LlmEnv} {answers : Answers} {chunks : List ReviewChunk}
    {fs : List Finding} (h : llmReview env answers chunks = .ok fs) :
    fs.length ≤ proposalCount answers chunks.length := by
  obtain ⟨results, hresults, hdump⟩ := llmReview_eq_ok h
  have hlength : fs.length = (results.map List.length).sum := by
    rw [show fs.length = (fs.map Finding.modelDump).length from (List.length_map _).symm, hdump,
      List.length_flatten]
  have hcount : proposalCount answers chunks.length
      = (chunks.zipIdx.map fun c => ((answers c.2).toOption.getD []).length).sum := by
    rw [proposalCount, List.range_eq_range', ← List.zipIdx_map_snd 0 chunks, List.map_map]
    rfl
  rw [hlength, hcount]
  have hall := mapM_eq_ok.mp hresults
  refine List.Forall₂.sum_le_sum ?_
  rw [List.forall₂_map_left_iff, List.forall₂_map_right_iff]
  refine (hall.imp fun c items hitems => ?_).flip
  -- a chunk gives at most one finding for each proposal
  obtain ⟨proposals, rs, hanswer, hrs, rfl⟩ := analyzeChunk_eq_ok hitems
  have hlen : proposals.length = rs.length := (mapM_eq_ok.mp hrs).length_eq
  change (rs.filterMap id).length ≤ ((answers c.2).toOption.getD []).length
  rw [show (answers c.2).toOption.getD [] = proposals from by rw [hanswer]; rfl, hlen]
  exact List.length_filterMap_le _ _

/-- A review whose findings are the grounded proposals, each id once. -/
structure GroundedReview (sha256 : List UInt8 → Str) (files : List FileDiff)
    (chunks : List ReviewChunk) (answers : Answers) (full : List Finding) : Prop where
  evidence : ∀ f ∈ full, ∃ l ∈ files.flatMap FileDiff.addedLines,
    l.path = f.path ∧ l.line = f.line ∧ l.content = f.evidence
  title : ∀ f ∈ full, f.title ≠ [] ∧ f.title.length ≤ 120
  ids_nodup : (full.map (·.id)).Nodup
  ids : ∀ id, id ∈ full.map (·.id) ↔ ∃ chunk p, Proposed chunks answers chunk p ∧
    Grounded chunk p ∧ proposalId sha256 p = .ok id

theorem llmReview_grounded {env : LlmEnv} {answers : Answers} {files : List FileDiff}
    {maximumBytes : Int} {chunks : List ReviewChunk} {fs : List Finding}
    (hchunks : chunkFileDiffs files maximumBytes = .ok chunks)
    (h : llmReview env answers chunks = .ok fs) :
    GroundedReview env.sha256 files chunks answers (orderedAll fs) where
  evidence f hf := by
    obtain ⟨chunk, p, ⟨i, -, hchunk, -⟩, -, hfinding⟩ := mem_llmReview h (mem_of_mem_orderedAll hf)
    obtain ⟨l, hl, hline⟩ := hfinding.line
    refine ⟨l, ?_, hline⟩
    rw [← chunkFileDiffs_files hchunks, List.flatMap_assoc]
    exact List.mem_flatMap.mpr ⟨chunk, List.mem_of_getElem? hchunk, hl⟩
  title f hf := by
    obtain ⟨chunk, p, -, -, hfinding⟩ := mem_llmReview h (mem_of_mem_orderedAll hf)
    have htitle : f.title = normalizeTitle p.title := hfinding.title
    rw [htitle]
    exact ⟨normalizeTitle_ne_nil _, length_normalizeTitle_le _⟩
  ids_nodup := orderedAll_ids_nodup fs
  ids id := by
    constructor
    · intro hid
      obtain ⟨f, hf, rfl⟩ := List.mem_map.mp hid
      obtain ⟨chunk, p, hp, hg, hfinding⟩ := mem_llmReview h (mem_of_mem_orderedAll hf)
      exact ⟨chunk, p, hp, hg, hfinding.id⟩
    · rintro ⟨chunk, p, hp, hg, hid⟩
      obtain ⟨f, hf, hfid⟩ := exists_mem_llmReview h hp hg
      obtain ⟨g, hg', hgid⟩ := exists_mem_orderedAll_id hf
      refine List.mem_map.mpr ⟨g, hg', ?_⟩
      exact hgid.trans (Except.ok.inj (hfid.symm.trans hid))

end DiffReview
