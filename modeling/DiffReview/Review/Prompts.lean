import DiffReview.Diff.Slices
import DiffReview.Review.LlmReview

/-!
# DiffReview — what the model is shown

A chunk is shown to the model as its raw text. The texts of the chunks, laid end to end, are
the diff from its first header on; each is a diff of its own with just the files of the chunk,
so that the evidence the proposals are checked against is that of the text shown
(`shown_exactly`).
-/

namespace DiffReview

open Py Raise

/-! ## Sizes -/

theorem encode_append {s t : Str} {bs cs : List UInt8} (hs : encode s = some bs)
    (ht : encode t = some cs) : encode (s ++ t) = some (bs ++ cs) := by
  induction s generalizing bs with
  | nil =>
    cases hs
    exact ht
  | cons c s ih =>
    rw [encode_cons] at hs
    obtain ⟨b, hb, hs⟩ := Option.bind_eq_some_iff.mp hs
    obtain ⟨bs', hbs', rfl⟩ := Option.map_eq_some_iff.mp hs
    rw [List.cons_append, encode_cons, hb, ih hbs', List.append_assoc]
    rfl

/-- The text of some files has the bytes of all of them. -/
theorem encode_raw {files : List FileDiff} (h : ∀ f ∈ files, ∃ n, f.byteSize = .ok n) :
    ∃ bytes, encode (files.flatMap (·.raw)) = some bytes ∧
      bytes.length = Blocks.total FileDiff.bytes files := by
  induction files with
  | nil => exact ⟨[], rfl, rfl⟩
  | cons f files ih =>
    obtain ⟨⟨n, hn⟩, hfiles⟩ := List.forall_mem_cons.mp h
    obtain ⟨bytes, hbytes, hlength⟩ := ih hfiles
    obtain ⟨raw, hraw, hrawLength⟩ := map_eq_ok.mp hn
    refine ⟨raw ++ bytes, ?_, ?_⟩
    · rw [List.flatMap_cons]
      exact encode_append (orRaise_eq_ok.mp hraw) hbytes
    · rw [List.length_append, hrawLength, hlength, Blocks.total, Blocks.total, List.map_cons,
        List.sum_cons, FileDiff.bytes_eq hn]

/-! ## Texts -/

/-- What stands before the first header of a text. -/
theorem exists_preamble {diff : Str} {files : List FileDiff} (h : parseUnifiedDiff diff = .ok files) :
    ∃ preamble, diff = preamble ++ files.flatMap (·.raw) ∧
      (∀ line ∈ splitlines preamble, startswith line gitHeader = false) ∧
      ((∀ line ∈ splitlines diff, startswith line gitHeader = false) →
        plainStarts (splitlines preamble) = []) := by
  obtain ⟨parsed, hparsed, rfl⟩ := parsed_sections h
  have hlines := splitlines_eq_sections diff
  have hpreamble : splitlines (cut (headStyle (splitlines diff)) (splitlines diff)).1.flatten
      = (cut (headStyle (splitlines diff)) (splitlines diff)).1 := by
    rw [← List.nil_append (cut _ _).1] at hlines
    exact splitlines_infix hlines
  refine ⟨(cut (headStyle (splitlines diff)) (splitlines diff)).1.flatten, ?_, ?_, ?_⟩
  · rw [raw_of_parsed hparsed, ← List.flatten_append, ← hlines, flatten_splitlines]
  · rw [hpreamble]
    intro line hline
    have hmem : line ∈ splitlines diff := hlines ▸ List.mem_append_left _ hline
    by_contra hgit
    rw [Bool.not_eq_false] at hgit
    have hstyle : headStyle (splitlines diff) = gitHead :=
      if_pos (List.any_eq_true.mpr ⟨line, hmem, hgit⟩)
    have hnone := startsBy_before settled_gitHead (splitlines diff)
    rw [← gitStarts_eq, gitStarts, List.filter_eq_nil_iff] at hnone
    rw [hstyle] at hline
    obtain ⟨i, hi, rfl⟩ := List.getElem_of_mem hline
    refine hnone i (List.mem_range.mpr hi) ?_
    rwa [lineAt_eq hi]
  · rw [hpreamble]
    intro hno
    have hstyle : headStyle (splitlines diff) = plainHead := by
      refine if_neg fun hany => ?_
      obtain ⟨line, hline, hgit⟩ := List.any_eq_true.mp hany
      exact Bool.noConfusion (hgit.symm.trans (hno line hline))
    rw [hstyle, plainStarts_eq]
    exact startsBy_before settled_plainHead (splitlines diff)

/-- A text without a hunk has no added line. -/
theorem analyzeChunk_of_no_lines {sha256 : List UInt8 → Str} {chunk : ReviewChunk}
    (h : ∀ file ∈ chunk.files, file.lines = []) (answer : Except Str (List LLMFindingProposal)) :
    analyzeChunk sha256 chunk answer = analyzeChunk sha256 ⟨[]⟩ answer := by
  have hadded : chunk.files.flatMap FileDiff.addedLines = [] := by
    refine List.flatMap_eq_nil_iff.mpr fun file hfile => ?_
    rw [FileDiff.addedLines, h file hfile]
    rfl
  have hevidence : evidenceMap chunk = evidenceMap ⟨[]⟩ := by
    rw [evidenceMap, hadded]
    rfl
  unfold analyzeChunk
  rw [hevidence]

/-- The model is shown the whole diff from its first header on, and each chunk is reviewed as
the text shown for it: the same text, parsed and reviewed on its own, gives the same. -/
structure ShownExactly (diff : Str) (chunks : List ReviewChunk) : Prop where
  covered : ∃ preamble, diff = preamble ++ chunks.flatMap ReviewChunk.raw ∧
    (∀ line ∈ splitlines preamble, startswith line gitHeader = false) ∧
    ((∀ line ∈ splitlines diff, startswith line gitHeader = false) →
      plainStarts (splitlines preamble) = [])
  parses : ∀ chunk ∈ chunks, parseUnifiedDiff chunk.raw = .ok chunk.files ∨
    parseUnifiedDiff chunk.raw = .error (.diffParseError (lit "The diff contains no valid hunks.")) ∧
      ∀ file ∈ chunk.files, file.lines = []
  reviewed : ∀ chunk ∈ chunks, ∀ sha256 answer, analyzeChunk sha256 chunk answer
    = analyzeChunk sha256 ⟨(parseUnifiedDiff chunk.raw).toOption.getD []⟩ answer
  size : ∀ chunk ∈ chunks, ∃ bytes, encode chunk.raw = some bytes ∧ chunk.byteSize = .ok bytes.length

theorem shown_exactly {diff : Str} {maximumBytes : Int} {files : List FileDiff}
    {chunks : List ReviewChunk} (hfiles : parseUnifiedDiff diff = .ok files)
    (hchunks : chunkFileDiffs files maximumBytes = .ok chunks) : ShownExactly diff chunks := by
  have hsame := chunkFileDiffs_files hchunks
  have hsizes := exists_byteSize_of_chunkFileDiffs hchunks
  obtain ⟨chunks', hchunks', hchunking, -⟩ : ChunksMinimally maximumBytes files :=
    chunksMinimally hsizes
  cases hchunks.symm.trans hchunks'
  have hparses : ∀ chunk ∈ chunks, parseUnifiedDiff chunk.raw = .ok chunk.files ∨
      parseUnifiedDiff chunk.raw
          = .error (.diffParseError (lit "The diff contains no valid hunks.")) ∧
        ∀ file ∈ chunk.files, file.lines = [] := by
    intro chunk hchunk
    obtain ⟨before, after, rfl⟩ := List.append_of_mem hchunk
    rw [List.flatMap_append, List.flatMap_cons, ← List.append_assoc] at hsame
    exact parse_slice (hsame ▸ hfiles) (hchunking.ne_nil chunk hchunk)
  refine ⟨?_, hparses, fun chunk hchunk sha256 answer => ?_, fun chunk hchunk => ?_⟩
  · obtain ⟨preamble, hdiff, hgit, hplain⟩ := exists_preamble hfiles
    refine ⟨preamble, ?_, hgit, hplain⟩
    rw [hdiff, ← hsame, List.flatMap_assoc]
    rfl
  · rcases hparses chunk hchunk with hok | ⟨herror, hnone⟩
    · rw [hok]
      rfl
    · rw [herror]
      exact analyzeChunk_of_no_lines hnone answer
  · have hchunkSizes : ∀ f ∈ chunk.files, ∃ n, f.byteSize = .ok n := fun f hf =>
      hsizes f (hsame ▸ List.mem_flatMap.mpr ⟨chunk, hchunk, hf⟩)
    obtain ⟨bytes, hbytes, hlength⟩ := encode_raw hchunkSizes
    refine ⟨bytes, hbytes, ?_⟩
    rw [ReviewChunk.byteSize_eq hchunkSizes, hlength]

/-- A line of text and two files, the second without a hunk. -/
def shownDiff : Str :=
  lit "review please\ndiff --git a/x b/x\n--- a/x\n+++ b/x\n@@ -1 +1 @@\n+eval(y)\n" ++
    lit "diff --git a/z b/z\n--- a/z\n+++ b/z\n"

set_option maxRecDepth 20000 in
theorem shown_exactly_sample : ∃ files chunks, parseUnifiedDiff shownDiff = .ok files ∧
    chunkFileDiffs files 80 = .ok chunks ∧ chunks.length = 2 ∧ ShownExactly shownDiff chunks := by
  have hone : (parseUnifiedDiff shownDiff >>= fun files =>
      (chunkFileDiffs files 80).map List.length) = .ok 2 := by decide
  obtain ⟨files, hfiles, h⟩ := bind_eq_ok.mp hone
  obtain ⟨chunks, hchunks, hlength⟩ := map_eq_ok.mp h
  exact ⟨files, chunks, hfiles, hchunks, hlength, shown_exactly hfiles hchunks⟩

end DiffReview
