import DiffReview.Diff.GitSections

/-!
# DiffReview — sections without text hunks

A pure rename, a mode change or a binary file gives a `diff --git ` section without a
`+++ ` line. The parser rejects every diff that has one, with the error of its guard.
-/

namespace DiffReview

open Py Raise

/-- A `diff --git ` line followed only by extended-header lines. -/
def IsHeaderOnly (text : Str) : Prop :=
  ∃ first rest, splitlines text = first :: rest ∧ startswith first gitHeader = true ∧
    ∀ line ∈ rest, startswith line gitHeader = false ∧ startswith line oldHeader = false ∧
      startswith line newHeader = false ∧ startswith line (lit "@@") = false

/-- `before ++ after` is cut between two of its sections, or at one of its ends, and what is
put there ends with a line end unless it ends the text. -/
structure IsSectionBoundary (before inserted after : Str) : Prop where
  before_end : ∀ c, before.getLast? = some c → isLineBreak c = true
  inserted_end : after = [] ∨ ∀ c, inserted.getLast? = some c → isLineBreak c = true
  after_start : after = [] ∨ startswith after gitHeader = true

theorem gitHeader_noBreak : ∀ c ∈ gitHeader, isLineBreak c = false := by
  have hall : gitHeader.all (fun c => !isLineBreak c) = true := by decide
  intro c hc
  simpa using List.all_eq_true.mp hall c hc

theorem exists_of_startswith {s p : Str} (h : startswith s p = true) : ∃ t, s = p ++ t := by
  obtain ⟨t, rfl⟩ := List.isPrefixOf_iff_prefix.mp h
  exact ⟨t, rfl⟩

/-- A text that starts with a git header has a git header as its first line. -/
theorem splitlines_of_gitHeader {s : Str} (h : startswith s gitHeader = true) :
    ∃ first rest, splitlines s = first :: rest ∧ startswith first gitHeader = true := by
  obtain ⟨t, rfl⟩ := exists_of_startswith h
  obtain ⟨l, ls, hls⟩ := splitlines_append_noBreak (by decide) gitHeader_noBreak t
  exact ⟨_, ls, hls, startswith_append gitHeader l⟩

theorem head?_ne_lf_of_gitHeader {s : Str} (h : startswith s gitHeader = true) :
    s.head? ≠ some lf := by
  obtain ⟨t, rfl⟩ := exists_of_startswith h
  show some (Chr.ofChar 'd') ≠ some lf
  decide

/-- Behind a line end, a text with git blocks only starts new lines. -/
theorem splitlines_append_gitHeader {a b : Str} (ha : ∀ c, a.getLast? = some c → isLineBreak c = true)
    (hb : startswith b gitHeader = true) : splitlines (a ++ b) = splitlines a ++ splitlines b :=
  splitlines_append fun c hc => ⟨ha c hc, fun _ => head?_ne_lf_of_gitHeader hb⟩

/-- Such a text has no preamble. -/
theorem exists_gitBlocks_of_gitHeader {s : Str} (h : s = [] ∨ startswith s gitHeader = true) :
    ∃ blocks : List (List Str), splitlines s = blocks.flatten ∧ ∀ block ∈ blocks, IsGitBlock block := by
  obtain ⟨preamble, blocks, hlines, hpreamble, hblocks⟩ := exists_gitBlocks (splitlines s)
  refine ⟨blocks, ?_, hblocks⟩
  rcases h with rfl | h
  · have hnil : preamble ++ blocks.flatten = [] := hlines.symm
    rw [(List.append_eq_nil_iff.mp hnil).2]
    rfl
  · obtain ⟨first, rest, hfirst, hgit⟩ := splitlines_of_gitHeader h
    cases preamble with
    | nil => exact hlines
    | cons line preamble =>
      rw [hfirst] at hlines
      have hfalse := hpreamble line List.mem_cons_self
      rw [← (List.cons.inj hlines).1, hgit] at hfalse
      cases hfalse

theorem IsHeaderOnly.isGitBlock {text : Str} (h : IsHeaderOnly text) : IsGitBlock (splitlines text) := by
  obtain ⟨first, rest, hlines, hfirst, hrest⟩ := h
  exact ⟨first, rest, hlines, hfirst, fun line hline => (hrest line hline).1⟩

theorem IsHeaderOnly.startswith {text : Str} (h : IsHeaderOnly text) :
    Py.startswith text gitHeader = true := by
  obtain ⟨first, rest, hlines, hfirst, -⟩ := h
  obtain ⟨t, rfl⟩ := exists_of_startswith hfirst
  rw [← flatten_splitlines text, hlines, List.flatten_cons, List.append_assoc]
  exact startswith_append _ _

def missingHeaders : PyError :=
  .diffParseError (lit "A file section is missing ---/+++ headers.")

theorem newHeader_of_gitHeader {line : Str} (h : startswith line gitHeader = true) :
    startswith line newHeader = false := by
  obtain ⟨t, rfl⟩ := exists_of_startswith h
  rfl

/-- The guard of the parser. -/
theorem IsHeaderOnly.parseSection {text : Str} (h : IsHeaderOnly text) :
    DiffReview.parseSection (splitlines text) = .error missingHeaders := by
  obtain ⟨first, rest, hlines, hfirst, hrest⟩ := h
  have hnone : (splitlines text).findIdx? (fun line => Py.startswith line newHeader) = none := by
    rw [List.findIdx?_eq_none_iff, hlines]
    exact List.forall_mem_cons.mpr
      ⟨newHeader_of_gitHeader hfirst, fun line hline => (hrest line hline).2.2.1⟩
  unfold DiffReview.parseSection
  rw [hnone]
  rfl

/-- A header-only section at any boundary of an accepted diff made of git sections makes the
whole diff an error. -/
theorem header_only_rejected {before inserted after : Str} {files : List FileDiff}
    (hgit : ∃ line ∈ splitlines (before ++ after), startswith line gitHeader = true)
    (hok : parseUnifiedDiff (before ++ after) = .ok files) (hinserted : IsHeaderOnly inserted)
    (hboundary : IsSectionBoundary before inserted after) :
    parseUnifiedDiff (before ++ inserted ++ after)
      = .error (.diffParseError (lit "A file section is missing ---/+++ headers.")) := by
  obtain ⟨hbefore, hend, hafter⟩ := hboundary
  obtain ⟨preamble, blocks, hfront, hpreamble, hblocks⟩ := exists_gitBlocks (splitlines before)
  obtain ⟨blocks', hback, hblocks'⟩ := exists_gitBlocks_of_gitHeader hafter
  -- the lines without and with the section
  have hlines : splitlines (before ++ after) = preamble ++ (blocks ++ blocks').flatten := by
    have happend : splitlines (before ++ after) = splitlines before ++ splitlines after := by
      rcases hafter with rfl | hafter
      · rw [List.append_nil]
        exact (List.append_nil _).symm
      · exact splitlines_append_gitHeader hbefore hafter
    rw [happend, hfront, hback, List.append_assoc, List.flatten_append]
  have hlines' : splitlines (before ++ inserted ++ after)
      = preamble ++ (blocks ++ splitlines inserted :: blocks').flatten := by
    have hinner : splitlines (inserted ++ after) = splitlines inserted ++ splitlines after := by
      rcases hafter with rfl | hafter
      · rw [List.append_nil]
        exact (List.append_nil _).symm
      · rcases hend with rfl | hend
        · cases hafter
        · exact splitlines_append_gitHeader hend hafter
    obtain ⟨t, ht⟩ := exists_of_startswith hinserted.startswith
    have hstart : startswith (inserted ++ after) gitHeader = true := by
      rw [ht, List.append_assoc]
      exact startswith_append _ _
    rw [List.append_assoc, splitlines_append_gitHeader hbefore hstart, hinner, hfront, hback,
      List.append_assoc, List.flatten_append, List.flatten_cons]
  have hall : ∀ block ∈ blocks ++ blocks', IsGitBlock block :=
    List.forall_mem_append.mpr ⟨hblocks, hblocks'⟩
  have hne : blocks ++ blocks' ≠ [] := by
    intro hnil
    obtain ⟨line, hline, hgit⟩ := hgit
    rw [hlines, hnil, List.flatten_nil, List.append_nil] at hline
    rw [hpreamble line hline] at hgit
    cases hgit
  have hall' : ∀ block ∈ blocks ++ splitlines inserted :: blocks', IsGitBlock block :=
    List.forall_mem_append.mpr ⟨hblocks, List.forall_mem_cons.mpr ⟨hinserted.isGitBlock, hblocks'⟩⟩
  -- the sections before the inserted one parse as they did
  rw [parseUnifiedDiff_git hlines hpreamble hall hne] at hok
  obtain ⟨parsed, hparsed, -⟩ := bind_eq_ok.mp hok
  obtain ⟨parsed₁, parsed₂, hfirst, -, -⟩ := mapM_append_eq_ok.mp hparsed
  rw [parseUnifiedDiff_git hlines' hpreamble hall' (by simp),
    mapM_append_cons_error hfirst hinserted.parseSection]
  rfl

/-! ## A binary file -/

def textFile : Str := lit "diff --git a/x b/x\n--- a/x\n+++ b/x\n@@ -1,1 +1,1 @@\n+a\n"

def binaryFile : Str :=
  lit "diff --git a/i.png b/i.png\nBinary files a/i.png and b/i.png differ\n"

theorem textFile_gitHeader :
    ∃ line ∈ splitlines (textFile ++ []), startswith line gitHeader = true :=
  ⟨lit "diff --git a/x b/x\n", by decide, rfl⟩

theorem binaryFile_isHeaderOnly : IsHeaderOnly binaryFile :=
  ⟨lit "diff --git a/i.png b/i.png\n", [lit "Binary files a/i.png and b/i.png differ\n"], by decide,
    by decide, by decide⟩

theorem textFile_boundary : IsSectionBoundary textFile binaryFile [] where
  before_end c hc := by
    cases (show some lf = some c from hc)
    rfl
  inserted_end := .inl rfl
  after_start := .inl rfl

theorem textFile_parses : ∃ files, parseUnifiedDiff (textFile ++ []) = .ok files := by
  have hsome : (parseUnifiedDiff (textFile ++ [])).toOption.isSome = true := by decide
  obtain ⟨files, hfiles⟩ := Option.isSome_iff_exists.mp hsome
  exact ⟨files, eq_ok_of_toOption hfiles⟩

theorem header_only_rejected_sample : parseUnifiedDiff (textFile ++ binaryFile ++ [])
    = .error (.diffParseError (lit "A file section is missing ---/+++ headers.")) := by
  obtain ⟨files, hfiles⟩ := textFile_parses
  exact header_only_rejected textFile_gitHeader hfiles binaryFile_isHeaderOnly textFile_boundary

/-- With a binary file behind it, an accepted diff is no longer accepted. -/
theorem binary_file_not_harmless :
    (∃ files, parseUnifiedDiff (textFile ++ []) = .ok files) ∧
      (∃ line ∈ splitlines (textFile ++ []), startswith line gitHeader = true) ∧
      IsHeaderOnly binaryFile ∧ IsSectionBoundary textFile binaryFile [] ∧
      ¬∃ files, parseUnifiedDiff (textFile ++ binaryFile ++ []) = .ok files := by
  refine ⟨textFile_parses, textFile_gitHeader, binaryFile_isHeaderOnly, textFile_boundary, ?_⟩
  rintro ⟨files, hfiles⟩
  have hnone : (parseUnifiedDiff (textFile ++ binaryFile ++ [])).toOption = none := by decide
  rw [hfiles] at hnone
  cases hnone

end DiffReview
