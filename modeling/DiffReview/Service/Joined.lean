import DiffReview.Diff.HeaderOnly
import DiffReview.Diff.Slices
import DiffReview.Review.MockIds
import DiffReview.Service.RequestHash
import DiffReview.Service.Results

/-!
# DiffReview — the review of two diffs in one text

Two diffs with headers of one style, the one behind the other, are parsed to the files of both
(`parse_joined`), and the mock review of the text is the two reviews put together, the second
one first where both report one place (`mock_review_joined`).
-/

namespace DiffReview

open Py Raise

/-! ## Files -/

/-- The text is cut at its `diff --git ` lines. -/
def UsesGit (diff : Str) : Prop := ∃ line ∈ splitlines diff, startswith line gitHeader = true

/-- The first diff ends with its last line, the second starts with its first header, and their
headers are of one style. -/
structure Joins (first second : Str) : Prop where
  ended : first.getLast? = some lf
  headed : headStyle (splitlines second) (splitlines second) = true
  style : UsesGit first ↔ UsesGit second

theorem headStyle_of_usesGit {diff : Str} (h : UsesGit diff) : headStyle (splitlines diff) = gitHead :=
  if_pos (List.any_eq_true.mpr h)

theorem headStyle_of_not_usesGit {diff : Str} (h : ¬UsesGit diff) :
    headStyle (splitlines diff) = plainHead :=
  if_neg fun hany => h (List.any_eq_true.mp hany)

namespace Joins

variable {first second : Str}

theorem splitlines_eq (h : Joins first second) :
    splitlines (first ++ second) = splitlines first ++ splitlines second := by
  refine splitlines_append fun c hc => ?_
  rw [h.ended] at hc
  cases hc
  exact ⟨by decide, fun heq => absurd heq (by decide)⟩

theorem usesGit_iff (h : Joins first second) : UsesGit (first ++ second) ↔ UsesGit second := by
  rw [UsesGit, h.splitlines_eq]
  simp only [List.mem_append, or_and_right, exists_or]
  exact or_iff_right_of_imp h.style.mp

/-- All three texts are cut at the headers of one style. -/
theorem headStyle_eq (h : Joins first second) :
    headStyle (splitlines (first ++ second)) = headStyle (splitlines second) ∧
      headStyle (splitlines first) = headStyle (splitlines second) := by
  by_cases hgit : UsesGit second
  · rw [headStyle_of_usesGit hgit, headStyle_of_usesGit (h.usesGit_iff.mpr hgit),
      headStyle_of_usesGit (h.style.mpr hgit)]
    exact ⟨rfl, rfl⟩
  · rw [headStyle_of_not_usesGit hgit, headStyle_of_not_usesGit (mt h.usesGit_iff.mp hgit),
      headStyle_of_not_usesGit (mt h.style.mp hgit)]
    exact ⟨rfl, rfl⟩

/-- No section of the first text reaches into the second. -/
theorem sectionsOf_eq (h : Joins first second) :
    sectionsOf (first ++ second) = sectionsOf first ++ sectionsOf second := by
  obtain ⟨hjoined, hfirst⟩ := h.headStyle_eq
  have hstart : (cut (headStyle (splitlines second)) (splitlines second)).1 = [] := by
    have hheaded := h.headed
    cases hlines : splitlines second with
    | nil => rfl
    | cons line lines =>
      rw [hlines] at hheaded
      rw [cut, if_pos hheaded]
  rw [sectionsOf, sections_sectionStarts, hjoined, h.splitlines_eq,
    cut_append (settled_headStyle _) _ hstart, sectionsOf, sections_sectionStarts, hfirst, sectionsOf,
    sections_sectionStarts]

end Joins

theorem parse_joined {first second : Str} {files files' : List FileDiff} (hjoin : Joins first second)
    (hfirst : parseUnifiedDiff first = .ok files) (hsecond : parseUnifiedDiff second = .ok files') :
    parseUnifiedDiff (first ++ second) = .ok (files ++ files') := by
  obtain ⟨hstarts, parsed, hparsed, hany, rfl⟩ := parseUnifiedDiff_eq_ok hfirst
  obtain ⟨-, parsed', hparsed', -, rfl⟩ := parseUnifiedDiff_eq_ok hsecond
  have hall : (sectionsOf (first ++ second)).mapM parseSection = .ok (parsed ++ parsed') :=
    hjoin.sectionsOf_eq ▸ mapM_append_eq_ok.mpr ⟨parsed, parsed', hparsed, hparsed', rfl⟩
  have hne : sectionsOf (first ++ second) ≠ [] := by
    intro hnil
    rw [hnil, mapM_nil] at hall
    rw [(List.append_eq_nil_iff.mp (Except.ok.inj hall).symm).1] at hany
    cases hany
  -- the hunk that the first text must have is one of both
  rw [parseUnifiedDiff_sectionsOf (not_blank_of_parsed hne (mapM_eq_ok.mp hall)) hne, hall]
  show filesOfParsed (parsed ++ parsed') = _
  rw [filesOfParsed, List.any_append, hany, Bool.true_or, if_pos rfl, List.map_append]

/-! ## Findings -/

/-- The findings of both lists, those of the second where both have one of a place, sorted. -/
structure Merged (fs gs hs : List Finding) : Prop where
  mem_iff : ∀ f, f ∈ hs ↔ f ∈ gs ∨ f ∈ fs ∧ ∀ g ∈ gs, ¬f.SamePlace g
  ascending : hs.Pairwise fun f g => f.sortKey < g.sortKey

theorem isLastWithId_append {fs gs : List Finding} {f : Finding} :
    IsLastWithId (fs ++ gs) f ↔ IsLastWithId gs f ∨ IsLastWithId fs f ∧ ∀ g ∈ gs, g.id ≠ f.id := by
  simp only [IsLastWithId, List.filter_append, List.getLast?_append, Option.or_eq_some_iff,
    List.getLast?_eq_none_iff, List.filter_eq_nil_iff, decide_eq_true_eq]
  exact or_congr_right and_comm

theorem orderedAll_merged {fs gs : List Finding}
    (hids : ∀ f ∈ fs ++ gs, ∀ g ∈ fs ++ gs, f.id = g.id ↔ f.SamePlace g) :
    Merged (orderedAll fs) (orderedAll gs) (orderedAll (fs ++ gs)) := by
  refine ⟨fun f => ?_, (exactIds_of_id_iff hids).ascending⟩
  rw [mem_orderedAll, isLastWithId_append, mem_orderedAll, mem_orderedAll]
  refine or_congr_right (and_congr_right fun hlast => ?_)
  have hf : f ∈ fs ++ gs := List.mem_append_left _ (mem_of_mem_orderedAll (mem_orderedAll.mpr hlast))
  constructor
  · intro hnew g hg hplace
    have hmem := mem_of_mem_orderedAll hg
    exact hnew g hmem ((hids f hf g (List.mem_append_right _ hmem)).mpr hplace).symm
  · intro hnew g hg hid
    -- the last finding of that id is kept
    obtain ⟨g', hkept, hid'⟩ := exists_mem_orderedAll_id hg
    have hmem := List.mem_append_right fs (mem_of_mem_orderedAll hkept)
    exact hnew g' hkept ((hids f hf g' hmem).mp (hid'.trans hid).symm)

theorem Merged.length_le {fs gs hs : List Finding} (h : Merged fs gs hs) :
    hs.length ≤ fs.length + gs.length := by
  have hnodup : hs.Nodup := h.ascending.imp fun hlt heq => hlt.ne (congrArg Finding.sortKey heq)
  have hsub : hs ⊆ fs ++ gs := by
    intro f hf
    rcases (h.mem_iff f).mp hf with hg | ⟨hf, -⟩
    · exact List.mem_append_right _ hg
    · exact List.mem_append_left _ hf
  have hle := (hnodup.subperm hsub).length_le
  rwa [List.length_append] at hle

/-! ## Reviews -/

/-- A list that the worker has not filled is all there is. -/
theorem orderedFindings_eq_all {fs : List Finding} {maximum : Nat}
    (h : (orderedFindings fs maximum).length < maximum) : orderedFindings fs maximum = orderedAll fs := by
  rw [orderedFindings_eq_take] at h ⊢
  rw [List.length_take] at h
  exact List.take_of_length_le (by omega)

/-- What the mock provider finds in an accepted diff is what it finds in the files of it. -/
theorem reviewDiff_mock_eq_ok {env : Env} {diff : Str} {answers : Answers} {full : List Finding}
    (h : reviewDiff env diff .mock answers = .ok full) :
    ∃ files chunks fs, parseUnifiedDiff diff = .ok files ∧
      chunkFileDiffs files env.settings.chunkBytes = .ok chunks ∧
      ((files.flatMap (fileHits env.patterns)).mapM fun hit => mockFinding hit.1 hit.2) = .ok fs ∧
      mockReview env.patterns chunks = .ok fs ∧ full = orderedFindings fs 10000000 := by
  obtain ⟨files, chunks, fs, hfiles, hchunks, hfs, rfl⟩ := reviewDiff_eq_ok h
  have hmock : mockReview env.patterns chunks = .ok fs := hfs
  exact ⟨files, chunks, fs, hfiles, hchunks, mockReview_eq (chunkFileDiffs_files hchunks) ▸ hmock,
    hmock, rfl⟩

/-- The mock review of two diffs in one text is their two reviews, merged. -/
theorem mock_review_joined {env : Env} {first second : Str} {answers answers' answers'' : Answers}
    {fs gs : List Finding} (hjoin : Joins first second)
    (hfirst : reviewDiff env first .mock answers = .ok fs)
    (hsecond : reviewDiff env second .mock answers' = .ok gs) (hfew : fs.length + gs.length < 10000000) :
    ∃ hs, reviewDiff env (first ++ second) .mock answers'' = .ok hs ∧ Merged fs gs hs := by
  obtain ⟨files, chunks, raw, hfiles, hchunks, hraw, hmock, rfl⟩ := reviewDiff_mock_eq_ok hfirst
  obtain ⟨files', chunks', raw', hfiles', hchunks', hraw', hmock', rfl⟩ := reviewDiff_mock_eq_ok hsecond
  have hfull : orderedFindings raw 10000000 = orderedAll raw := orderedFindings_eq_all (by omega)
  have hfull' : orderedFindings raw' 10000000 = orderedAll raw' := orderedFindings_eq_all (by omega)
  rw [hfull, hfull'] at hfew ⊢
  -- all files together fit their encoding, whatever the chunks
  have hsizes : ∀ f ∈ files ++ files', ∃ n, f.byteSize = .ok n := List.forall_mem_append.mpr
    ⟨exists_byteSize_of_chunkFileDiffs hchunks, exists_byteSize_of_chunkFileDiffs hchunks'⟩
  obtain ⟨all, hall, -, -⟩ : ChunksMinimally env.settings.chunkBytes (files ++ files') :=
    chunksMinimally hsizes
  have hmockAll : mockReview env.patterns all = .ok (raw ++ raw') := by
    rw [mockReview_eq (chunkFileDiffs_files hall), List.flatMap_append]
    exact mapM_append_eq_ok.mpr ⟨raw, raw', hraw, hraw', rfl⟩
  -- ids of findings of either review are equal for one place only
  have hmerged : Merged (orderedAll raw) (orderedAll raw') (orderedAll (raw ++ raw')) := by
    refine orderedAll_merged fun f hf g hg => ?_
    obtain ⟨rule, hrule, l, hmf⟩ := exists_mockFinding_of_mem hmockAll hf
    obtain ⟨rule', hrule', l', hmg⟩ := exists_mockFinding_of_mem hmockAll hg
    exact mockFinding_id_iff hrule' hrule hmg hmf
  have hlength := hmerged.length_le
  refine ⟨orderedFindings (raw ++ raw') 10000000, ?_, ?_⟩
  · simp only [reviewDiff, parse_joined hjoin hfiles hfiles', bind, Except.bind, hall, providerReview,
      hmockAll, pure, Except.pure]
  · rw [orderedFindings_eq_take, List.take_of_length_le (by omega)]
    exact hmerged

/-- The file of `sampleDiff` again, and one that is sorted before it. -/
def secondDiff : Str :=
  sampleDiff ++ lit "--- a/a\n+++ b/a\n@@ -0,0 +1,2 @@\n+eval(\n+eval(\n"

def joinedReview (diff : Str) : Except PyError (List Finding) :=
  reviewDiff (sampleEnv none) diff .mock fun _ => .ok []

set_option maxRecDepth 20000 in
theorem firstReview_isSome : (joinedReview sampleDiff).toOption.isSome = true := by decide

set_option maxRecDepth 20000 in
theorem secondReview_isSome : (joinedReview secondDiff).toOption.isSome = true := by decide

set_option maxRecDepth 20000 in
theorem joins_sample : Joins sampleDiff secondDiff where
  ended := by decide
  headed := by decide
  style := iff_of_false
    (show ¬∃ line ∈ splitlines sampleDiff, startswith line gitHeader = true from by decide)
    (show ¬∃ line ∈ splitlines secondDiff, startswith line gitHeader = true from by decide)

set_option maxRecDepth 20000 in
theorem mock_review_joined_sample :
    ∃ hs, joinedReview (sampleDiff ++ secondDiff) = .ok hs ∧
      Merged (Option.get _ firstReview_isSome) (Option.get _ secondReview_isSome) hs :=
  mock_review_joined joins_sample (eq_ok_of_toOption (Option.some_get firstReview_isSome).symm)
    (eq_ok_of_toOption (Option.some_get secondReview_isSome).symm)
    (show (Option.get _ firstReview_isSome).length + (Option.get _ secondReview_isSome).length < 10000000
      from by decide)

end DiffReview
