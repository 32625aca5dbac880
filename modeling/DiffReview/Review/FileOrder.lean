import DiffReview.Diff.Chunks
import DiffReview.Diff.GitSections
import DiffReview.Diff.Numbering
import DiffReview.Review.MockReview

/-!
# DiffReview — the order of the files of a diff

A mock review does not depend on the order of the sections of a diff nor on the chunk
limit. Chunking keeps the order of the files, so only that order could matter; a rule, a
path and a line then belong to one file, within which the order is the text's.
-/

namespace DiffReview

open Py Raise

/-! ## Permuted files -/

/-- Lists of which at most one is not empty can be laid end to end in any order. -/
theorem flatMap_eq_of_perm {α β : Type} {as bs : List α} (h : as.Perm bs) {f : α → List β}
    (hone : as.Pairwise fun a b => f a = [] ∨ f b = []) : as.flatMap f = bs.flatMap f := by
  induction h with
  | nil => rfl
  | cons a _ ih => rw [List.flatMap_cons, List.flatMap_cons, ih (List.pairwise_cons.mp hone).2]
  | swap a b as =>
    have hpair : f b = [] ∨ f a = [] := List.rel_of_pairwise_cons hone List.mem_cons_self
    simp only [List.flatMap_cons]
    rcases hpair with hnil | hnil
    · rw [hnil, List.nil_append, List.nil_append]
    · rw [hnil, List.nil_append, List.nil_append]
  | trans hab _ ih₁ ih₂ =>
    have hsymm : ∀ {a b : α}, f a = [] ∨ f b = [] → f b = [] ∨ f a = [] := Or.symm
    rw [ih₁ hone, ih₂ ((hab.pairwise_iff hsymm).mp hone)]

/-- What the files of a parsed text are like, apart from their order. -/
structure ParsedFiles (files : List FileDiff) : Prop where
  ordered : ∀ file ∈ files, LinesOrdered file.path file.lines
  devNull : ∀ file ∈ files, file.path = DiffReview.devNull → file.lines = []

theorem parseUnifiedDiff_parsedFiles {diff : Str} {files : List FileDiff}
    (h : parseUnifiedDiff diff = .ok files) : ParsedFiles files := by
  refine ⟨fun _ hf => parseUnifiedDiff_linesOrdered h hf, fun file hf hpath => ?_⟩
  obtain ⟨-, parsed, hparsed, -, rfl⟩ := parseUnifiedDiff_eq_ok h
  obtain ⟨⟨file, sawHunk⟩, hmem, rfl⟩ := List.mem_map.mp hf
  obtain ⟨lines, -, hsection⟩ := mem_of_mapM_eq_ok hparsed hmem
  obtain ⟨st, hlines, hnumbered⟩ := parseSection_numbered hsection
  exact hlines.trans (hnumbered.devNull hpath)

/-- The paths other than `/dev/null` are pairwise distinct. -/
def DistinctPaths (files : List FileDiff) : Prop :=
  files.Pairwise fun f g => f.path = g.path → f.path = devNull

section Perm

variable {p : Patterns} {files files' : List FileDiff} (hperm : files.Perm files')
include hperm

theorem ParsedFiles.perm (h : ParsedFiles files) : ParsedFiles files' :=
  ⟨fun file hf => h.ordered file (hperm.mem_iff.mpr hf),
    fun file hf => h.devNull file (hperm.mem_iff.mpr hf)⟩

theorem DistinctPaths.perm (h : DistinctPaths files) : DistinctPaths files' := by
  refine (hperm.pairwise_iff fun {f g} hfg heq => ?_).mp h
  exact heq ▸ hfg heq.symm

theorem mem_matchedLines_perm {rule : Rule} {l : NewFileLine} :
    l ∈ matchedLines p files rule ↔ l ∈ matchedLines p files' rule :=
  (hperm.flatMap_right _).mem_iff

/-- The lines of a rule, a path and a number stand in one file, so their order is its own. -/
theorem lastMatch_perm (hparsed : ParsedFiles files) (hpaths : DistinctPaths files) (rule : Rule)
    (path : Str) (line : Nat) : lastMatch p files rule path line = lastMatch p files' rule path line := by
  unfold lastMatch matchedLines
  rw [List.filter_flatMap, List.filter_flatMap]
  refine congrArg List.getLast? (flatMap_eq_of_perm hperm ?_)
  -- a file contributes only under its own path, and `/dev/null` has no lines
  have hother : ∀ f ∈ files, f.path ≠ path ∨ f.path = devNull →
      ((f.addedLines.filter (ruleMatches p f rule)).filter fun l => l.path = path ∧ l.line = line)
        = [] := by
    intro f hf hcase
    refine List.filter_eq_nil_iff.mpr fun l hl => ?_
    have hmem : l ∈ f.lines := (List.mem_filter.mp (List.mem_filter.mp hl).1).1
    rcases hcase with hne | hnull
    · have hpath : l.path = f.path := (hparsed.ordered f hf).path_eq l hmem
      rw [decide_eq_true_eq, hpath]
      exact fun hl => hne hl.1
    · rw [hparsed.devNull f hf hnull] at hmem
      cases hmem
  refine hpaths.imp_of_mem fun {f g} hf hg hfg => ?_
  by_cases hpath : f.path = path
  · by_cases hpath' : g.path = path
    · exact .inl (hother f hf (.inr (hfg (hpath.trans hpath'.symm))))
    · exact .inr (hother g hg (.inl hpath'))
  · exact .inl (hother f hf (.inl hpath))

theorem ExactMockReview.perm {full : List Finding} (h : ExactMockReview p files full)
    (hparsed : ParsedFiles files) (hpaths : DistinctPaths files) : ExactMockReview p files' full := by
  refine ⟨h.ascending, fun f hf => ?_, fun rule hrule l hl => ?_⟩
  · obtain ⟨rule, hrule, l, hlast, hevidence, hmock⟩ := h.sound f hf
    rw [lastMatch_perm hperm hparsed hpaths] at hlast
    exact ⟨rule, hrule, l, hlast, hevidence, hmock⟩
  · exact h.complete rule hrule l ((mem_matchedLines_perm hperm).mpr hl)

end Perm

/-! ## The exact review is unique -/

section Unique

variable {p : Patterns} {files : List FileDiff} {full full' : List Finding}

theorem ExactMockReview.mem_of_mem (h : ExactMockReview p files full)
    (h' : ExactMockReview p files full') {f : Finding} (hf : f ∈ full) : f ∈ full' := by
  obtain ⟨rule, hrule, l, hlast, -, hmock⟩ := h.sound f hf
  have hmatched : l ∈ matchedLines p files rule :=
    (List.mem_filter.mp (List.mem_of_getLast? hlast)).1
  have hdict := mockFinding_eq_ok hmock
  obtain ⟨g, ⟨hg, hruleId, hpath, hline⟩, -⟩ := h'.complete rule hrule l hmatched
  -- the finding that the other list has for this rule, path and line is `f` itself
  obtain ⟨rule', hrule', l', hlast', -, hmock'⟩ := h'.sound g hg
  have hdict' := mockFinding_eq_ok hmock'
  have hsame : rule' = rule := by
    refine rule_ext hrule' hrule ?_
    rw [← hruleId, hdict']
  have hpath' : g.path = f.path := hpath.trans (by rw [hdict])
  have hline' : g.line = f.line := hline.trans (by rw [hdict])
  rw [hsame, hpath', hline', hlast] at hlast'
  cases hlast'
  rw [hsame, hmock] at hmock'
  cases hmock'
  exact hg

theorem ExactMockReview.unique (h : ExactMockReview p files full)
    (h' : ExactMockReview p files full') : full = full' := by
  have hnodup : ∀ {fs : List Finding}, (fs.Pairwise fun f g => f.sortKey < g.sortKey) → fs.Nodup := by
    intro fs hfs
    refine hfs.imp fun {f g} hlt heq => ?_
    rw [heq] at hlt
    exact lt_irrefl _ hlt
  have hperm : full.Perm full' := by
    rw [List.perm_ext_iff_of_nodup (hnodup h.ascending) (hnodup h'.ascending)]
    exact fun f => ⟨h.mem_of_mem h', h'.mem_of_mem h⟩
  refine List.Perm.eq_of_pairwise (fun f g _ _ hfg hgf => ?_) h.ascending h'.ascending hperm
  exact absurd (hfg.trans hgf) (lt_irrefl _)

end Unique

/-! ## Permuted texts -/

/-- A text that starts with its only `diff --git ` line and ends in a newline. -/
structure IsGitSection (text : Str) : Prop where
  block : IsGitBlock (splitlines text)
  ends : text.getLast? = some lf

theorem splitlines_gitSections {texts : List Str} (h : ∀ text ∈ texts, IsGitSection text) :
    splitlines texts.flatten = [] ++ (texts.map splitlines).flatten := by
  rw [splitlines_flatMap_lf fun text htext => (h text htext).ends, List.flatMap_def]
  rfl

theorem parse_gitSections {texts : List Str} (h : ∀ text ∈ texts, IsGitSection text)
    (hne : texts ≠ []) : parseUnifiedDiff texts.flatten
      = ((texts.map splitlines).mapM parseSection).bind filesOfParsed :=
  parseUnifiedDiff_git (splitlines_gitSections h) nofun
    (List.forall_mem_map.mpr fun text htext => (h text htext).block) (by simpa using hne)

/-- The sections of an accepted text are accepted in any order, and give the same files. -/
theorem parse_perm {texts texts' : List Str} (h : ∀ text ∈ texts, IsGitSection text)
    (hperm : texts.Perm texts') {files : List FileDiff}
    (hok : parseUnifiedDiff texts.flatten = .ok files) :
    ∃ files', parseUnifiedDiff texts'.flatten = .ok files' ∧ files.Perm files' := by
  have hne : texts ≠ [] := by
    rintro rfl
    cases hok
  have hne' : texts' ≠ [] := fun hnil => hne (List.perm_nil.mp (hnil ▸ hperm))
  rw [parse_gitSections h hne] at hok
  obtain ⟨parsed, hparsed, hfiles⟩ := bind_eq_ok.mp hok
  obtain ⟨parsed', hparsed', hperm'⟩ :=
    List.perm_comp_forall₂ (hperm.map splitlines).symm (mapM_eq_ok.mp hparsed)
  rw [parse_gitSections (fun text htext => h text (hperm.mem_iff.mpr htext)) hne',
    mapM_eq_ok.mpr hparsed']
  unfold filesOfParsed at hfiles
  split at hfiles
  · next hany =>
    cases hfiles
    have hany' : parsed'.any (·.2) = true := by rwa [hperm'.any_eq]
    refine ⟨parsed'.map (·.1), ?_, hperm'.symm.map _⟩
    show filesOfParsed parsed' = _
    exact if_pos hany'
  · cases hfiles

/-! ## The whole pipeline -/

/-- Parsed, chunked, reviewed and ordered. -/
def mockPipeline (p : Patterns) (diff : Str) (maximumBytes : Int) (maximum : Nat) :
    Except PyError (List Finding) := do
  let files ← parseUnifiedDiff diff
  let chunks ← chunkFileDiffs files maximumBytes
  let findings ← mockReview p chunks
  return orderedFindings findings maximum

theorem mockPipeline_eq_ok {p : Patterns} {diff : Str} {maximumBytes : Int} {maximum : Nat}
    {files : List FileDiff} (hfiles : parseUnifiedDiff diff = .ok files) {result : List Finding} :
    mockPipeline p diff maximumBytes maximum = .ok result ↔
      (∀ f ∈ files, ∃ n, f.byteSize = .ok n) ∧
      ∃ fs, (files.flatMap (fileHits p)).mapM (fun hit => mockFinding hit.1 hit.2) = .ok fs ∧
        result = orderedFindings fs maximum := by
  unfold mockPipeline
  rw [hfiles]
  constructor
  · intro h
    obtain ⟨_, heq, h⟩ := bind_eq_ok.mp h
    cases heq
    obtain ⟨chunks, hchunks, h⟩ := bind_eq_ok.mp h
    obtain ⟨fs, hfs, h⟩ := bind_eq_ok.mp h
    rw [mockReview_eq (chunkFileDiffs_files hchunks)] at hfs
    exact ⟨exists_byteSize_of_chunkFileDiffs hchunks, fs, hfs, (Except.ok.inj h).symm⟩
  · rintro ⟨hsizes, fs, hfs, rfl⟩
    have hchunks := chunkFileDiffs_eq maximumBytes hsizes
    rw [← mockReview_eq (chunkFileDiffs_files hchunks)] at hfs
    exact bind_eq_ok.mpr ⟨files, rfl, bind_eq_ok.mpr ⟨_, hchunks, bind_eq_ok.mpr ⟨fs, hfs, rfl⟩⟩⟩

theorem mockPipeline_perm {p : Patterns} {texts texts' : List Str} {files : List FileDiff}
    (hsections : ∀ text ∈ texts, IsGitSection text) (hperm : texts.Perm texts')
    (hok : parseUnifiedDiff texts.flatten = .ok files) (hpaths : DistinctPaths files)
    (maximumBytes maximumBytes' : Int) (maximum : Nat) {result : List Finding}
    (hresult : mockPipeline p texts.flatten maximumBytes maximum = .ok result) :
    mockPipeline p texts'.flatten maximumBytes' maximum = .ok result := by
  obtain ⟨files', hok', hfiles⟩ := parse_perm hsections hperm hok
  obtain ⟨hsizes, fs, hfs, rfl⟩ := (mockPipeline_eq_ok hok).mp hresult
  have hparsed := parseUnifiedDiff_parsedFiles hok
  have hhits : (files.flatMap (fileHits p)).Perm (files'.flatMap (fileHits p)) :=
    hfiles.flatMap_right _
  obtain ⟨fs', hfs'⟩ : ∃ fs', (files'.flatMap (fileHits p)).mapM
      (fun hit => mockFinding hit.1 hit.2) = .ok fs' := by
    refine exists_mapM_eq_ok.mpr fun hit hhit => ?_
    exact exists_mapM_eq_ok.mp ⟨fs, hfs⟩ hit (hhits.mem_iff.mpr hhit)
  have hexact := (orderedAll_exact hparsed.ordered hfs).perm hfiles hparsed hpaths
  have hexact' := orderedAll_exact (hparsed.perm hfiles).ordered hfs'
  refine (mockPipeline_eq_ok hok').mpr ⟨fun f hf => hsizes f (hfiles.mem_iff.mpr hf), fs', hfs', ?_⟩
  rw [orderedFindings_eq_take, orderedFindings_eq_take, hexact.unique hexact']

/-- The mock review of a diff under one chunk limit is the mock review of any order of its
sections under any other. -/
theorem mock_review_order_free (p : Patterns) {texts texts' : List Str} {files : List FileDiff}
    (hsections : ∀ text ∈ texts, IsGitSection text)
    (hok : parseUnifiedDiff texts.flatten = .ok files) (hpaths : DistinctPaths files)
    (hperm : texts.Perm texts') (maximumBytes maximumBytes' : Int) (maximum : Nat) :
    (mockPipeline p texts.flatten maximumBytes maximum).toOption
      = (mockPipeline p texts'.flatten maximumBytes' maximum).toOption := by
  obtain ⟨files', hok', hfiles⟩ := parse_perm hsections hperm hok
  have hsections' : ∀ text ∈ texts', IsGitSection text :=
    fun text htext => hsections text (hperm.mem_iff.mpr htext)
  refine Option.ext fun result => ?_
  constructor
  · intro h
    rw [mockPipeline_perm hsections hperm hok hpaths maximumBytes maximumBytes' maximum
      (eq_ok_of_toOption h)]
    rfl
  · intro h
    rw [mockPipeline_perm hsections' hperm.symm hok' (hpaths.perm hfiles) maximumBytes'
      maximumBytes maximum (eq_ok_of_toOption h)]
    rfl

def sectionX : Str := lit "diff --git a/x b/x\n--- a/x\n+++ b/x\n@@ -1,0 +1,1 @@\n+eval(\n"

def sectionY : Str := lit "diff --git a/y b/y\n--- a/y\n+++ b/y\n@@ -1,0 +7,1 @@\n+eval(\n"

theorem sectionsXY : ∀ text ∈ [sectionX, sectionY], IsGitSection text := by
  have hblock : ∀ text, (splitlines text).head?.any (startswith · gitHeader) = true →
      (splitlines text).tail.all (fun line => !startswith line gitHeader) = true →
      IsGitBlock (splitlines text) := by
    intro text hhead htail
    cases hlines : splitlines text with
    | nil =>
      rw [hlines] at hhead
      cases hhead
    | cons first rest =>
      rw [hlines] at hhead htail
      exact ⟨first, rest, rfl, hhead, fun line hline => by simpa using List.all_eq_true.mp htail line hline⟩
  refine List.forall_mem_cons.mpr ⟨⟨hblock _ (by decide) (by decide), rfl⟩, ?_⟩
  exact List.forall_mem_singleton.mpr ⟨hblock _ (by decide) (by decide), rfl⟩

/-- Two files reviewed in one chunk or in two, in either order. -/
theorem mock_review_order_free_sample :
    (mockPipeline samplePatterns [sectionX, sectionY].flatten 65536 100).toOption
        = (mockPipeline samplePatterns [sectionY, sectionX].flatten 1 100).toOption ∧
      (mockPipeline samplePatterns [sectionX, sectionY].flatten 65536 100).toOption.map
        (fun fs => fs.map fun f => (f.path, f.line)) = some [(lit "x", 1), (lit "y", 7)] := by
  have hsome : (parseUnifiedDiff [sectionX, sectionY].flatten).toOption.isSome = true := by decide
  obtain ⟨files, hfiles⟩ := Option.isSome_iff_exists.mp hsome
  have hok := eq_ok_of_toOption hfiles
  have hpaths : DistinctPaths files := by
    have hmap : (parseUnifiedDiff [sectionX, sectionY].flatten).toOption.map
        (fun fs => fs.map (·.path)) = some [lit "x", lit "y"] := by decide
    rw [hfiles] at hmap
    have hnodup : (files.map (·.path)).Nodup := by
      rw [show files.map (·.path) = [lit "x", lit "y"] from Option.some.inj hmap]
      decide
    exact (List.pairwise_map.mp hnodup).imp fun hne heq => absurd heq hne
  exact ⟨mock_review_order_free samplePatterns sectionsXY hok hpaths (List.Perm.swap _ _ _) 65536 1 100,
    by decide⟩

end DiffReview
