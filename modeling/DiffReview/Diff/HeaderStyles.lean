import DiffReview.Diff.GitSections
import DiffReview.Diff.Texts

/-!
# DiffReview — git and plain headers in one diff

`_section_starts` looks for plain headers only in a text without any git header. So the
files of a diff are read one by one exactly when all of them have a git header or none has
(`no_file_lost_iff`): behind a git file a plain one is read as a part of it, and before the
first git file it is dropped.
-/

namespace DiffReview

open Py Raise

/-- Added lines do not start with `++` behind their `+`, nor removed ones with `--`. -/
def FileText.Plain (f : FileText BodyLine) : Prop :=
  ∀ h ∈ f.hunks, ∀ l ∈ h.body, l.likeHeader = false

/-- The diff is parsed to one file for each of its files, and so is each of them alone. -/
def NoFileLost (files : List (FileText BodyLine)) : Prop :=
  ∃ diffs, parseUnifiedDiff (renderFiles BodyLine.text files) = .ok diffs ∧
    List.Forall₂ (fun f d => parseUnifiedDiff (renderFiles BodyLine.text [f]) = .ok [d]) files diffs

/-- All files have a git header, or none has. -/
def SameStyle (files : List (FileText BodyLine)) : Prop :=
  (∀ f ∈ files, f.gitLine.isSome = true) ∨ ∀ f ∈ files, f.gitLine = none

/-- A file with a path that is not blank and with hunks whose starts `int` reads. -/
structure FileText.Readable (f : FileText BodyLine) : Prop where
  path : f.readPath ≠ []
  hunks : f.hunks ≠ []
  starts : ∀ h ∈ f.hunks, (headerStart (h.header ++ [lf])).isSome = true

/-! ## The lines -/

/-- The lines of a hunk with their line ends. -/
def HunkText.lines (h : HunkText BodyLine) : List Str :=
  (h.header ++ [lf]) :: h.body.map fun l => l.text ++ [lf]

/-- The lines of a file with their line ends. -/
def FileText.lines (f : FileText BodyLine) : List Str :=
  f.head.map (· ++ [lf]) ++ f.hunks.flatMap HunkText.lines

section Lines

variable (f : FileText BodyLine)

theorem FileText.map_text : (f.text BodyLine.text).map (· ++ [lf]) = f.lines := by
  rw [FileText.text, List.map_append, List.map_flatMap]
  refine congrArg (_ ++ ·) (List.flatMap_congr fun h _ => ?_)
  rw [HunkText.text, List.map_cons, List.map_map]
  rfl

theorem FileText.noBreak_text : ∀ l ∈ f.text BodyLine.text, NoBreak l := by
  intro l hl
  rcases List.mem_append.mp hl with hl | hl
  · exact f.noBreak_head l hl
  · obtain ⟨h, -, hl⟩ := List.mem_flatMap.mp hl
    rcases List.mem_cons.mp hl with rfl | hl
    · exact h.header_noBreak
    · obtain ⟨b, -, rfl⟩ := List.mem_map.mp hl
      exact b.noBreak_text

theorem splitlines_renderFiles (files : List (FileText BodyLine)) :
    splitlines (renderFiles BodyLine.text files) = (files.map FileText.lines).flatten := by
  have hbreak : ∀ l ∈ files.flatMap (FileText.text BodyLine.text), NoBreak l := by
    intro l hl
    obtain ⟨f, -, hl⟩ := List.mem_flatMap.mp hl
    exact f.noBreak_text l hl
  rw [renderFiles, joinLines, splitlines_flatten _ hbreak, List.map_flatMap, ← List.flatMap_def]
  exact List.flatMap_congr fun f _ => f.map_text

/-! ## Headers among the lines -/

theorem BodyLine.not_gitHeader (l : BodyLine) : startswith (l.text ++ [lf]) gitHeader = false := by
  unfold BodyLine.text
  cases l.kind <;> rfl

theorem BodyLine.not_oldHeader {l : BodyLine} (h : l.likeHeader = false) :
    startswith (l.text ++ [lf]) oldHeader = false := by
  unfold BodyLine.text
  unfold BodyLine.likeHeader at h
  cases hkind : l.kind with
  | context => rfl
  | added => rfl
  | removed =>
    rw [hkind] at h
    by_contra hold
    -- the text behind the first `-` starts with `-- `
    have hcontent : startswith (l.content ++ [lf]) (lit "--" ++ lit " ") = true :=
      (Bool.not_eq_false _).mp hold
    have hdashes := startswith_of_append hcontent
    rw [startswith_append_lf (by decide)] at hdashes
    rw [hdashes] at h
    exact nomatch h

theorem HunkText.not_gitHeader (h : HunkText BodyLine) :
    ∀ l ∈ h.lines, startswith l gitHeader = false := by
  intro l hl
  rcases List.mem_cons.mp hl with rfl | hl
  · exact startswith_hunkHeader h.isHeader (by decide) (by decide)
  · obtain ⟨b, -, rfl⟩ := List.mem_map.mp hl
    exact b.not_gitHeader

theorem HunkText.not_oldHeader {h : HunkText BodyLine} (hplain : ∀ l ∈ h.body, l.likeHeader = false) :
    ∀ l ∈ h.lines, startswith l oldHeader = false := by
  intro l hl
  rcases List.mem_cons.mp hl with rfl | hl
  · exact startswith_hunkHeader h.isHeader (by decide) (by decide)
  · obtain ⟨b, hb, rfl⟩ := List.mem_map.mp hl
    exact BodyLine.not_oldHeader (hplain b hb)

/-- The lines of a git file are a git block. -/
theorem FileText.isGitBlock (hgit : f.gitLine.isSome = true) : IsGitBlock f.lines := by
  obtain ⟨s, hs⟩ := Option.isSome_iff_exists.mp hgit
  refine ⟨gitHeader ++ s ++ [lf], (lit "--- a/" ++ f.path ++ [lf]) :: (lit "+++ b/" ++ f.path ++ [lf])
    :: f.hunks.flatMap HunkText.lines, ?_, rfl, ?_⟩
  · rw [FileText.lines, FileText.head, hs]
    rfl
  · intro l hl
    rcases List.mem_cons.mp hl with rfl | hl
    · rfl
    rcases List.mem_cons.mp hl with rfl | hl
    · rfl
    obtain ⟨h, -, hl⟩ := List.mem_flatMap.mp hl
    exact h.not_gitHeader l hl

theorem FileText.lines_of_plain (hgit : f.gitLine = none) :
    f.lines = (lit "--- a/" ++ f.path ++ [lf]) :: (lit "+++ b/" ++ f.path ++ [lf])
      :: f.hunks.flatMap HunkText.lines := by
  rw [FileText.lines, FileText.head, hgit]
  rfl

theorem FileText.countP_gitHeader :
    f.lines.countP (fun l => startswith l gitHeader) = if f.gitLine.isSome then 1 else 0 := by
  have hrest : (f.hunks.flatMap HunkText.lines).countP (fun l => startswith l gitHeader) = 0 := by
    refine List.countP_eq_zero.mpr fun l hl => ?_
    obtain ⟨h, -, hl⟩ := List.mem_flatMap.mp hl
    rw [h.not_gitHeader l hl]
    exact Bool.false_ne_true
  rw [FileText.lines, List.countP_append, hrest]
  unfold FileText.head
  cases f.gitLine with
  | none => rfl
  | some s => rfl

end Lines

/-! ## One file -/

section Scan

variable {path : Str}

theorem foldlM_bodyText (path : Str) (body : List BodyLine) (st : HunkScan) :
    ∃ st', (body.map fun l => l.text ++ [lf]).foldlM (scanLine path) st = .ok st' ∧
      st'.sawHunk = st.sawHunk := by
  induction body generalizing st with
  | nil => exact ⟨st, rfl, rfl⟩
  | cons l body ih =>
    obtain ⟨st₁, hst₁, hsaw₁⟩ := scanLine_of_not_header path l.hunkRe_eq_none st
    obtain ⟨st₂, hst₂, hsaw₂⟩ := ih st₁
    refine ⟨st₂, ?_, hsaw₂.trans hsaw₁⟩
    rw [List.map_cons, List.foldlM_cons, hst₁]
    exact hst₂

/-- A hunk is read exactly when `int` reads its start. -/
theorem foldlM_hunkText (path : Str) (h : HunkText BodyLine) (st : HunkScan) :
    ((headerStart (h.header ++ [lf])).isSome = true →
      ∃ st', h.lines.foldlM (scanLine path) st = .ok st' ∧ st'.sawHunk = true) ∧
    ∀ st', h.lines.foldlM (scanLine path) st = .ok st' →
      (headerStart (h.header ++ [lf])).isSome = true := by
  obtain ⟨m, hm⟩ := Option.isSome_iff_exists.mp h.isHeader
  have hline : ∀ st, scanLine path st (h.header ++ [lf])
      = (orRaise .intMaxStrDigits (headerStart (h.header ++ [lf]))).map fun start => { st with
        currentNewLine := some start, hunkNumber := st.hunkNumber + 1, sawHunk := true } := by
    intro st
    rw [scanLine, headerStart, hm]
    rfl
  rw [HunkText.lines, List.foldlM_cons, hline]
  cases headerStart (h.header ++ [lf]) with
  | none =>
    refine ⟨fun h => ?_, fun st' h => ?_⟩
    · cases h
    · cases h
  | some n =>
    refine ⟨fun _ => ?_, fun _ _ => rfl⟩
    obtain ⟨st', hst', hsaw⟩ := foldlM_bodyText path h.body
      { st with currentNewLine := some n, hunkNumber := st.hunkNumber + 1, sawHunk := true }
    exact ⟨st', hst', hsaw⟩

theorem foldlM_hunkTexts (path : Str) {hunks : List (HunkText BodyLine)}
    (hstarts : ∀ h ∈ hunks, (headerStart (h.header ++ [lf])).isSome = true) (st : HunkScan) :
    ∃ st', (hunks.flatMap HunkText.lines).foldlM (scanLine path) st = .ok st' ∧
      st'.sawHunk = (st.sawHunk || !hunks.isEmpty) := by
  induction hunks generalizing st with
  | nil => exact ⟨st, rfl, by simp⟩
  | cons h hunks ih =>
    obtain ⟨hh, hhunks⟩ := List.forall_mem_cons.mp hstarts
    obtain ⟨st₁, hst₁, hsaw₁⟩ := (foldlM_hunkText path h st).1 hh
    obtain ⟨st₂, hst₂, hsaw₂⟩ := ih hhunks st₁
    refine ⟨st₂, ?_, ?_⟩
    · rw [List.flatMap_cons, List.foldlM_append, hst₁]
      exact hst₂
    · rw [hsaw₂, hsaw₁]
      simp

theorem starts_of_foldlM {hunks : List (HunkText BodyLine)} {st st' : HunkScan}
    (hok : (hunks.flatMap HunkText.lines).foldlM (scanLine path) st = .ok st') :
    ∀ h ∈ hunks, (headerStart (h.header ++ [lf])).isSome = true := by
  induction hunks generalizing st with
  | nil => simp
  | cons h hunks ih =>
    rw [List.flatMap_cons, List.foldlM_append] at hok
    obtain ⟨st₁, hst₁, hok⟩ := bind_eq_ok.mp hok
    exact List.forall_mem_cons.mpr ⟨(foldlM_hunkText path h st).2 st₁ hst₁, ih hok⟩

end Scan

/-- A file is a section of its own with a hunk exactly when it is readable. -/
theorem parseSection_lines_iff {f : FileText BodyLine} :
    (∃ d, parseSection f.lines = .ok (d, true)) ↔ f.Readable := by
  rw [FileText.lines, f.parseSection_head]
  constructor
  · rintro ⟨d, hok⟩
    split at hok
    · cases hok
    · next hpath =>
      obtain ⟨st, hst, heq⟩ := map_eq_ok.mp hok
      have hstarts := starts_of_foldlM hst
      refine ⟨hpath, fun hnil => ?_, hstarts⟩
      -- without hunks nothing is scanned, and no hunk was seen
      rw [hnil] at hst
      cases hst
      exact nomatch (Prod.mk.inj heq).2
  · rintro ⟨hpath, hhunks, hstarts⟩
    obtain ⟨st, hst, hsaw⟩ := foldlM_hunkTexts f.readPath hstarts HunkScan.start
    rw [if_neg hpath, hst]
    have htrue : st.sawHunk = true := by
      rw [hsaw]
      cases hf : f.hunks with
      | nil => exact absurd hf hhunks
      | cons h hunks => rfl
    exact ⟨⟨f.readPath, _, st.lines⟩, by rw [← htrue]; rfl⟩

/-! ## Files of one style -/

section Files

variable {files : List (FileText BodyLine)}

theorem gitStarts_plainFiles (hgit : ∀ f ∈ files, f.gitLine = none) :
    gitStarts (files.map FileText.lines).flatten = [] := by
  have hcount : (files.map FileText.lines).flatten.countP (fun l => startswith l gitHeader) = 0 := by
    rw [List.countP_flatten, List.sum_eq_zero_iff]
    intro n hn
    rw [List.map_map] at hn
    obtain ⟨f, hf, rfl⟩ := List.mem_map.mp hn
    rw [Function.comp_apply, f.countP_gitHeader, hgit f hf]
    rfl
  refine List.filter_eq_nil_iff.mpr fun i hi => ?_
  have hlt := List.mem_range.mp hi
  rw [lineAt_eq hlt]
  exact List.countP_eq_zero.mp hcount _ (List.getElem_mem hlt)

/-- Plain files are cut at their headers. -/
theorem sectionStarts_plainFiles (hplain : ∀ f ∈ files, f.Plain)
    (hgit : ∀ f ∈ files, f.gitLine = none) :
    sectionStarts (files.map FileText.lines).flatten = offsets 0 (files.map FileText.lines) := by
  rw [sectionStarts, gitStarts_plainFiles hgit, if_neg (by simp), plainStarts_eq]
  refine startsBy_flatten (fun b hb => ?_) (fun b hb rest => ?_) fun b hb rest _ i hi hlt => ?_
  · obtain ⟨f, hf, rfl⟩ := List.mem_map.mp hb
    rw [f.lines_of_plain (hgit f hf)]
    exact List.cons_ne_nil _ _
  · obtain ⟨f, hf, rfl⟩ := List.mem_map.mp hb
    rw [f.lines_of_plain (hgit f hf)]
    rfl
  · obtain ⟨f, hf, rfl⟩ := List.mem_map.mp hb
    -- behind the first line no line starts like an old header
    have hinner : ∀ l ∈ f.lines.drop 1, startswith l oldHeader = false := by
      rw [f.lines_of_plain (hgit f hf)]
      refine List.forall_mem_cons.mpr ⟨rfl, fun l hl => ?_⟩
      obtain ⟨h, hh, hl⟩ := List.mem_flatMap.mp hl
      exact HunkText.not_oldHeader (hplain f hf h hh) l hl
    have hmem : f.lines[i] ∈ f.lines.drop 1 := by
      obtain ⟨j, rfl⟩ : ∃ j, i = j + 1 := ⟨i - 1, by omega⟩
      rw [List.drop_one, ← List.getElem_tail (by simp; omega)]
      exact List.getElem_mem _
    rw [List.drop_eq_getElem_cons hlt, List.cons_append]
    unfold plainHead
    split
    · next heq =>
      obtain ⟨rfl, -⟩ := List.cons.inj heq
      rw [hinner _ hmem, Bool.false_and]
    · rfl

theorem renderFiles_not_blank (hne : files ≠ []) :
    ¬(renderFiles BodyLine.text files = [] ∨ strip (renderFiles BodyLine.text files) = []) := by
  obtain ⟨f, hf⟩ := List.exists_mem_of_ne_nil files hne
  have hmem : lit "--- a/" ++ f.path ++ [lf] ∈ splitlines (renderFiles BodyLine.text files) := by
    rw [splitlines_renderFiles]
    refine List.mem_flatten.mpr ⟨f.lines, List.mem_map_of_mem hf, ?_⟩
    rw [FileText.lines, FileText.head]
    simp
  exact not_blank_of_mem_splitlines hmem (show Chr.ofChar '-' ∈ _ from List.mem_cons_self) rfl

/-- Files of one style are parsed one by one. -/
theorem parse_sameStyle (hplain : ∀ f ∈ files, f.Plain) (hne : files ≠ []) (hsame : SameStyle files) :
    parseUnifiedDiff (renderFiles BodyLine.text files)
      = ((files.map FileText.lines).mapM parseSection).bind filesOfParsed := by
  have hblocks : files.map FileText.lines ≠ [] := by simpa using hne
  have hlines : splitlines (renderFiles BodyLine.text files)
      = [] ++ (files.map FileText.lines).flatten := splitlines_renderFiles files
  rcases hsame with hgit | hgit
  · refine parseUnifiedDiff_git hlines nofun (fun b hb => ?_) hblocks
    obtain ⟨f, hf, rfl⟩ := List.mem_map.mp hb
    exact f.isGitBlock (hgit f hf)
  · exact parseUnifiedDiff_sections hlines (sectionStarts_plainFiles hplain hgit) hblocks
      (renderFiles_not_blank hne)

theorem parse_alone {f : FileText BodyLine} (hplain : f.Plain) {d : FileDiff} :
    parseUnifiedDiff (renderFiles BodyLine.text [f]) = .ok [d] ↔ parseSection f.lines = .ok (d, true) := by
  have hsame : SameStyle [f] := by
    cases hgit : f.gitLine with
    | none => exact .inr fun g hg => List.mem_singleton.mp hg ▸ hgit
    | some s => exact .inl fun g hg => List.mem_singleton.mp hg ▸ hgit ▸ rfl
  rw [parse_sameStyle (List.forall_mem_singleton.mpr hplain) (List.cons_ne_nil _ _) hsame,
    mapM_parseSection_eq_ok]
  constructor
  · rintro ⟨parsed, hparsed, hany, hfiles⟩
    obtain ⟨p, rest, hp, hrest, rfl⟩ := List.forall₂_cons_left_iff.mp hparsed
    cases hrest
    rw [hp]
    obtain ⟨rfl, -⟩ := List.cons.inj hfiles
    exact congrArg Except.ok (Prod.ext rfl (by simpa using hany))
  · intro hd
    exact ⟨[(d, true)], .cons hd .nil, rfl, rfl⟩

theorem exists_parsed (hread : ∀ f ∈ files, f.Readable) : ∃ diffs,
    List.Forall₂ (fun f d => parseSection f.lines = .ok (d, true)) files diffs := by
  induction files with
  | nil => exact ⟨[], .nil⟩
  | cons f files ih =>
    obtain ⟨hf, hfiles⟩ := List.forall_mem_cons.mp hread
    obtain ⟨d, hd⟩ := parseSection_lines_iff.mpr hf
    obtain ⟨diffs, hdiffs⟩ := ih hfiles
    exact ⟨d :: diffs, .cons hd hdiffs⟩

/-- A text with a git header is parsed to as many files as it has git headers. -/
theorem length_of_git {diffs : List FileDiff} (hgit : ∃ f ∈ files, f.gitLine.isSome = true)
    (hok : parseUnifiedDiff (renderFiles BodyLine.text files) = .ok diffs) :
    diffs.length = files.countP fun f => f.gitLine.isSome := by
  obtain ⟨preamble, blocks, hlines, hpreamble, hblocks⟩ :=
    exists_gitBlocks (files.map FileText.lines).flatten
  have hcount : blocks.length = files.countP fun f => f.gitLine.isSome := by
    rw [← countP_gitHeader_gitBlocks hpreamble hblocks, ← hlines, List.countP_flatten, List.map_map]
    clear hlines hok hgit
    induction files with
    | nil => rfl
    | cons f files ih =>
      rw [List.map_cons, List.sum_cons, ih, Function.comp_apply, f.countP_gitHeader, List.countP_cons]
      omega
  have hne : blocks ≠ [] := by
    rintro rfl
    obtain ⟨f, hf, hsome⟩ := hgit
    have hpos : 0 < files.countP fun f => f.gitLine.isSome := List.countP_pos_iff.mpr ⟨f, hf, hsome⟩
    rw [← hcount] at hpos
    cases hpos
  rw [parseUnifiedDiff_git ((splitlines_renderFiles files).trans hlines) hpreamble hblocks hne,
    mapM_parseSection_eq_ok] at hok
  obtain ⟨parsed, hparsed, -, rfl⟩ := hok
  rw [List.length_map, ← hparsed.length_eq, hcount]

end Files

/-- The files of a diff are read one by one, each as if it stood alone, exactly when they
are readable and of one style. -/
theorem no_file_lost_iff {files : List (FileText BodyLine)} (hplain : ∀ f ∈ files, f.Plain) :
    NoFileLost files ↔ files ≠ [] ∧ SameStyle files ∧ ∀ f ∈ files, f.Readable := by
  constructor
  · rintro ⟨diffs, hok, hall⟩
    have hne : files ≠ [] := by
      rintro rfl
      cases hok
    refine ⟨hne, ?_, fun f hf => ?_⟩
    · by_cases hgit : ∃ f ∈ files, f.gitLine.isSome = true
      · -- every git file gives one result, so all files are git files
        have hlength : files.countP (fun f => f.gitLine.isSome) = files.length := by
          rw [← length_of_git hgit hok, hall.length_eq]
        exact .inl (List.countP_eq_length.mp hlength)
      · refine .inr fun f hf => ?_
        rw [← Option.not_isSome_iff_eq_none]
        exact fun hsome => hgit ⟨f, hf, hsome⟩
    · obtain ⟨i, hi, rfl⟩ := List.getElem_of_mem hf
      have hd := (List.forall₂_iff_get.mp hall).2 i hi (by rw [← hall.length_eq]; exact hi)
      exact parseSection_lines_iff.mp ⟨_, (parse_alone (hplain _ hf)).mp hd⟩
  · rintro ⟨hne, hsame, hread⟩
    obtain ⟨diffs, hdiffs⟩ := exists_parsed hread
    refine ⟨diffs, ?_, ?_⟩
    · rw [parse_sameStyle hplain hne hsame, mapM_parseSection_eq_ok]
      refine ⟨diffs.map fun d => (d, true), ?_, ?_, ?_⟩
      · rw [List.forall₂_map_left_iff, List.forall₂_map_right_iff]
        exact hdiffs
      · cases hdiffs with
        | nil => exact absurd rfl hne
        | cons => rfl
      · rw [List.map_map]
        exact List.map_id _
    · have hboth := (List.forall₂_and_left files diffs).mpr ⟨hplain, hdiffs⟩
      exact hboth.imp fun f d h => (parse_alone h.1).mpr h.2

/-- One added line under `@@ -0,0 +1,1 @@`. -/
def oneLine (content : Str) (h : NoBreak content) : HunkText BodyLine where
  header := lit "@@ -0,0 +1,1 @@"
  header_noBreak := noBreak_of_all (by decide)
  isHeader := by decide
  body := [⟨.added, content, h⟩]

/-- A git file and a plain one behind it. -/
def mixedFiles : List (FileText BodyLine) :=
  [{ gitLine := some (lit "a/a b/a")
     gitLine_noBreak := fun _ h => Option.some.inj h ▸ noBreak_of_all (by decide)
     path := lit "a"
     path_noBreak := noBreak_of_all (by decide)
     hunks := [oneLine (lit "x") (noBreak_of_all (by decide))] },
    { gitLine := none
      gitLine_noBreak := nofun
      path := lit "b"
      path_noBreak := noBreak_of_all (by decide)
      hunks := [oneLine (lit "y") (noBreak_of_all (by decide))] }]

theorem mixedFiles_plain : ∀ f ∈ mixedFiles, f.Plain := by
  unfold FileText.Plain
  decide

theorem no_file_lost_iff_sample :
    NoFileLost mixedFiles ↔ mixedFiles ≠ [] ∧ SameStyle mixedFiles ∧ ∀ f ∈ mixedFiles, f.Readable :=
  no_file_lost_iff mixedFiles_plain

/-- The line of the plain file is reported as a line of the git file. -/
theorem plain_file_misattributed :
    (∀ f ∈ mixedFiles, f.Plain) ∧
      renderFiles BodyLine.text mixedFiles = lit ("diff --git a/a b/a\n--- a/a\n+++ b/a\n" ++
        "@@ -0,0 +1,1 @@\n+x\n--- a/b\n+++ b/b\n@@ -0,0 +1,1 @@\n+y\n") ∧
      (parseUnifiedDiff (renderFiles BodyLine.text mixedFiles)).toOption.map
          (fun files => files.map fun f => (f.path, f.lines.map fun l => (l.path, l.content)))
        = some [(lit "a", [(lit "a", lit "x"), (lit "a", lit "y")])] ∧
      ¬NoFileLost mixedFiles := by
  have hparse : (parseUnifiedDiff (renderFiles BodyLine.text mixedFiles)).toOption.map
      (fun files => files.map fun f => (f.path, f.lines.map fun l => (l.path, l.content)))
      = some [(lit "a", [(lit "a", lit "x"), (lit "a", lit "y")])] := by decide
  refine ⟨mixedFiles_plain, by decide, hparse, ?_⟩
  rintro ⟨diffs, hok, hall⟩
  rw [hok] at hparse
  have hone := congrArg List.length (Option.some.inj hparse)
  rw [List.length_map, ← hall.length_eq] at hone
  exact absurd hone (by decide)

end DiffReview
