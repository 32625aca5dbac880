import DiffReview.Diff.GitSections
import DiffReview.Diff.Scan

/-!
# DiffReview — reading rendered diffs back

The parser cuts the text of a diff into the texts of its files, and reads each of them
back, unless a line of a hunk looks like a file header, the path is `/dev/null` or a hunk
starts past the digit limit. These are the only exceptions (`parse_render_iff`).
-/

namespace DiffReview

open Py Raise

/-! ## Text without line boundaries -/

theorem digitChr_noBreak {d : Nat} (hd : d < 10) : isLineBreak (digitChr d) = false := by
  interval_cases d <;> decide

theorem noBreak_decimal (n : Nat) : NoBreak (decimal n) := by
  intro c hc
  obtain ⟨d, hd, rfl⟩ := mem_decimal hc
  exact digitChr_noBreak hd

theorem Hunk.noBreak_header (h : Hunk) : NoBreak h.header := by
  have hlit : ∀ s, (lit s).all (fun c => !isLineBreak c) = true → NoBreak (lit s) :=
    fun _ => noBreak_of_all
  exact ((((((((hlit _ (by decide)).append (noBreak_decimal _)).append (hlit _ (by decide))).append
    (noBreak_decimal _)).append (hlit _ (by decide))).append (noBreak_decimal _)).append
    (hlit _ (by decide))).append (noBreak_decimal _)).append (hlit _ (by decide))

theorem isPathChr_bounds {c : Chr} (h : isPathChr c = true) : 45 ≤ c.val ∧ c.val ≤ 122 := by
  simp only [isPathChr, Bool.or_eq_true, Bool.and_eq_true, decide_eq_true_eq, beq_iff_eq] at h
  omega

theorem isPathChr_plain {c : Chr} (h : isPathChr c = true) :
    isLineBreak c = false ∧ isSpace c = false := by
  obtain ⟨hlow, hhigh⟩ := isPathChr_bounds h
  constructor
  · simp only [isLineBreak, Bool.or_eq_false_iff, Bool.and_eq_false_iff, decide_eq_false_iff_not,
      beq_eq_false_iff_ne]
    omega
  · simp only [isSpace, Bool.or_eq_false_iff, Bool.and_eq_false_iff, decide_eq_false_iff_not,
      beq_eq_false_iff_ne]
    omega

section Files

variable (f : DiffFile)

theorem DiffFile.noBreak_path : NoBreak f.path := fun c hc => (isPathChr_plain (f.path_chars c hc)).1

theorem DiffFile.noBreak_text (git : Bool) : ∀ line ∈ f.text git, NoBreak line := by
  have hlit : ∀ s, (lit s).all (fun c => !isLineBreak c) = true → NoBreak (lit s ++ f.path) :=
    fun _ h => (noBreak_of_all h).append f.noBreak_path
  have hgit : NoBreak f.gitLine :=
    ((hlit _ (by decide)).append (noBreak_of_all (by decide))).append f.noBreak_path
  intro line hline
  rcases List.mem_append.mp hline with hline | hline
  · cases git with
    | false => cases hline
    | true => exact List.mem_singleton.mp hline ▸ hgit
  rcases List.mem_cons.mp hline with rfl | hline
  · exact hlit _ (by decide)
  rcases List.mem_cons.mp hline with rfl | hline
  · exact hlit _ (by decide)
  obtain ⟨h, -, hline⟩ := List.mem_flatMap.mp hline
  rcases List.mem_cons.mp hline with rfl | hline
  · exact h.noBreak_header
  · obtain ⟨l, -, rfl⟩ := List.mem_map.mp hline
    exact l.noBreak_text

/-! ## The path -/

theorem cleanPath_newLine : cleanPath ((f.newLine ++ [lf]).drop 4) = f.path := by
  have hchars : ∀ c ∈ lit "b/" ++ f.path, isPathChr c = true :=
    List.forall_mem_append.mpr ⟨List.all_eq_true.mp (by decide), f.path_chars⟩
  have hspace : ∀ c ∈ lit "b/" ++ f.path, isSpace c = false := fun c hc =>
    (isPathChr_plain (hchars c hc)).2
  have hline : rstripNewline (lit "b/" ++ f.path ++ [lf]) = lit "b/" ++ f.path :=
    rstripNewline_append_lf fun c hc => (isPathChr_plain (hchars c hc)).1
  have htab : beforeFirst (Chr.ofChar '\t') (lit "b/" ++ f.path) = lit "b/" ++ f.path := by
    refine List.takeWhile_eq_self_iff.mpr fun c hc => ?_
    have hne : c ≠ Chr.ofChar '\t' := by
      rintro rfl
      exact absurd (hspace _ hc) (by decide)
    simpa using hne
  have hstrip : strip (lit "b/" ++ f.path) = lit "b/" ++ f.path := by
    have hfront : (lit "b/" ++ f.path).dropWhile isSpace = lit "b/" ++ f.path := rfl
    rw [strip, hfront, List.rdropWhile_eq_self_iff]
    intro hne
    rw [hspace _ (List.getLast_mem hne)]
    exact Bool.false_ne_true
  have hquote : unquote (lit "b/" ++ f.path) = lit "b/" ++ f.path := by
    have hb : startswith (lit "b/" ++ f.path) quote = false := rfl
    rw [unquote, hb, Bool.false_and, if_neg Bool.false_ne_true]
  have hdrop : (f.newLine ++ [lf]).drop 4 = lit "b/" ++ f.path ++ [lf] := rfl
  rw [hdrop, cleanPath, hline, htab, hstrip, hquote]
  rfl

/-! ## One file -/

/-- The lines of the file with their line ends. -/
def DiffFile.lines (git : Bool) : List Str := (f.text git).map fun l => l ++ [lf]

/-- The lines before the hunks. -/
def DiffFile.headLines (git : Bool) : List Str :=
  (if git then [f.gitLine ++ [lf]] else []) ++ [f.oldLine ++ [lf], f.newLine ++ [lf]]

theorem DiffFile.lines_eq (git : Bool) :
    f.lines git = f.headLines git ++ f.hunks.flatMap Hunk.lines := by
  have hhunks : (f.hunks.flatMap Hunk.text).map (fun l => l ++ [lf]) = f.hunks.flatMap Hunk.lines :=
    List.map_flatMap
  rw [DiffFile.lines, DiffFile.text, List.map_append, List.map_cons, List.map_cons, hhunks]
  cases git <;> rfl

/-- The scan of the file starts behind its headers. -/
theorem parseSection_lines (git : Bool) : parseSection (f.lines git) =
    ((f.hunks.flatMap Hunk.lines).foldlM (scanLine f.path) HunkScan.start).map fun st =>
      (⟨f.path, (f.lines git).flatten, st.lines⟩, st.sawHunk) := by
  have hbefore : ∀ l ∈ (if git then [f.gitLine ++ [lf]] else []), startswith l newHeader = false := by
    intro l hl
    cases git with
    | false => cases hl
    | true => rw [List.mem_singleton.mp hl]; rfl
  have hsplit : f.lines git = (if git then [f.gitLine ++ [lf]] else [])
      ++ (f.oldLine ++ [lf]) :: (f.newLine ++ [lf]) :: f.hunks.flatMap Hunk.lines := by
    rw [f.lines_eq, DiffFile.headLines, List.append_assoc]
    rfl
  rw [hsplit, parseSection_header hbefore rfl rfl rfl, cleanPath_newLine, if_neg f.path_ne]

def DiffFile.reported : List NewFileLine := hunksReported f.path 0 f.hunks

theorem parseSection_lines_eq (git : Bool) (hsmall : ∀ h ∈ f.hunks, h.newStart < 10 ^ maxStrDigits) :
    parseSection (f.lines git) = .ok (⟨f.path, (f.lines git).flatten, f.reported⟩, true) := by
  obtain ⟨cur, hcur⟩ := foldlM_hunks f.path HunkScan.start hsmall
  have hsaw : (HunkScan.start.sawHunk || !f.hunks.isEmpty) = true := by
    cases hhunks : f.hunks with
    | nil => exact absurd hhunks f.hunks_ne
    | cons h hunks => rfl
  rw [parseSection_lines, hcur, hsaw]
  rfl

theorem parseSection_lines_small {git : Bool} {parsed : FileDiff × Bool}
    (hok : parseSection (f.lines git) = .ok parsed) :
    ∀ h ∈ f.hunks, h.newStart < 10 ^ maxStrDigits := by
  rw [parseSection_lines] at hok
  obtain ⟨st, hst, -⟩ := map_eq_ok.mp hok
  exact foldlM_hunks_small hst

end Files

/-! ## The cuts -/

section Cuts

variable (d : UnifiedDiff)

/-- The lines of each file. -/
def UnifiedDiff.blocks : List (List Str) := d.files.map fun f => f.lines d.git

theorem splitlines_render : splitlines d.render = d.blocks.flatten := by
  have hbreak : ∀ line ∈ d.files.flatMap fun f => f.text d.git, NoBreak line := by
    intro line hline
    obtain ⟨f, -, hline⟩ := List.mem_flatMap.mp hline
    exact f.noBreak_text d.git line hline
  rw [UnifiedDiff.render, joinLines, splitlines_flatten _ hbreak, List.map_flatMap,
    List.flatMap_def]
  rfl

/-- No line of a file but its `diff --git` line starts a git section. -/
theorem DiffFile.not_gitHeader (f : DiffFile) :
    ∀ line ∈ f.lines false, startswith line gitHeader = false := by
  intro line hline
  rw [f.lines_eq] at hline
  rcases List.mem_append.mp hline with hline | hline
  · rcases List.mem_pair.mp hline with rfl | rfl <;> rfl
  · obtain ⟨h, -, hline⟩ := List.mem_flatMap.mp hline
    rw [h.lines_eq] at hline
    rcases List.mem_cons.mp hline with rfl | hline
    · rfl
    · obtain ⟨l, -, rfl⟩ := List.mem_map.mp hline
      unfold BodyLine.text
      cases l.kind <;> rfl

theorem DiffFile.lines_true (f : DiffFile) : f.lines true = (f.gitLine ++ [lf]) :: f.lines false := rfl

theorem gitStarts_plain (hgit : d.git = false) : gitStarts d.blocks.flatten = [] := by
  refine List.filter_eq_nil_iff.mpr fun i hi => ?_
  have hlt := List.mem_range.mp hi
  obtain ⟨b, hb, hline⟩ := List.mem_flatten.mp (List.getElem_mem hlt)
  obtain ⟨f, -, rfl⟩ := List.mem_map.mp hb
  rw [lineAt_eq hlt, f.not_gitHeader _ (hgit ▸ hline)]
  exact Bool.false_ne_true

theorem sectionStarts_git (hgit : d.git = true) :
    sectionStarts d.blocks.flatten = offsets 0 d.blocks := by
  have hpreamble : ∀ line ∈ ([] : List Str), startswith line gitHeader = false := by simp
  have hblocks : ∀ b ∈ d.blocks, IsGitBlock b := by
    intro b hb
    obtain ⟨f, -, rfl⟩ := List.mem_map.mp hb
    rw [hgit, f.lines_true]
    exact ⟨_, _, rfl, rfl, f.not_gitHeader⟩
  have hne : d.blocks ≠ [] := by
    rw [UnifiedDiff.blocks, ne_eq, List.map_eq_nil_iff]
    exact d.files_ne
  exact sectionStarts_gitBlocks hpreamble hblocks hne

theorem sectionStarts_plain (hgit : d.git = false) :
    sectionStarts d.blocks.flatten = startsBy plainHead d.blocks.flatten := by
  rw [sectionStarts, gitStarts_plain d hgit, if_neg (not_not.mpr rfl), plainStarts_eq]

/-- Without a git line a file is its two header lines and its hunks. -/
theorem mem_blocks_plain (hgit : d.git = false) {b : List Str} (hb : b ∈ d.blocks) : ∃ f ∈ d.files,
    b = (f.oldLine ++ [lf]) :: (f.newLine ++ [lf]) :: f.hunks.flatMap Hunk.lines := by
  obtain ⟨f, hf, rfl⟩ := List.mem_map.mp hb
  exact ⟨f, hf, by rw [hgit, f.lines_eq]; rfl⟩

/-- The offsets of the files are starts, whatever their lines are. -/
theorem offsets_sublist_sectionStarts :
    (offsets 0 d.blocks).Sublist (sectionStarts d.blocks.flatten) := by
  cases hgit : d.git with
  | true => rw [sectionStarts_git d hgit]
  | false =>
    rw [sectionStarts_plain d hgit]
    refine offsets_sublist_startsBy (fun b hb => ?_) fun b hb rest => ?_
    · obtain ⟨f, -, rfl⟩ := mem_blocks_plain d hgit hb
      exact List.cons_ne_nil _ _
    · obtain ⟨f, -, rfl⟩ := mem_blocks_plain d hgit hb
      rfl

/-- No line of a hunk looks like the second header line of a file. -/
def DiffFile.NoNewHeader (f : DiffFile) : Prop :=
  ∀ line ∈ f.hunks.flatMap Hunk.lines, startswith line newHeader = false

theorem plainHead_eq_false {line : Str} {rest : List Str}
    (h : ∀ next ∈ rest.head?, startswith next newHeader = false) : plainHead (line :: rest) = false := by
  cases rest with
  | nil => rfl
  | cons next rest => rw [plainHead, h next rfl, Bool.and_false]

/-- Without such lines the files are the only sections. -/
theorem sectionStarts_blocks (hplain : ∀ f ∈ d.files, f.NoNewHeader) :
    sectionStarts d.blocks.flatten = offsets 0 d.blocks := by
  cases hgit : d.git with
  | true => exact sectionStarts_git d hgit
  | false =>
    rw [sectionStarts_plain d hgit]
    refine startsBy_flatten (fun b hb => ?_) (fun b hb rest => ?_) fun b hb rest hrest i hi hlt => ?_
    · obtain ⟨f, -, rfl⟩ := mem_blocks_plain d hgit hb
      exact List.cons_ne_nil _ _
    · obtain ⟨f, -, rfl⟩ := mem_blocks_plain d hgit hb
      rfl
    · obtain ⟨f, hf, rfl⟩ := mem_blocks_plain d hgit hb
      match i, hi with
      | 1, _ =>
        rw [List.drop_succ_cons, List.drop_zero, List.cons_append]
        cases f.hunks.flatMap Hunk.lines ++ rest.flatten <;> rfl
      | j + 2, _ =>
        have hj : j < (f.hunks.flatMap Hunk.lines).length := by simpa using hlt
        rw [List.drop_succ_cons, List.drop_succ_cons, List.drop_eq_getElem_cons hj, List.cons_append]
        refine plainHead_eq_false fun next hnext => ?_
        -- the next line is one of the same hunks, or the first of the next file
        rw [List.head?_append] at hnext
        rcases Option.or_eq_some_iff.mp hnext with hnext | ⟨-, hnext⟩
        · exact hplain f hf next (List.mem_of_mem_drop (List.mem_of_mem_head? hnext))
        · cases rest with
          | nil => cases hnext
          | cons b' rest =>
            obtain ⟨f', -, rfl⟩ := mem_blocks_plain d hgit (hrest b' List.mem_cons_self)
            rw [List.flatten_cons] at hnext
            cases hnext
            rfl

end Cuts

/-! ## What is read -/

theorem length_newLines (path : Str) (hunk : Int) (n : Nat) (body : List BodyLine) :
    (newLines path hunk n body).length = body.countP fun l => l.kind ≠ .removed := by
  induction body generalizing n with
  | nil => rfl
  | cons l body ih =>
    rw [newLines, List.countP_cons]
    by_cases hkind : l.kind = .removed
    · rw [if_pos hkind, ih, if_neg (by simp [hkind]), Nat.add_zero]
    · rw [if_neg hkind, List.length_cons, ih, if_pos (by simp [hkind])]

/-- Removed lines at the end of a hunk have no new-file lines. -/
theorem newLines_append_removed (path : Str) (hunk : Int) (n : Nat) (body : List BodyLine)
    {removed : List BodyLine} (h : ∀ l ∈ removed, l.kind = .removed) :
    newLines path hunk n (body ++ removed) = newLines path hunk n body := by
  induction body generalizing n with
  | nil =>
    induction removed with
    | nil => rfl
    | cons l removed ih =>
      obtain ⟨hl, hrest⟩ := List.forall_mem_cons.mp h
      rw [List.nil_append, show newLines path hunk n (l :: removed)
        = newLines path hunk n removed from if_pos hl]
      exact ih hrest
  | cons l body ih =>
    rw [List.cons_append, newLines, newLines, ih, ih]

section Reported

variable {path : Str} (hpath : path ≠ devNull)
include hpath

theorem reportedLines_of_clean {h : Hunk} (hclean : h.Clean) (hunk : Int) :
    reportedLines path hunk h.newStart h.body = newLines path hunk h.newStart h.body := by
  conv_rhs => rw [← List.takeWhile_append_dropWhile (p := fun l => !l.likeHeader) (l := h.body)]
  rw [newLines_append_removed _ _ _ _ hclean, reportedLines, if_neg hpath]

/-- A hunk loses lines exactly when it is not clean. -/
theorem length_reportedLines (hunk : Int) (h : Hunk) :
    (reportedLines path hunk h.newStart h.body).length
        ≤ (newLines path hunk h.newStart h.body).length ∧
      ((reportedLines path hunk h.newStart h.body).length
        = (newLines path hunk h.newStart h.body).length → h.Clean) := by
  have hcount := congrArg (List.countP fun l => l.kind ≠ .removed)
    (List.takeWhile_append_dropWhile (p := fun l => !l.likeHeader) (l := h.body))
  rw [List.countP_append] at hcount
  rw [reportedLines, if_neg hpath, length_newLines, length_newLines]
  refine ⟨by omega, fun heq l hl => ?_⟩
  have hzero : (h.body.dropWhile fun l => !l.likeHeader).countP (fun l => l.kind ≠ .removed) = 0 := by
    omega
  simpa using List.countP_eq_zero.mp hzero l hl

theorem hunksReported_of_clean {hunks : List Hunk} (hclean : ∀ h ∈ hunks, h.Clean) (hunk : Int) :
    hunksReported path hunk hunks = hunksNewLines path hunk hunks := by
  induction hunks generalizing hunk with
  | nil => rfl
  | cons h hunks ih =>
    obtain ⟨hh, hhunks⟩ := List.forall_mem_cons.mp hclean
    rw [hunksReported, hunksNewLines, reportedLines_of_clean hpath hh, ih hhunks]

theorem length_hunksReported (hunk : Int) (hunks : List Hunk) :
    (hunksReported path hunk hunks).length ≤ (hunksNewLines path hunk hunks).length ∧
      ((hunksReported path hunk hunks).length = (hunksNewLines path hunk hunks).length →
        ∀ h ∈ hunks, h.Clean) := by
  induction hunks generalizing hunk with
  | nil => exact ⟨le_rfl, by simp⟩
  | cons h hunks ih =>
    obtain ⟨hle, hclean⟩ := length_reportedLines hpath hunk h
    obtain ⟨hles, hcleans⟩ := ih (hunk + 1)
    rw [hunksReported, hunksNewLines, List.length_append, List.length_append]
    exact ⟨by omega, fun heq => List.forall_mem_cons.mpr ⟨hclean (by omega), hcleans (by omega)⟩⟩

end Reported

theorem hunksReported_devNull (hunk : Int) (hunks : List Hunk) : hunksReported devNull hunk hunks = [] := by
  induction hunks generalizing hunk with
  | nil => rfl
  | cons h hunks ih => rw [hunksReported, ih, reportedLines, if_pos rfl, List.append_nil]

theorem hunksNewLines_eq_nil {path : Str} {hunk : Int} {hunks : List Hunk} :
    hunksNewLines path hunk hunks = [] ↔ ∀ h ∈ hunks, ∀ l ∈ h.body, l.kind = .removed := by
  induction hunks generalizing hunk with
  | nil => simp [hunksNewLines]
  | cons h hunks ih =>
    rw [hunksNewLines, List.append_eq_nil_iff, ih, List.forall_mem_cons, ← List.length_eq_zero_iff,
      length_newLines, List.countP_eq_zero]
    simp

/-- The condition on the lines of a file: the parser reports all of them. -/
theorem reported_eq_iff (f : DiffFile) :
    f.reported.map NewFileLine.seen = f.newLines.map NewFileLine.seen ↔
      if f.path = devNull then ∀ h ∈ f.hunks, ∀ l ∈ h.body, l.kind = .removed
      else ∀ h ∈ f.hunks, h.Clean := by
  rw [DiffFile.reported, DiffFile.newLines]
  split
  · next hpath =>
    rw [hpath, hunksReported_devNull, List.map_nil, eq_comm, List.map_eq_nil_iff,
      hunksNewLines_eq_nil]
  · next hpath =>
    constructor
    · intro heq
      have hlength := congrArg List.length heq
      rw [List.length_map, List.length_map] at hlength
      exact (length_hunksReported hpath 0 f.hunks).2 hlength
    · intro hclean
      rw [hunksReported_of_clean hpath hclean]

/-- A line that starts like a second header line looks like a header, and is an added one. -/
theorem BodyLine.likeHeader_of_newHeader {l : BodyLine}
    (h : startswith (l.text ++ [lf]) newHeader = true) : l.kind = .added ∧ l.likeHeader = true := by
  unfold BodyLine.text at h
  unfold BodyLine.likeHeader
  cases hkind : l.kind with
  | context =>
    rw [hkind] at h
    exact nomatch (show false = true from h)
  | removed =>
    rw [hkind] at h
    exact nomatch (show false = true from h)
  | added =>
    rw [hkind] at h
    have hcontent : startswith (l.content ++ [lf]) (lit "++" ++ lit " ") = true := h
    rw [startswith_append_lf (by decide)] at hcontent
    exact ⟨rfl, by rw [startswith_of_append hcontent]; rfl⟩

/-- A file that is read back has no line that looks like a second header line. -/
theorem noNewHeader_of_readable {f : DiffFile} (h : f.Readable) : f.NoNewHeader := by
  intro line hline
  obtain ⟨hunk, hhunk, hline⟩ := List.mem_flatMap.mp hline
  rw [hunk.lines_eq] at hline
  rcases List.mem_cons.mp hline with rfl | hline
  · rfl
  · obtain ⟨l, hl, rfl⟩ := List.mem_map.mp hline
    by_contra hlike
    obtain ⟨hadded, hlike⟩ := BodyLine.likeHeader_of_newHeader (Bool.not_eq_false _ ▸ hlike)
    have hnot : l.kind ≠ .removed := by
      rw [hadded]
      nofun
    have hcond := h.2
    split at hcond
    · exact hnot (hcond hunk hhunk l hl)
    · refine hnot (hcond hunk hhunk l ?_)
      rw [← List.takeWhile_append_dropWhile (p := fun l => !l.likeHeader) (l := hunk.body)] at hl
      rcases List.mem_append.mp hl with hl | hl
      · have htake := List.mem_takeWhile_imp hl
        rw [hlike] at htake
        cases htake
      · exact hl

/-! ## Reading back -/

section Parse

variable (d : UnifiedDiff)

theorem render_ne_blank : ¬ (d.render = [] ∨ strip d.render = []) := by
  obtain ⟨f, files, hfiles⟩ := List.exists_cons_of_ne_nil d.files_ne
  -- the text starts with the `d` or the `-` of its first line
  have hhead : ∃ c rest, d.render = c :: rest ∧ isSpace c = false := by
    rw [UnifiedDiff.render, joinLines, hfiles, List.flatMap_cons, DiffFile.text]
    cases d.git with
    | true => exact ⟨Chr.ofChar 'd', _, rfl, rfl⟩
    | false => exact ⟨Chr.ofChar '-', _, rfl, rfl⟩
  obtain ⟨c, rest, hrender, hspace⟩ := hhead
  have hstrip : strip d.render ≠ [] := by
    rw [hrender, strip, List.dropWhile_cons_of_neg (by simp [hspace]), ne_eq,
      List.rdropWhile_eq_nil_iff]
    intro hall
    rw [hall c List.mem_cons_self] at hspace
    cases hspace
  rintro (hnil | hnil)
  · cases hrender.symm.trans hnil
  · exact hstrip hnil

/-- What the parser makes of a file whose header starts are within the digit limit. -/
def DiffFile.parsed (f : DiffFile) (git : Bool) : FileDiff :=
  ⟨f.path, (f.lines git).flatten, f.reported⟩

theorem mapM_parseSection_blocks
    (hsmall : ∀ f ∈ d.files, ∀ h ∈ f.hunks, h.newStart < 10 ^ maxStrDigits) :
    d.blocks.mapM parseSection = .ok (d.files.map fun f => (f.parsed d.git, true)) := by
  rw [mapM_eq_ok, UnifiedDiff.blocks, List.forall₂_map_left_iff, List.forall₂_map_right_iff]
  refine List.forall₂_same.mpr fun f hf => ?_
  exact parseSection_lines_eq f d.git (hsmall f hf)

theorem parse_render (hstarts : sectionStarts d.blocks.flatten = offsets 0 d.blocks)
    (hsmall : ∀ f ∈ d.files, ∀ h ∈ f.hunks, h.newStart < 10 ^ maxStrDigits) :
    parseUnifiedDiff d.render = .ok (d.files.map fun f => f.parsed d.git) := by
  have hne : offsets 0 d.blocks ≠ [] := by
    rw [ne_eq, ← List.length_eq_zero_iff, length_offsets, UnifiedDiff.blocks, List.length_map,
      List.length_eq_zero_iff]
    exact d.files_ne
  have hsections : sections d.blocks.flatten (offsets 0 d.blocks) = d.blocks :=
    sections_offsets [] d.blocks
  have hparsed := mapM_parseSection_blocks d hsmall
  rw [← hsections, ← hstarts, ← splitlines_render] at hparsed
  have hsaw : (d.files.map fun f => (f.parsed d.git, true)).any (·.2) = true := by
    obtain ⟨f, files, hfiles⟩ := List.exists_cons_of_ne_nil d.files_ne
    rw [hfiles]
    rfl
  have hok := parseUnifiedDiff_of_parsed (render_ne_blank d)
    (by rw [splitlines_render, hstarts]; exact hne) hparsed hsaw
  rwa [List.map_map] at hok

/-- A parse with as many files as the diff has cut it into these files. -/
theorem sectionStarts_of_length {files : List FileDiff} (hok : parseUnifiedDiff d.render = .ok files)
    (hlength : files.length = d.files.length) :
    sectionStarts d.blocks.flatten = offsets 0 d.blocks := by
  obtain ⟨-, parsed, hparsed, -, rfl⟩ := parseUnifiedDiff_eq_ok hok
  have hsections := (mapM_eq_ok.mp hparsed).length_eq
  rw [length_sections, splitlines_render] at hsections
  rw [List.length_map] at hlength
  refine ((offsets_sublist_sectionStarts d).eq_of_length ?_).symm
  rw [length_offsets, hsections, hlength, UnifiedDiff.blocks, List.length_map]

/-- The parser reads a rendered diff back exactly when all its files are readable. -/
theorem parse_render_iff : ReadsBack d ↔ ∀ f ∈ d.files, f.Readable := by
  constructor
  · rintro ⟨files, hok, hfiles⟩
    have hlength := congrArg List.length hfiles
    rw [List.length_map, List.length_map] at hlength
    have hstarts := sectionStarts_of_length d hok hlength
    obtain ⟨-, parsed, hparsed, -, -⟩ := parseUnifiedDiff_eq_ok hok
    rw [splitlines_render, hstarts, show sections d.blocks.flatten (offsets 0 d.blocks) = d.blocks
      from sections_offsets [] d.blocks] at hparsed
    have hsmall : ∀ f ∈ d.files, ∀ h ∈ f.hunks, h.newStart < 10 ^ maxStrDigits := by
      intro f hf
      obtain ⟨p, -, hp⟩ := exists_mem_of_mapM_eq_ok hparsed (List.mem_map_of_mem hf)
      exact parseSection_lines_small f hp
    rw [parse_render d hstarts hsmall] at hok
    cases hok
    rw [List.map_map] at hfiles
    intro f hf
    have hseen := List.map_inj_left.mp hfiles f hf
    exact ⟨hsmall f hf, (reported_eq_iff f).mp (Prod.mk.inj hseen).2⟩
  · intro hall
    have hsmall : ∀ f ∈ d.files, ∀ h ∈ f.hunks, h.newStart < 10 ^ maxStrDigits :=
      fun f hf => (hall f hf).1
    have hstarts := sectionStarts_blocks d fun f hf => noNewHeader_of_readable (hall f hf)
    refine ⟨_, parse_render d hstarts hsmall, ?_⟩
    rw [List.map_map]
    refine List.map_congr_left fun f hf => ?_
    exact Prod.ext rfl ((reported_eq_iff f).mpr (hall f hf).2)

end Parse

/-- One added line whose text is `+++`. -/
def plusPlusDiff : UnifiedDiff where
  git := false
  files := [{
    path := lit "x"
    path_ne := by decide
    path_chars := List.all_eq_true.mp (by decide)
    hunks := [⟨1, 1, [⟨.added, lit "++", noBreak_of_all (by decide)⟩]⟩]
    hunks_ne := by decide }]
  files_ne := List.cons_ne_nil _ _

/-- The parser takes the line for a header and reports no line at all. -/
theorem added_plusPlus_lost :
    plusPlusDiff.render = lit "--- a/x\n+++ b/x\n@@ -1,0 +1,1 @@\n+++\n" ∧
      ¬ ReadsBack plusPlusDiff := by
  refine ⟨by decide, ?_⟩
  rintro ⟨files, hok, hfiles⟩
  have hparse : (parseUnifiedDiff plusPlusDiff.render).toOption.map
      (fun files => files.map (·.lines.length)) = some [0] := by decide
  rw [hok] at hparse
  have hlines : files.map (·.lines.length) = [0] := Option.some.inj hparse
  have hcount := congrArg (List.map fun p => p.2.length) hfiles
  rw [List.map_map, List.map_map, show (fun p : Str × List (Str × Nat × Str × Bool) => p.2.length) ∘
    (fun f : FileDiff => (f.path, f.lines.map NewFileLine.seen)) = fun f => f.lines.length from
      funext fun f => List.length_map _, hlines] at hcount
  exact absurd hcount (by decide)

end DiffReview
