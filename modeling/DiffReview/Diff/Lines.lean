import DiffReview.Lib.Raise
import DiffReview.Spec.Parser

/-!
# DiffReview — the lines of a parsed file

What every accepted text guarantees about the lines of its files: they carry the path of
their file, their hunk numbers never go down and the lines of one hunk are numbered
upwards. So no line occurs twice and the lines of one hunk stand together.
-/

namespace DiffReview

open Py Raise

/-- The new-file start that a hunk header declares. -/
def headerStart (line : Str) : Option Nat :=
  (hunkRe.matchStart line).bind fun m => int (m.groups.headD [])

def isHunkHeader (line : Str) : Bool := (hunkRe.matchStart line).isSome

/-- A line of the new file: an unchanged or an added one. -/
def isNewFileLine (line : Str) : Bool := startswith line (lit " ") || startswith line (lit "+")

/-- A line of a hunk. -/
def isBodyLine (line : Str) : Bool :=
  isNewFileLine line || startswith line (lit "-") || startswith line noNewlineMarker

/-- Everything one line can do to the scan, with what the line looks like. -/
theorem scanLine_kinds {path : Str} {st st' : HunkScan} {line : Str}
    (h : scanLine path st line = .ok st') :
    (isHunkHeader line = true ∧ ∃ start, headerStart line = some start ∧
      st' = ⟨some start, st.hunkNumber + 1, true, st.lines⟩) ∨
    isHunkHeader line = false ∧ (st' = { st with currentNewLine := none } ∨
      ∃ n, st.currentNewLine = some n ∧ isBodyLine line = true ∧
        (isNewFileLine line = false ∧ st' = st ∨ isNewFileLine line = true ∧
          st' = st.report path n (rstripNewline (line.drop 1)) (startswith line (lit "+")))) := by
  unfold scanLine at h
  split at h
  · next m hm =>
    obtain ⟨start, hstart, h⟩ := bind_eq_ok.mp h
    cases h
    have hheader : headerStart line = some start := by
      rw [headerStart, hm]
      exact orRaise_eq_ok.mp hstart
    exact .inl ⟨by rw [isHunkHeader, hm]; rfl, start, hheader, rfl⟩
  · next hm =>
    refine .inr ⟨by rw [isHunkHeader, hm]; rfl, ?_⟩
    split at h
    · next hnone =>
      cases h
      exact .inl (by rw [← hnone])
    · next n hn =>
      cases h
      unfold scanBodyLine
      split
      · next hmarker =>
        -- the marker starts with a backslash
        have hspace : startswith line (lit " ") = false := startswith_other hmarker (by decide)
        have hplus : startswith line (lit "+") = false := startswith_other hmarker (by decide)
        exact .inr ⟨n, hn, by rw [isBodyLine, hmarker, Bool.or_true],
          .inl ⟨by rw [isNewFileLine, hspace, hplus]; rfl, rfl⟩⟩
      · simp only
        split
        · next hplus =>
          rw [Bool.and_eq_true] at hplus
          have hnew : isNewFileLine line = true := by rw [isNewFileLine, hplus.1, Bool.or_true]
          exact .inr ⟨n, hn, by rw [isBodyLine, hnew]; rfl, .inr ⟨hnew, by rw [hplus.1]⟩⟩
        · split
          · next hspace =>
            have hplus : startswith line (lit "+") = false := startswith_other hspace (by decide)
            have hnew : isNewFileLine line = true := by rw [isNewFileLine, hspace, Bool.true_or]
            exact .inr ⟨n, hn, by rw [isBodyLine, hnew]; rfl, .inr ⟨hnew, by rw [hplus]⟩⟩
          · next hspace =>
            split
            · next hminus =>
              rw [Bool.and_eq_true] at hminus
              have hplus : startswith line (lit "+") = false := startswith_other hminus.1 (by decide)
              refine .inr ⟨n, hn, by rw [isBodyLine, hminus.1, Bool.or_true]; rfl, .inl ⟨?_, rfl⟩⟩
              rw [isNewFileLine, hplus, Bool.eq_false_of_not_eq_true hspace]
              rfl
            · exact .inl rfl

theorem headerStart_of_not_header {line : Str} (h : isHunkHeader line = false) :
    headerStart line = none := by
  rw [isHunkHeader, Option.isSome_eq_false_iff, Option.isNone_iff_eq_none] at h
  rw [headerStart, h]
  rfl

/-- A line that is no hunk header never fails and opens no hunk. -/
theorem scanLine_of_not_header (path : Str) {l : Str} (h : hunkRe.matchStart l = none) (st : HunkScan) :
    ∃ st', scanLine path st l = .ok st' ∧ st'.sawHunk = st.sawHunk := by
  unfold scanLine
  rw [h]
  cases st.currentNewLine with
  | none => exact ⟨st, rfl, rfl⟩
  | some n =>
    refine ⟨scanBodyLine path st n l, rfl, ?_⟩
    unfold scanBodyLine HunkScan.report
    simp only
    split_ifs <;> rfl

/-- `a` stands before `b`: in an earlier hunk, or in the same one under a smaller number. -/
def NewFileLine.Precedes (a b : NewFileLine) : Prop :=
  a.hunk < b.hunk ∨ a.hunk = b.hunk ∧ a.line < b.line

structure LinesOrdered (path : Str) (lines : List NewFileLine) : Prop where
  path_eq : ∀ l ∈ lines, l.path = path
  precedes : lines.Pairwise NewFileLine.Precedes

theorem LinesOrdered.hunk_le {path : Str} {lines : List NewFileLine}
    (h : LinesOrdered path lines) : lines.Pairwise fun a b => a.hunk ≤ b.hunk :=
  h.precedes.imp fun hab => hab.elim le_of_lt fun hab => le_of_eq hab.1

theorem LinesOrdered.nodup {path : Str} {lines : List NewFileLine}
    (h : LinesOrdered path lines) : lines.Nodup :=
  h.precedes.imp fun hab heq => by
    subst heq
    unfold NewFileLine.Precedes at hab
    omega

/-- The invariant of the scan of a section: what was reported stands before what the next
report would be. -/
structure ScanOrdered (path : Str) (st : HunkScan) : Prop where
  ordered : LinesOrdered path st.lines
  le_hunkNumber : ∀ l ∈ st.lines, l.hunk ≤ st.hunkNumber
  line_lt : ∀ l ∈ st.lines, l.hunk = st.hunkNumber → ∀ n, st.currentNewLine = some n → l.line < n

theorem ScanOrdered.start (path : Str) : ScanOrdered path HunkScan.start :=
  ⟨⟨by simp [HunkScan.start], by simp [HunkScan.start]⟩, by simp [HunkScan.start],
    by simp [HunkScan.start]⟩

theorem ScanOrdered.report {path : Str} {st : HunkScan} (h : ScanOrdered path st) {n : Nat}
    (hn : st.currentNewLine = some n) (content : Str) (added : Bool) :
    ScanOrdered path (st.report path n content added) := by
  have hlt : ∀ l ∈ st.lines, l.hunk = st.hunkNumber → l.line < n :=
    fun l hl hhunk => h.line_lt l hl hhunk n hn
  unfold HunkScan.report
  by_cases hpath : path = devNull
  · simp only [hpath, if_true]
    refine ⟨hpath ▸ h.ordered, h.le_hunkNumber, ?_⟩
    intro l hl hhunk m hm
    have := hlt l hl hhunk
    cases hm
    omega
  · simp only [hpath, if_false]
    have hnew : ∀ a ∈ st.lines, a.Precedes ⟨path, n, content, added, st.hunkNumber⟩ := by
      intro a ha
      rcases lt_or_eq_of_le (h.le_hunkNumber a ha) with hhunk | hhunk
      · exact .inl hhunk
      · exact .inr ⟨hhunk, hlt a ha hhunk⟩
    refine ⟨⟨?_, ?_⟩, ?_, ?_⟩
    · intro l hl
      rcases List.mem_append.mp hl with hl | hl
      · exact h.ordered.path_eq l hl
      · rw [List.mem_singleton.mp hl]
    · refine List.pairwise_append.mpr ⟨h.ordered.precedes, List.pairwise_singleton _ _, ?_⟩
      intro a ha b hb
      rw [List.mem_singleton.mp hb]
      exact hnew a ha
    · intro l hl
      rcases List.mem_append.mp hl with hl | hl
      · exact h.le_hunkNumber l hl
      · rw [List.mem_singleton.mp hl]
    · intro l hl hhunk m hm
      cases hm
      rcases List.mem_append.mp hl with hl | hl
      · have := hlt l hl hhunk
        omega
      · rw [List.mem_singleton.mp hl]
        exact Nat.lt_succ_self n

theorem ScanOrdered.scanLine {path : Str} {st st' : HunkScan} {line : Str}
    (h : ScanOrdered path st) (hstep : scanLine path st line = .ok st') : ScanOrdered path st' := by
  rcases scanLine_kinds hstep with ⟨-, n, -, rfl⟩ | ⟨-, rfl | ⟨n, hn, -, ⟨-, rfl⟩ | ⟨-, rfl⟩⟩⟩
  · -- a header opens a hunk behind all reported lines
    refine ⟨h.ordered, fun l hl => (h.le_hunkNumber l hl).trans (by simp), ?_⟩
    intro l hl hhunk
    have := h.le_hunkNumber l hl
    simp only at hhunk
    omega
  · exact ⟨h.ordered, h.le_hunkNumber, by simp⟩
  · exact h
  · exact h.report hn _ _

/-- What a section that parses gives. -/
theorem parseSection_eq_ok {lines : List Str} {file : FileDiff} {sawHunk : Bool}
    (h : parseSection lines = .ok (file, sawHunk)) :
    file.path ≠ [] ∧ ∃ i st, lines.findIdx? (startswith · newHeader) = some i ∧
      file.path = cleanPath ((lineAt lines i).drop 4) ∧ file.raw = lines.flatten ∧
      (lines.drop (i + 1)).foldlM (scanLine file.path) HunkScan.start = .ok st ∧
      file.lines = st.lines ∧ sawHunk = st.sawHunk := by
  unfold parseSection at h
  split at h
  · cases h
  · next i hi =>
    split at h
    · cases h
    · simp only at h
      split at h
      · cases h
      · next hpath =>
        obtain ⟨st, hst, h⟩ := bind_eq_ok.mp h
        cases h
        exact ⟨hpath, i, st, hi, rfl, rfl, hst, rfl, rfl⟩

theorem parseSection_linesOrdered {lines : List Str} {file : FileDiff} {sawHunk : Bool}
    (h : parseSection lines = .ok (file, sawHunk)) : LinesOrdered file.path file.lines := by
  obtain ⟨-, i, st, -, -, -, hst, hlines, -⟩ := parseSection_eq_ok h
  have hscan : ScanOrdered file.path st :=
    foldlM_invariant (P := fun _ st => ScanOrdered file.path st) hst (.start file.path)
      fun _ _ _ _ _ hc hstep => hc.scanLine hstep
  rw [hlines]
  exact hscan.ordered

/-- What an accepted text gives: its files are those of its sections, and there is one. -/
theorem parseUnifiedDiff_eq_ok {diff : Str} {files : List FileDiff}
    (h : parseUnifiedDiff diff = .ok files) :
    sectionStarts (splitlines diff) ≠ [] ∧
      ∃ parsed, (sections (splitlines diff) (sectionStarts (splitlines diff))).mapM parseSection
          = .ok parsed ∧ parsed.any (·.2) = true ∧ files = parsed.map (·.1) := by
  unfold parseUnifiedDiff at h
  split at h
  · cases h
  · simp only at h
    split at h
    · cases h
    · next hstarts =>
      obtain ⟨parsed, hparsed, h⟩ := bind_eq_ok.mp h
      split at h
      · cases h
      · next hsaw =>
        cases h
        exact ⟨hstarts, parsed, hparsed, by simpa using hsaw, rfl⟩

/-- The converse: sections that all parse, one of them with a hunk, make an accepted text. -/
theorem parseUnifiedDiff_of_parsed {diff : Str} {parsed : List (FileDiff × Bool)}
    (hblank : ¬ (diff = [] ∨ strip diff = [])) (hstarts : sectionStarts (splitlines diff) ≠ [])
    (hparsed : (sections (splitlines diff) (sectionStarts (splitlines diff))).mapM parseSection
      = .ok parsed) (hsaw : parsed.any (·.2) = true) :
    parseUnifiedDiff diff = .ok (parsed.map (·.1)) := by
  unfold parseUnifiedDiff
  simp only [Bool.or_eq_true, decide_eq_true_eq, hblank, if_false, hstarts, hparsed]
  refine bind_eq_ok.mpr ⟨parsed, rfl, ?_⟩
  rw [if_neg (by simp [hsaw])]
  rfl

theorem parseUnifiedDiff_ne_nil {diff : Str} {files : List FileDiff}
    (h : parseUnifiedDiff diff = .ok files) : files ≠ [] := by
  obtain ⟨-, parsed, -, hany, rfl⟩ := parseUnifiedDiff_eq_ok h
  intro hnil
  rw [List.map_eq_nil_iff.mp hnil] at hany
  cases hany

theorem parseUnifiedDiff_linesOrdered {diff : Str} {files : List FileDiff}
    (h : parseUnifiedDiff diff = .ok files) {file : FileDiff} (hf : file ∈ files) :
    LinesOrdered file.path file.lines := by
  obtain ⟨-, parsed, hparsed, -, rfl⟩ := parseUnifiedDiff_eq_ok h
  obtain ⟨⟨file, sawHunk⟩, hmem, rfl⟩ := List.mem_map.mp hf
  obtain ⟨section_, -, hsection⟩ := mem_of_mapM_eq_ok hparsed hmem
  exact parseSection_linesOrdered hsection

end DiffReview
