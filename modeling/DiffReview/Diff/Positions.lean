import DiffReview.Diff.Lines

/-!
# DiffReview — where the lines of a file stand

A declarative reading of the positions that the parser reports, on any accepted text: each
reported line is a line of its section, behind the hunk header that governs it, at the
number that the header and the lines in between give (`positions_sound`).
-/

namespace DiffReview

open Py Raise

/-! ## Positions -/

/-- The line at position `pos` of `body` is `l`: it stands behind its hunk header with only
lines of the hunk in between. -/
structure PlacedAt (path : Str) (body : List Str) (l : NewFileLine) (pos : Nat) : Prop where
  path_eq : l.path = path
  placed : ∃ before header between line after start,
    body = before ++ header :: (between ++ line :: after) ∧
    pos = before.length + 1 + between.length ∧
    isHunkHeader header = true ∧ headerStart header = some start ∧
    l.hunk = before.countP isHunkHeader ∧
    (∀ x ∈ between, isBodyLine x = true ∧ isHunkHeader x = false) ∧ isNewFileLine line = true ∧
    l.line = start + between.countP isNewFileLine ∧
    l.content = rstripNewline (line.drop 1) ∧ l.added = startswith line (lit "+")

/-- `b` comes directly after `a`: in a later hunk, or under the next number of the same one. -/
def NewFileLine.Follows (a b : NewFileLine) : Prop :=
  a.hunk < b.hunk ∨ a.hunk = b.hunk ∧ b.line = a.line + 1

/-- The reported lines stand in text order behind the `+++ ` header of the section, each
where it says, and the lines of one hunk are consecutive. -/
def PositionsSound (file : FileDiff) : Prop :=
  ∃ i, (splitlines file.raw).findIdx? (startswith · newHeader) = some i ∧
    (∃ positions : List Nat, positions.Pairwise (· < ·) ∧
      List.Forall₂ (PlacedAt file.path ((splitlines file.raw).drop (i + 1))) file.lines positions) ∧
    file.lines.IsChain NewFileLine.Follows

theorem PlacedAt.lt_length {path : Str} {body : List Str} {l : NewFileLine} {pos : Nat}
    (h : PlacedAt path body l pos) : pos < body.length := by
  obtain ⟨before, header, between, line, after, start, rfl, rfl, -⟩ := h.placed
  simp only [List.length_append, List.length_cons]
  omega

/-- A place stays where it is when the text goes on. -/
theorem PlacedAt.append {path : Str} {body : List Str} {l : NewFileLine} {pos : Nat}
    (h : PlacedAt path body l pos) (more : List Str) : PlacedAt path (body ++ more) l pos := by
  obtain ⟨before, header, between, line, after, start, rfl, hrest⟩ := h.placed
  refine ⟨h.path_eq, before, header, between, line, after ++ more, start, ?_, hrest⟩
  simp

/-! ## The scan -/

/-- The invariant of the scan behind the lines `pre`: the counter is that of the governing
header, and the last reported line comes directly before the next one. -/
structure ScanPlaced (path : Str) (pre : List Str) (st : HunkScan) : Prop where
  placed : ∃ positions : List Nat, positions.Pairwise (· < ·) ∧
    List.Forall₂ (PlacedAt path pre) st.lines positions
  hunkNumber : st.hunkNumber + 1 = pre.countP isHunkHeader
  current : ∀ n, st.currentNewLine = some n → ∃ before header between start,
    pre = before ++ header :: between ∧ isHunkHeader header = true ∧
    headerStart header = some start ∧ (∀ x ∈ between, isBodyLine x = true ∧ isHunkHeader x = false) ∧
    st.hunkNumber = before.countP isHunkHeader ∧ n = start + between.countP isNewFileLine
  chain : st.lines.IsChain NewFileLine.Follows
  last : ∀ a ∈ st.lines.getLast?, a.hunk ≤ st.hunkNumber ∧
    (a.hunk = st.hunkNumber → ∀ n, st.currentNewLine = some n → n = a.line + 1)
  devNull : path = DiffReview.devNull → st.lines = []

section Scan

variable {path : Str} {pre : List Str} {st : HunkScan} {line : Str}

theorem ScanPlaced.start (path : Str) : ScanPlaced path [] HunkScan.start where
  placed := ⟨[], List.Pairwise.nil, List.Forall₂.nil⟩
  hunkNumber := rfl
  current := nofun
  chain := List.IsChain.nil
  last := nofun
  devNull _ := rfl

theorem ScanPlaced.placed_append (h : ScanPlaced path pre st) (more : List Str) :
    ∃ positions : List Nat, positions.Pairwise (· < ·) ∧ (∀ pos ∈ positions, pos < pre.length) ∧
      List.Forall₂ (PlacedAt path (pre ++ more)) st.lines positions := by
  obtain ⟨positions, hpairwise, hplaced⟩ := h.placed
  refine ⟨positions, hpairwise, fun pos hpos => ?_, hplaced.imp fun _ _ hl => hl.append more⟩
  obtain ⟨i, hi, rfl⟩ := List.getElem_of_mem hpos
  have hall := List.forall₂_iff_get.mp hplaced
  exact (hall.2 i (hall.1 ▸ hi) hi).lt_length

/-- A header opens the next hunk at its start. -/
theorem ScanPlaced.header (h : ScanPlaced path pre st) {start : Nat}
    (hheader : isHunkHeader line = true) (hstart : headerStart line = some start) :
    ScanPlaced path (pre ++ [line]) ⟨some start, st.hunkNumber + 1, true, st.lines⟩ := by
  obtain ⟨positions, hpairwise, -, hplaced⟩ := h.placed_append [line]
  have hnumber := h.hunkNumber
  refine ⟨⟨positions, hpairwise, hplaced⟩, ?_, fun n hn => ?_, h.chain, fun a ha => ?_, h.devNull⟩
  · rw [List.countP_append, List.countP_singleton, if_pos hheader]
    push_cast
    omega
  · cases hn
    exact ⟨pre, line, [], start, rfl, hheader, hstart, nofun, hnumber, rfl⟩
  · have hle := (h.last a ha).1
    simp only
    omega

/-- A line that is no header and reports nothing. -/
theorem ScanPlaced.skip (h : ScanPlaced path pre st) (hheader : isHunkHeader line = false)
    {current : Option Nat} (hcurrent : ∀ n, current = some n → st.currentNewLine = some n ∧
      isBodyLine line = true ∧ isNewFileLine line = false) :
    ScanPlaced path (pre ++ [line]) { st with currentNewLine := current } := by
  obtain ⟨positions, hpairwise, -, hplaced⟩ := h.placed_append [line]
  refine ⟨⟨positions, hpairwise, hplaced⟩, ?_, fun n hn => ?_, h.chain, fun a ha => ?_, h.devNull⟩
  · rw [List.countP_append, List.countP_singleton, hheader]
    exact h.hunkNumber
  · obtain ⟨hn, hbody, hnew⟩ := hcurrent n hn
    obtain ⟨before, header, between, start, rfl, hhead, hstart, hbetween, hnumber, rfl⟩ :=
      h.current n hn
    refine ⟨before, header, between ++ [line], start, by simp, hhead, hstart, ?_, hnumber, ?_⟩
    · exact List.forall_mem_append.mpr ⟨hbetween, List.forall_mem_singleton.mpr ⟨hbody, hheader⟩⟩
    · rw [List.countP_append, List.countP_singleton, hnew]
      rfl
  · obtain ⟨hle, hlast⟩ := h.last a ha
    exact ⟨hle, fun heq n hn => hlast heq n (hcurrent n hn).1⟩

/-- A reported line stands at the end of the lines read so far. -/
theorem ScanPlaced.report (h : ScanPlaced path pre st) (hheader : isHunkHeader line = false) {n : Nat}
    (hn : st.currentNewLine = some n) (hbody : isBodyLine line = true)
    (hnew : isNewFileLine line = true) : ScanPlaced path (pre ++ [line])
      (st.report path n (rstripNewline (line.drop 1)) (startswith line (lit "+"))) := by
  obtain ⟨positions, hpairwise, hbound, hplaced⟩ := h.placed_append [line]
  obtain ⟨before, header, between, start, hpre, hhead, hstart, hbetween, hnumber, hcount⟩ :=
    h.current n hn
  have hcurrent : ∀ m, some (n + 1) = some m → ∃ before header between start,
      pre ++ [line] = before ++ header :: between ∧ isHunkHeader header = true ∧
      headerStart header = some start ∧ (∀ x ∈ between, isBodyLine x = true ∧ isHunkHeader x = false) ∧
      st.hunkNumber = before.countP isHunkHeader ∧ m = start + between.countP isNewFileLine := by
    intro m hm
    cases hm
    refine ⟨before, header, between ++ [line], start, by simp [hpre], hhead, hstart, ?_, hnumber, ?_⟩
    · exact List.forall_mem_append.mpr ⟨hbetween, List.forall_mem_singleton.mpr ⟨hbody, hheader⟩⟩
    · rw [List.countP_append, List.countP_singleton, if_pos hnew]
      omega
  have hunkNumber : st.hunkNumber + 1 = (pre ++ [line]).countP isHunkHeader := by
    rw [List.countP_append, List.countP_singleton, hheader]
    exact h.hunkNumber
  unfold HunkScan.report
  by_cases hpath : path = DiffReview.devNull
  · rw [if_pos hpath]
    -- nothing has been reported, so there is no last line
    refine ⟨⟨positions, hpairwise, hplaced⟩, hunkNumber, hcurrent, h.chain, ?_, h.devNull⟩
    rw [h.devNull hpath]
    exact nofun
  · rw [if_neg hpath]
    refine ⟨⟨positions ++ [pre.length], ?_, ?_⟩, hunkNumber, hcurrent, ?_, fun a ha => ?_,
      fun hnull => absurd hnull hpath⟩
    · refine List.pairwise_append.mpr ⟨hpairwise, List.pairwise_singleton _ _, fun a ha b hb => ?_⟩
      rw [List.mem_singleton.mp hb]
      exact hbound a ha
    · refine List.rel_append hplaced (List.Forall₂.cons ⟨rfl, ?_⟩ List.Forall₂.nil)
      refine ⟨before, header, between, line, [], start, by simp [hpre], ?_, hhead, hstart, hnumber,
        hbetween, hnew, hcount, rfl, rfl⟩
      rw [hpre, List.length_append, List.length_cons]
      omega
    · refine List.isChain_append.mpr ⟨h.chain, List.isChain_singleton _, fun a ha b hb => ?_⟩
      cases hb
      obtain ⟨hle, hlast⟩ := h.last a ha
      rcases lt_or_eq_of_le hle with hlt | heq
      · exact .inl hlt
      · exact .inr ⟨heq, hlast heq n hn⟩
    · rw [List.getLast?_concat] at ha
      cases ha
      refine ⟨le_rfl, fun _ m hm => ?_⟩
      cases hm
      rfl

theorem ScanPlaced.scanLine {st' : HunkScan} (h : ScanPlaced path pre st)
    (hstep : scanLine path st line = .ok st') : ScanPlaced path (pre ++ [line]) st' := by
  rcases scanLine_kinds hstep with ⟨hheader, start, hstart, rfl⟩ | ⟨hheader, hcase⟩
  · exact h.header hheader hstart
  · rcases hcase with rfl | ⟨n, hn, hbody, ⟨hnew, rfl⟩ | ⟨hnew, rfl⟩⟩
    · exact h.skip hheader nofun
    · exact h.skip hheader fun m hm => ⟨hm, hbody, hnew⟩
    · exact h.report hheader hn hbody hnew

end Scan

/-! ## Sections -/

/-- The lines of a section are those of the text it makes. -/
theorem splitlines_of_mem_sections {diff : Str} {starts : List Nat} {lines : List Str}
    (h : lines ∈ sections (splitlines diff) starts) : splitlines lines.flatten = lines := by
  have hdrop : ∀ start, splitlines ((splitlines diff).drop start).flatten
      = (splitlines diff).drop start := splitlines_drop diff
  induction starts with
  | nil => cases h
  | cons start starts ih =>
    cases starts with
    | nil =>
      rw [List.mem_singleton.mp h]
      exact hdrop start
    | cons next starts =>
      rcases List.mem_cons.mp h with rfl | h
      · -- the lines up to `next` are those of a text of their own
        have hlines := splitlines_drop ((splitlines diff).take next).flatten start
        rwa [splitlines_take] at hlines
      · exact ih h

theorem parseSection_positionsSound {lines : List Str} {file : FileDiff} {sawHunk : Bool}
    (hlines : splitlines lines.flatten = lines) (h : parseSection lines = .ok (file, sawHunk)) :
    PositionsSound file := by
  obtain ⟨-, i, st, hi, -, hraw, hst, hst', -⟩ := parseSection_eq_ok h
  have hplaced : ScanPlaced file.path (lines.drop (i + 1)) st :=
    foldlM_invariant (P := ScanPlaced file.path) hst (.start file.path)
      fun _ _ _ _ _ hc hstep => hc.scanLine hstep
  refine ⟨i, ?_, ?_, ?_⟩
  · rw [hraw, hlines]
    exact hi
  · rw [hraw, hlines, hst']
    exact hplaced.placed
  · rw [hst']
    exact hplaced.chain

/-- The positions of every accepted text, well formed or not. -/
theorem positions_sound {diff : Str} {files : List FileDiff} (h : parseUnifiedDiff diff = .ok files)
    {file : FileDiff} (hf : file ∈ files) : PositionsSound file := by
  obtain ⟨-, parsed, hparsed, -, rfl⟩ := parseUnifiedDiff_eq_ok h
  obtain ⟨⟨file, sawHunk⟩, hmem, rfl⟩ := List.mem_map.mp hf
  obtain ⟨lines, hlines, hsection⟩ := mem_of_mapM_eq_ok hparsed hmem
  exact parseSection_positionsSound (splitlines_of_mem_sections hlines) hsection

/-- The same of a text with two hunks, the second one cut off by a line of no kind. -/
theorem positions_sound_sample : ∃ files file,
    parseUnifiedDiff (lit "--- a/x\n+++ b/x\n@@ -1,1 +1,2 @@\n a\n+b\n@@ -9,1 +9,2 @@\n-c\n+d\n\n+e\n")
      = .ok files ∧ file ∈ files ∧ file.lines.map (·.line) = [1, 2, 9] ∧ PositionsSound file := by
  have hsome : (parseUnifiedDiff (lit
      "--- a/x\n+++ b/x\n@@ -1,1 +1,2 @@\n a\n+b\n@@ -9,1 +9,2 @@\n-c\n+d\n\n+e\n")).toOption.map
      (fun files => files.map fun f => f.lines.map (·.line)) = some [[1, 2, 9]] := by decide
  obtain ⟨files, hfiles, hlines⟩ := Option.map_eq_some_iff.mp hsome
  have hok := eq_ok_of_toOption hfiles
  obtain ⟨file, rest, rfl⟩ := List.exists_cons_of_ne_nil (parseUnifiedDiff_ne_nil hok)
  have hmem : file ∈ file :: rest := List.mem_cons_self
  exact ⟨_, file, hok, hmem, (List.cons.inj hlines).1, positions_sound hok hmem⟩

end DiffReview
