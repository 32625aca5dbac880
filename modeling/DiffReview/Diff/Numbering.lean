import DiffReview.Diff.Lines

/-!
# DiffReview — where the line numbers come from

The number of a parsed line is the start its hunk header declares plus the number of lines
of the hunk before it. So a line is numbered 0 only when it is the first of a hunk whose
header declares 0.
-/

namespace DiffReview

open Py Raise

/-- The starts declared by the hunk headers of a section. -/
def declaredStarts (lines : List Str) : List Nat :=
  match lines.findIdx? fun line => startswith line newHeader with
  | none => []
  | some i => (lines.drop (i + 1)).filterMap headerStart

/-- The lines of one hunk. -/
def hunkLines (lines : List NewFileLine) (hunk : Int) : List NewFileLine :=
  lines.filter fun l => l.hunk = hunk

theorem hunkLines_append (lines : List NewFileLine) (l : NewFileLine) (hunk : Int) :
    hunkLines (lines ++ [l]) hunk
      = if l.hunk = hunk then hunkLines lines hunk ++ [l] else hunkLines lines hunk := by
  unfold hunkLines
  rw [List.filter_append]
  split <;> simp [*]

/-- The invariant of the scan: the lines of each hunk are numbered from its start, and the
next line continues the last hunk. -/
structure ScanNumbered (path : Str) (starts : List Nat) (st : HunkScan) : Prop where
  hunkNumber : st.hunkNumber = (starts.length : Int) - 1
  hunk_mem : ∀ l ∈ st.lines, ∃ i : Nat, i < starts.length ∧ l.hunk = i
  numbered : ∀ (i start : Nat), starts[i]? = some start → (hunkLines st.lines i).map (·.line)
    = List.range' start (hunkLines st.lines i).length
  current : ∀ n, st.currentNewLine = some n → ∃ start, starts.getLast? = some start ∧
    (path ≠ devNull → n = start + (hunkLines st.lines st.hunkNumber).length)
  devNull : path = devNull → st.lines = []

theorem ScanNumbered.start (path : Str) : ScanNumbered path [] HunkScan.start where
  hunkNumber := rfl
  hunk_mem := by simp [HunkScan.start]
  numbered := by simp
  current := by simp [HunkScan.start]
  devNull _ := rfl

theorem ScanNumbered.header {path : Str} {starts : List Nat} {st : HunkScan}
    (h : ScanNumbered path starts st) (n : Nat) :
    ScanNumbered path (starts ++ [n]) ⟨some n, st.hunkNumber + 1, true, st.lines⟩ := by
  -- no line of the new hunk has been seen yet
  have hnil : hunkLines st.lines (starts.length : Int) = [] := by
    refine List.filter_eq_nil_iff.mpr fun l hl => ?_
    obtain ⟨i, hi, hhunk⟩ := h.hunk_mem l hl
    simp only [hhunk, decide_eq_true_eq]
    omega
  have hnumber : st.hunkNumber + 1 = (starts.length : Int) := by
    have := h.hunkNumber
    omega
  refine ⟨?_, fun l hl => ?_, fun i start hi => ?_, fun m hm => ?_, h.devNull⟩
  · simp [hnumber]
  · obtain ⟨i, hi, hhunk⟩ := h.hunk_mem l hl
    exact ⟨i, by simp; omega, hhunk⟩
  · rcases Nat.lt_or_ge i starts.length with hlt | hge
    · rw [List.getElem?_append_left hlt] at hi
      exact h.numbered i start hi
    · have hlen : i < (starts ++ [n]).length := (List.getElem?_eq_some_iff.mp hi).1
      obtain rfl : i = starts.length := by
        simp at hlen
        omega
      simp [hnil]
  · cases hm
    refine ⟨n, by simp, fun _ => ?_⟩
    rw [hnumber, hnil]
    rfl

theorem ScanNumbered.report {path : Str} {starts : List Nat} {st : HunkScan}
    (h : ScanNumbered path starts st) {n : Nat} (hn : st.currentNewLine = some n) (content : Str)
    (added : Bool) : ScanNumbered path starts (st.report path n content added) := by
  obtain ⟨start, hlast, hstart⟩ := h.current n hn
  unfold HunkScan.report
  by_cases hpath : path = DiffReview.devNull
  · simp only [hpath, if_true]
    exact ⟨h.hunkNumber, h.hunk_mem, h.numbered, fun m _ => ⟨start, hlast, absurd rfl⟩,
      fun _ => h.devNull hpath⟩
  · simp only [hpath, if_false]
    have hlen : 0 < starts.length := by
      cases starts with
      | nil => cases hlast
      | cons => simp
    have hhunk : st.hunkNumber = ((starts.length - 1 : Nat) : Int) := by
      have := h.hunkNumber
      omega
    refine ⟨h.hunkNumber, fun l hl => ?_, fun i s hi => ?_, fun m hm => ?_, fun hp => absurd hp hpath⟩
    · rcases List.mem_append.mp hl with hl | hl
      · exact h.hunk_mem l hl
      · rw [List.mem_singleton.mp hl]
        exact ⟨starts.length - 1, by omega, hhunk⟩
    · rw [hunkLines_append]
      split
      · next heq =>
        -- the reported line is in the last hunk, whose start is the last one
        obtain rfl : i = starts.length - 1 := by
          simp only [hhunk] at heq
          omega
        have hs : s = start := by
          rw [List.getLast?_eq_getElem?, hi] at hlast
          exact Option.some.inj hlast
        rw [List.map_append, h.numbered _ _ hi, List.length_append, List.length_singleton,
          List.range'_1_concat, List.map_singleton, hs, hstart hpath, hhunk]
      · exact h.numbered i s hi
    · cases hm
      refine ⟨start, hlast, fun _ => ?_⟩
      rw [hunkLines_append, if_pos rfl, List.length_append, List.length_singleton, hstart hpath,
        Nat.add_assoc]

theorem ScanNumbered.scanLine {path : Str} {starts : List Nat} {st st' : HunkScan} {line : Str}
    (h : ScanNumbered path starts st) (hstep : scanLine path st line = .ok st') :
    ScanNumbered path (starts ++ (headerStart line).toList) st' := by
  rcases scanLine_kinds hstep with ⟨-, n, hstart, rfl⟩ | ⟨hnot, hcase⟩
  · rw [hstart]
    exact h.header n
  · rw [headerStart_of_not_header hnot, Option.toList_none, List.append_nil]
    rcases hcase with rfl | ⟨n, hn, -, ⟨-, rfl⟩ | ⟨-, rfl⟩⟩
    · exact ⟨h.hunkNumber, h.hunk_mem, h.numbered, by simp, h.devNull⟩
    · exact h
    · exact h.report hn _ _

theorem parseSection_numbered {lines : List Str} {file : FileDiff} {sawHunk : Bool}
    (h : parseSection lines = .ok (file, sawHunk)) :
    ∃ st, file.lines = st.lines ∧ ScanNumbered file.path (declaredStarts lines) st := by
  obtain ⟨-, i, st, hi, -, -, hst, hlines, -⟩ := parseSection_eq_ok h
  refine ⟨st, hlines, ?_⟩
  rw [declaredStarts, hi]
  refine foldlM_invariant
    (P := fun pre st => ScanNumbered file.path (pre.filterMap headerStart) st) hst (.start _) ?_
  intro pre line c c' _ hc hstep
  rw [List.filterMap_append, show [line].filterMap headerStart = (headerStart line).toList from by
    cases hs : headerStart line <;> simp [hs]]
  exact hc.scanLine hstep

/-- A parsed line is numbered by its place in its hunk, from the start the header declares. -/
theorem parseSection_line_eq {lines : List Str} {file : FileDiff} {sawHunk : Bool}
    (h : parseSection lines = .ok (file, sawHunk)) {l : NewFileLine} (hl : l ∈ file.lines) :
    ∃ start, (declaredStarts lines)[l.hunk.toNat]? = some start ∧
      l.line = start + (hunkLines file.lines l.hunk).idxOf l := by
  obtain ⟨st, hlines, hnum⟩ := parseSection_numbered h
  rw [hlines] at hl ⊢
  obtain ⟨i, hi, hhunk⟩ := hnum.hunk_mem l hl
  have hstart : (declaredStarts lines)[i]? = some (declaredStarts lines)[i] :=
    List.getElem?_eq_getElem hi
  refine ⟨(declaredStarts lines)[i], by rw [hhunk]; exact hstart, ?_⟩
  have hmem : l ∈ hunkLines st.lines l.hunk := List.mem_filter.mpr ⟨hl, by simp⟩
  have hidx := List.idxOf_lt_length_of_mem hmem
  have hline := congrArg (fun ns => ns[(hunkLines st.lines l.hunk).idxOf l]?)
    (hnum.numbered i _ hstart)
  rw [← hhunk] at hline
  simp only [List.getElem?_map, List.getElem?_eq_getElem hidx, List.getElem_idxOf, Option.map_some,
    List.getElem?_range' hidx] at hline
  simpa using hline

end DiffReview
