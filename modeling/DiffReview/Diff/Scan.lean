import DiffReview.Diff.Lines
import DiffReview.Diff.Render

/-!
# DiffReview — scanning rendered hunks

What the loop of `parse_unified_diff` does on the text of a hunk: its header opens the
hunk at the declared start, and its lines are reported up to the first that looks like a
file header (`foldlM_hunks`).
-/

namespace DiffReview

open Py Raise

/-! ## The header -/

section Header

variable {β : Type} {n : Nat} {rest : Str} {g : List Str} {k : Regex.Pos Chr → Option β} {b : β}

theorem exec_plus_digit (hrest : rest.head?.any isDecimal = false)
    (hk : ∀ prev, k ⟨prev, rest, g⟩ = some b) (prev : Option Chr) :
    (Regex.plus digit).exec k ⟨prev, decimal n ++ rest, g⟩ = some b :=
  Regex.exec_plus_chr (decimal_ne_nil n) (fun _ => isDecimal_of_mem_decimal) hrest hk prev

theorem exec_plus_space (hrest : rest.head?.any isSpace = false)
    (hk : ∀ prev, k ⟨prev, rest, g⟩ = some b) (prev : Option Chr) :
    (Regex.plus space).exec k ⟨prev, lit " " ++ rest, g⟩ = some b := by
  refine Regex.exec_plus_chr (by decide) (fun c hc => ?_) hrest hk prev
  rw [List.mem_singleton.mp hc]
  rfl

theorem exec_optCount (hrest : rest.head?.any isDecimal = false)
    (hk : ∀ prev, k ⟨prev, rest, g⟩ = some b) (prev : Option Chr) :
    optCount.exec k ⟨prev, lit "," ++ (decimal n ++ rest), g⟩ = some b :=
  Regex.exec_opt_of_some (Regex.exec_lit (exec_plus_digit hrest hk) prev)

end Header

/-- `HUNK_RE` reads the new-file start of a rendered header. -/
theorem hunkRe_header (h : Hunk) : hunkRe.matchStart (h.header ++ [lf])
    = some ⟨some (Chr.ofChar '@'), [lf], [decimal h.newStart]⟩ := by
  have htext : h.header ++ [lf] = lit "@@" ++ (lit " " ++ (lit "-" ++ (decimal h.oldStart ++
      (lit "," ++ (decimal h.oldCount ++ (lit " " ++ (lit "+" ++ (decimal h.newStart ++
      (lit "," ++ (decimal h.newCount ++ (lit " " ++ (lit "@@" ++ [lf])))))))))))) := by
    rw [Hunk.header, show lit "@@ -" = lit "@@" ++ (lit " " ++ lit "-") from rfl,
      show lit " +" = lit " " ++ lit "+" from rfl, show lit " @@" = lit " " ++ lit "@@" from rfl]
    simp only [List.append_assoc]
  rw [htext]
  refine Regex.exec_lit (exec_plus_space rfl (Regex.exec_lit (exec_plus_digit rfl ?_))) none
  refine exec_optCount rfl (exec_plus_space rfl (Regex.exec_lit ?_))
  refine Regex.exec_group_plus_chr (decimal_ne_nil _) (fun _ => isDecimal_of_mem_decimal) rfl ?_
  refine exec_optCount rfl (exec_plus_space rfl fun prev => ?_)
  rfl

theorem hunkRe_eq_none {line : Str} (h : line.head? ≠ some (Chr.ofChar '@')) :
    hunkRe.matchStart line = none := Regex.exec_lit_eq_none h none

/-! ## The lines of a hunk -/

variable {path : Str} {st : HunkScan}

theorem BodyLine.hunkRe_eq_none (l : BodyLine) : hunkRe.matchStart (l.text ++ [lf]) = none := by
  have hmarker : ∀ kind : LineKind, some kind.marker ≠ some (Chr.ofChar '@') := by
    intro kind
    cases kind <;> decide
  exact DiffReview.hunkRe_eq_none (hmarker l.kind)

/-- The branches of the scan, in terms of what the line says; `rest` is how it ends. -/
theorem scanBodyLine_marker (kind : LineKind) {content rest : Str}
    (hcontent : rstripNewline (content ++ rest) = content)
    (hplus : startswith (content ++ rest) (lit "++") = startswith content (lit "++"))
    (hminus : startswith (content ++ rest) (lit "--") = startswith content (lit "--")) (n : Nat) :
    scanBodyLine path st n (kind.marker :: (content ++ rest)) =
      if (kind = .added && startswith content (lit "++"))
        || (kind = .removed && startswith content (lit "--")) then { st with currentNewLine := none }
      else if kind = .removed then st
      else st.report path n content (kind = .added) := by
  have hcons : ∀ (c : Chr) (s : String), startswith (c :: (content ++ rest)) (c :: lit s)
      = startswith (content ++ rest) (lit s) := by
    intro c s
    rw [startswith_cons, beq_self_eq_true, Bool.true_and]
  unfold scanBodyLine
  rw [List.drop_succ_cons, List.drop_zero, hcontent]
  cases kind with
  | context => rfl
  | added =>
    rw [← hplus, show startswith (LineKind.added.marker :: (content ++ rest)) (lit "+++")
      = startswith (content ++ rest) (lit "++") from hcons _ "++"]
    cases startswith (content ++ rest) (lit "++") <;> rfl
  | removed =>
    rw [← hminus, show startswith (LineKind.removed.marker :: (content ++ rest)) (lit "---")
      = startswith (content ++ rest) (lit "--") from hcons _ "--"]
    cases startswith (content ++ rest) (lit "--") <;> rfl

theorem scanBodyLine_text (l : BodyLine) (n : Nat) : scanBodyLine path st n (l.text ++ [lf]) =
    if l.likeHeader then { st with currentNewLine := none }
    else if l.kind = .removed then st
    else st.report path n l.content (l.kind = .added) :=
  scanBodyLine_marker l.kind (rstripNewline_append_lf l.noBreak)
    (startswith_append_lf (by decide)) (startswith_append_lf (by decide)) n

theorem scanLine_text (l : BodyLine) {n : Nat} (hn : st.currentNewLine = some n) :
    scanLine path st (l.text ++ [lf]) = .ok (scanBodyLine path st n (l.text ++ [lf])) := by
  rw [scanLine, l.hunkRe_eq_none, hn]

/-- What the parser reports of the lines `body` of a hunk: nothing from the first line that
looks like a file header on. -/
def reportedLines (path : Str) (hunk : Int) (n : Nat) (body : List BodyLine) : List NewFileLine :=
  if path = devNull then [] else newLines path hunk n (body.takeWhile fun l => !l.likeHeader)

/-- After a line that looks like a file header the hunk is skipped. -/
theorem foldlM_skipped (hst : st.currentNewLine = none) (body : List BodyLine) :
    (body.map fun l => l.text ++ [lf]).foldlM (scanLine path) st = .ok st := by
  induction body with
  | nil => rfl
  | cons l body ih =>
    have hline : scanLine path st (l.text ++ [lf]) = .ok st := by
      rw [scanLine, l.hunkRe_eq_none, hst]
    rw [List.map_cons, List.foldlM_cons, hline]
    exact ih

theorem foldlM_body (st : HunkScan) {n : Nat} (hst : st.currentNewLine = some n)
    (body : List BodyLine) :
    ∃ cur, (body.map fun l => l.text ++ [lf]).foldlM (scanLine path) st = .ok { st with
      currentNewLine := cur
      lines := st.lines ++ reportedLines path st.hunkNumber n body } := by
  induction body generalizing st n with
  | nil =>
    refine ⟨some n, ?_⟩
    rw [reportedLines, List.takeWhile_nil, newLines, ite_self, List.append_nil, ← hst]
    rfl
  | cons l body ih =>
    rw [List.map_cons, List.foldlM_cons, scanLine_text l hst, scanBodyLine_text]
    cases hlike : l.likeHeader with
    | true =>
      refine ⟨none, ?_⟩
      rw [reportedLines, List.takeWhile_cons_of_neg (by simp [hlike]), newLines, ite_self,
        List.append_nil, if_pos rfl]
      exact foldlM_skipped rfl body
    | false =>
      rw [if_neg Bool.false_ne_true, reportedLines, List.takeWhile_cons_of_pos (by simp [hlike]),
        newLines]
      split
      · exact ih st hst
      · next hkind =>
        obtain ⟨cur, hcur⟩ := ih (st.report path n l.content (l.kind = .added)) rfl
        refine ⟨cur, hcur.trans ?_⟩
        unfold HunkScan.report reportedLines
        by_cases hpath : path = devNull
        · simp [hpath]
        · simp [hpath]

/-! ## Hunks -/

theorem scanLine_header (h : Hunk) : scanLine path st (h.header ++ [lf])
    = (orRaise .intMaxStrDigits (int (decimal h.newStart))).map fun start => { st with
      currentNewLine := some start, hunkNumber := st.hunkNumber + 1, sawHunk := true } := by
  rw [scanLine, hunkRe_header]
  rfl

/-- The lines of a hunk with their line ends. -/
def Hunk.lines (h : Hunk) : List Str := h.text.map fun l => l ++ [lf]

theorem Hunk.lines_eq (h : Hunk) :
    h.lines = (h.header ++ [lf]) :: h.body.map fun l => l.text ++ [lf] := by
  rw [Hunk.lines, Hunk.text, List.map_cons, List.map_map]
  rfl

theorem foldlM_hunk (st : HunkScan) {h : Hunk} (hsmall : h.newStart < 10 ^ maxStrDigits) :
    ∃ cur, h.lines.foldlM (scanLine path) st = .ok ⟨cur, st.hunkNumber + 1, true,
      st.lines ++ reportedLines path (st.hunkNumber + 1) h.newStart h.body⟩ := by
  rw [h.lines_eq, List.foldlM_cons, scanLine_header, int_decimal hsmall]
  exact foldlM_body _ rfl h.body

/-- A header whose start has too many digits is an error. -/
theorem foldlM_hunk_small {h : Hunk} {st' : HunkScan}
    (hok : h.lines.foldlM (scanLine path) st = .ok st') : h.newStart < 10 ^ maxStrDigits := by
  by_contra hlarge
  rw [h.lines_eq, List.foldlM_cons, scanLine_header, int_decimal_eq_none (not_lt.mp hlarge)] at hok
  cases hok

/-- What the parser reports of some hunks, of which the first is number `hunk`. -/
def hunksReported (path : Str) : Int → List Hunk → List NewFileLine
  | _, [] => []
  | hunk, h :: hunks =>
    reportedLines path hunk h.newStart h.body ++ hunksReported path (hunk + 1) hunks

theorem foldlM_hunks (path : Str) (st : HunkScan) {hunks : List Hunk}
    (hsmall : ∀ h ∈ hunks, h.newStart < 10 ^ maxStrDigits) :
    ∃ cur, (hunks.flatMap Hunk.lines).foldlM (scanLine path) st = .ok ⟨cur,
      st.hunkNumber + hunks.length, st.sawHunk || !hunks.isEmpty,
      st.lines ++ hunksReported path (st.hunkNumber + 1) hunks⟩ := by
  induction hunks generalizing st with
  | nil =>
    refine ⟨st.currentNewLine, ?_⟩
    simp [hunksReported]
    rfl
  | cons h hunks ih =>
    obtain ⟨hh, hhunks⟩ := List.forall_mem_cons.mp hsmall
    obtain ⟨cur, hcur⟩ := foldlM_hunk st hh
    obtain ⟨cur', hcur'⟩ := ih ⟨cur, st.hunkNumber + 1, true,
      st.lines ++ reportedLines path (st.hunkNumber + 1) h.newStart h.body⟩ hhunks
    refine ⟨cur', ?_⟩
    rw [List.flatMap_cons, List.foldlM_append, hcur]
    refine hcur'.trans ?_
    simp only [hunksReported, List.length_cons, List.append_assoc, List.isEmpty_cons, Bool.not_false,
      Bool.or_true, Bool.true_or, Nat.cast_add, Nat.cast_one, add_assoc, add_comm (1 : Int)]

theorem foldlM_hunks_small {hunks : List Hunk} {st' : HunkScan}
    (hok : (hunks.flatMap Hunk.lines).foldlM (scanLine path) st = .ok st') :
    ∀ h ∈ hunks, h.newStart < 10 ^ maxStrDigits := by
  induction hunks generalizing st with
  | nil => simp
  | cons h hunks ih =>
    rw [List.flatMap_cons, List.foldlM_append] at hok
    obtain ⟨st₁, hst₁, hok⟩ := bind_eq_ok.mp hok
    exact List.forall_mem_cons.mpr ⟨foldlM_hunk_small hst₁, ih hok⟩

end DiffReview
