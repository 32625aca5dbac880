import DiffReview.Diff.Changes

/-!
# DiffReview — stray line boundaries

The two texts of a diff are the same list of entries, and the pieces of one entry replace its
line. Where none of them is a file header, both texts are cut into sections at the same entries
(`cut_pieces`).
-/

namespace DiffReview

open Py Raise

/-! ## Entries -/

/-- A line that stands in both texts, or a line of a hunk. -/
inductive Entry where
  | fixed (line : Str)
  | body (x : ChangedLine)

namespace Entry

def line : Entry → Str
  | .fixed l => l ++ [lf]
  | .body x => x.text

def changedLine : Entry → Str
  | .fixed l => l ++ [lf]
  | .body x => x.changedText

def pieces : Entry → List Str
  | .fixed l => [l ++ [lf]]
  | .body x => x.pieces

/-- What a report may show of it. -/
def newFileLines : Entry → List ChangedLine
  | .fixed _ => []
  | .body x => [x].filter fun x => x.kind ≠ .removed

end Entry

def PatchHunk.entries (h : PatchHunk) : List Entry := .fixed h.header :: h.body.map .body

def PatchFile.entries (f : PatchFile) : List Entry :=
  f.head.map .fixed ++ f.hunks.flatMap PatchHunk.entries

theorem newFileLines_eq (files : List PatchFile) :
    newFileLines files = (files.flatMap PatchFile.entries).flatMap Entry.newFileLines := by
  rw [newFileLines, List.flatMap_assoc]
  refine List.flatMap_congr fun f _ => ?_
  have hhead : (f.head.map Entry.fixed).flatMap Entry.newFileLines = [] := by
    rw [List.flatMap_map]
    exact List.flatMap_eq_nil_iff.mpr fun l _ => rfl
  rw [PatchFile.entries, List.flatMap_append, hhead, List.nil_append, List.flatMap_assoc]
  refine List.flatMap_congr fun h _ => ?_
  rw [PatchHunk.entries, List.flatMap_cons, List.flatMap_map]
  show _ = h.body.flatMap fun x => [x].filter fun x => x.kind ≠ .removed
  rw [← List.filter_flatMap, List.flatMap_singleton']

/-- A text of the diff, entry by entry. -/
theorem patch_eq {line : ChangedLine → Str} {rendered : Entry → Str}
    (hfixed : ∀ l, rendered (.fixed l) = l ++ [lf]) (hbody : ∀ x, rendered (.body x) = line x)
    (files : List PatchFile) : files.flatMap (PatchFile.text line)
      = (files.flatMap PatchFile.entries).map rendered := by
  rw [List.map_flatMap]
  refine List.flatMap_congr fun f _ => ?_
  rw [PatchFile.text, PatchFile.entries, List.map_append, List.map_map, List.map_flatMap]
  congr 1
  · exact List.map_congr_left fun l _ => (hfixed l).symm
  · refine List.flatMap_congr fun h _ => ?_
    rw [PatchHunk.text, PatchHunk.entries, List.map_cons, List.map_map, hfixed]
    exact congrArg (_ :: ·) (List.map_congr_left fun x _ => (hbody x).symm)

/-- A line that ends the hunk it stands in. -/
def EndsHunk (line : Str) : Prop :=
  ∀ path st, scanLine path st line = .ok { st with currentNewLine := none }

/-- Entries over which the two scans stay together, from how they stand before them. -/
inductive Aligned : Reading → List Entry → Prop
  | nil {r : Reading} : Aligned r []
  | head {r : Reading} {l : Str} {es : List Entry} (hno : NoBreak l) (hends : EndsHunk (l ++ [lf]))
      (h : Aligned .ended es) : Aligned r (.fixed l :: es)
  | header {r : Reading} {l : Str} {es : List Entry} (hno : NoBreak l)
      (hheader : (hunkRe.matchStart (l ++ [lf])).isSome = true) (h : Aligned .inStep es) :
      Aligned r (.fixed l :: es)
  | body {r r' : Reading} {x : ChangedLine} {es : List Entry} (hno : NoBreak x.content)
      (hx : x.Leads r r') (h : Aligned r' es) : Aligned r (.body x :: es)

theorem Aligned.left {r : Reading} {es es' : List Entry} (h : Aligned r (es ++ es')) :
    Aligned r es := by
  induction es generalizing r with
  | nil => exact .nil
  | cons e es ih =>
    cases h with
    | head hno hends h => exact .head hno hends (ih h)
    | header hno hheader h => exact .header hno hheader (ih h)
    | body hno hx h => exact .body hno hx (ih h)

theorem Aligned.right {r : Reading} {es es' : List Entry} (h : Aligned r (es ++ es')) :
    ∃ r', Aligned r' es' := by
  induction es generalizing r with
  | nil => exact ⟨r, h⟩
  | cons e es ih =>
    cases h with
    | head hno hends h => exact ih h
    | header hno hheader h => exact ih h
    | body hno hx h => exact ih h

theorem Aligned.of_infix {r : Reading} {es b : List Entry} (h : Aligned r es) (hb : b <:+: es) :
    ∃ r', Aligned r' b := by
  obtain ⟨before, rest, rfl⟩ := hb
  exact h.left.right

/-! ## The lines of both texts -/

section Lines

theorem LineKind.marker_noBreak (kind : LineKind) : isLineBreak kind.marker = false := by
  cases kind <;> decide

theorem splitlines_ended {s t : Str} (hno : NoBreak s) (ht : splitlines t = [t]) :
    splitlines (s ++ t) = [s ++ t] := by
  induction s with
  | nil => exact ht
  | cons c s ih =>
    obtain ⟨hc, hrest⟩ := List.forall_mem_cons.mp hno
    have hnot : ¬(isLineBreak c = true ∧ (c = cr → (s ++ t).head? ≠ some lf)) := by simp [hc]
    rw [List.cons_append, splitlines_cons_join hnot, ih hrest]
    rfl

theorem splitlines_break {c : Chr} (hc : isLineBreak c = true) : splitlines [c] = [[c]] :=
  splitlines_cons_break hc fun _ => by simp

namespace ChangedLine

variable {x : ChangedLine}

theorem lineEnd_cases (x : ChangedLine) : x.lineEnd = [lf] ∨ x.lineEnd = [cr, lf] := by
  unfold lineEnd
  split
  · exact .inr rfl
  · exact .inl rfl

theorem splitlines_lineEnd (x : ChangedLine) : splitlines x.lineEnd = [x.lineEnd] := by
  rcases x.lineEnd_cases with h | h <;> rw [h] <;> decide

theorem getLast?_lineEnd (s : Str) : (s ++ x.lineEnd).getLast? = some lf := by
  rcases x.lineEnd_cases with h | h <;> rw [h]
  · exact List.getLast?_concat
  · rw [show [cr, lf] = [cr] ++ [lf] from rfl, ← List.append_assoc]
    exact List.getLast?_concat

/-- The end of a line is no part of a prefix without its characters. -/
theorem startswith_lineEnd {s p : Str} (hlf : lf ∉ p) (hcr : cr ∉ p) :
    startswith (s ++ x.lineEnd) p = startswith s p := by
  rcases x.lineEnd_cases with h | h <;> rw [h]
  · exact startswith_append_lf hlf
  · rw [show [cr, lf] = [cr] ++ [lf] from rfl, ← List.append_assoc, startswith_append_lf hlf,
      startswith_concat hcr]

/-- Taking the line's end off a content that does not end like it. -/
theorem rstripNewline_lineEnd {s : Str} (h : ∀ c ∈ s.getLast?, c ≠ cr ∧ c ≠ lf) :
    rstripNewline (s ++ x.lineEnd) = s := by
  have hs : rstripNewline s = s := by
    refine List.rdropWhile_eq_self_iff.mpr fun hne hlast => ?_
    obtain ⟨hcr, hlf⟩ := h _ (List.getLast?_eq_getLast_of_ne_nil hne)
    rcases Bool.or_eq_true_iff.mp hlast with hlast | hlast
    · exact hcr (eq_of_beq hlast)
    · exact hlf (eq_of_beq hlast)
  have hdrop : ∀ t : Str, rstripNewline (t ++ [lf]) = rstripNewline t := fun t =>
    List.rdropWhile_concat_pos _ _ _ (by decide)
  rcases x.lineEnd_cases with hend | hend <;> rw [hend]
  · rw [hdrop, hs]
  · rw [show [cr, lf] = [cr] ++ [lf] from rfl, ← List.append_assoc, hdrop]
    exact (List.rdropWhile_concat_pos _ _ _ (by decide)).trans hs

theorem splitlines_text (hno : NoBreak x.content) : splitlines x.text = [x.text] := by
  have hline : NoBreak (x.kind.marker :: x.content) :=
    List.forall_mem_cons.mpr ⟨LineKind.marker_noBreak _, hno⟩
  exact splitlines_ended hline x.splitlines_lineEnd

end ChangedLine

/-- Every line of a text is ended, so its lines are those of its entries. -/
theorem splitlines_rendered {rendered : Entry → Str}
    (hfixed : ∀ l, rendered (.fixed l) = l ++ [lf])
    (hbody : ∀ x, (rendered (.body x)).getLast? = some lf) (es : List Entry) :
    splitlines (es.map rendered).flatten = es.flatMap fun e => splitlines (rendered e) := by
  have hlast : ∀ t ∈ es.map rendered, t.getLast? = some lf := by
    intro t ht
    obtain ⟨e, -, rfl⟩ := List.mem_map.mp ht
    cases e with
    | fixed l => rw [hfixed, List.getLast?_concat]
    | body x => exact hbody x
  rw [splitlines_flatMap_lf hlast, List.flatMap_map]

theorem splitlines_fixed {l : Str} (hno : NoBreak l) : splitlines (l ++ [lf]) = [l ++ [lf]] :=
  splitlines_ended hno (splitlines_break (by decide))

theorem Aligned.noBreak {r : Reading} {es : List Entry} (h : Aligned r es) :
    (∀ l, .fixed l ∈ es → NoBreak l) ∧ ∀ x, .body x ∈ es → NoBreak x.content := by
  induction h with
  | nil => exact ⟨by simp, by simp⟩
  | head hno hends h ih => simp_all
  | header hno hheader h ih => simp_all
  | body hno hx h ih => simp_all

theorem Aligned.splitlines_line {r : Reading} {es : List Entry} (h : Aligned r es) :
    splitlines (es.map Entry.line).flatten = es.map Entry.line := by
  have hlast : ∀ x, (Entry.line (.body x)).getLast? = some lf := fun x =>
    x.getLast?_lineEnd (x.kind.marker :: x.content)
  rw [splitlines_rendered (fun l => rfl) hlast, List.map_eq_flatMap]
  refine List.flatMap_congr ?_
  rintro (l | x) he
  · exact splitlines_fixed (h.noBreak.1 l he)
  · exact ChangedLine.splitlines_text (h.noBreak.2 x he)

theorem Aligned.splitlines_changedLine {r : Reading} {es : List Entry} (h : Aligned r es) :
    splitlines (es.map Entry.changedLine).flatten = es.flatMap Entry.pieces := by
  have hlast : ∀ x, (Entry.changedLine (.body x)).getLast? = some lf := fun x =>
    x.getLast?_lineEnd (x.kind.marker :: x.changed)
  rw [splitlines_rendered (fun l => rfl) hlast]
  refine List.flatMap_congr ?_
  rintro (l | x) he
  · exact splitlines_fixed (h.noBreak.1 l he)
  · rfl

end Lines

/-! ## Lines that end a hunk -/

section EndsHunk

variable {line : Str}

theorem hunkRe_eq_none_of_startswith {c : Chr} {p : Str} (h : startswith line (c :: p) = true)
    (hc : Chr.ofChar '@' ≠ c) : hunkRe.matchStart line = none := by
  refine hunkRe_eq_none fun hat => ?_
  have hstart : startswith line [Chr.ofChar '@'] = true := by
    rw [startswith_singleton, hat, beq_self_eq_true]
  rw [startswith_other h hc] at hstart
  cases hstart

theorem endsHunk_of_noBranch (hre : hunkRe.matchStart line = none)
    (hmarker : startswith line noNewlineMarker = false)
    (hspace : startswith line (lit " ") = false)
    (hplus : (startswith line (lit "+") && !startswith line (lit "+++")) = false)
    (hminus : (startswith line (lit "-") && !startswith line (lit "---")) = false) :
    EndsHunk line := by
  intro path st
  rw [scanLine, hre]
  cases hn : st.currentNewLine with
  | none =>
    show Except.ok st = _
    rw [← hn]
  | some n => simp only [scanBodyLine, hmarker, hspace, hplus, hminus, Bool.false_eq_true, if_false]

theorem endsHunk_of_isStray (h : isStray line = true) : EndsHunk line := by
  simp only [isStray, isQuiet, Bool.and_eq_true, Bool.not_eq_true'] at h
  obtain ⟨⟨⟨⟨⟨hre, -⟩, hmarker⟩, hspace⟩, hplus⟩, hminus⟩ := h
  refine endsHunk_of_noBranch (Option.isNone_iff_eq_none.mp hre) hmarker hspace ?_ ?_
  · rw [← Bool.not_eq_true', Bool.not_and, Bool.not_not]
    exact hplus
  · rw [← Bool.not_eq_true', Bool.not_and, Bool.not_not]
    exact hminus

theorem endsHunk_of_letter {c : Chr} {s : Str} (hc : isLetter c = true) : EndsHunk (c :: s) := by
  have hne : ∀ d, isLetter d = false → d ≠ c := by
    rintro d hd rfl
    rw [hc] at hd
    cases hd
  have hfirst : startswith (c :: s) [c] = true := startswith_append [c] s
  have hother : ∀ d p, isLetter d = false → startswith (c :: s) (d :: p) = false := fun d p hd =>
    startswith_other hfirst (hne d hd)
  refine endsHunk_of_noBranch (hunkRe_eq_none_of_startswith hfirst (hne _ (by decide)))
    (hother _ _ (by decide)) (hother _ _ (by decide)) ?_ ?_
  · rw [show startswith (c :: s) (lit "+") = false from hother _ _ (by decide), Bool.false_and]
  · rw [show startswith (c :: s) (lit "-") = false from hother _ _ (by decide), Bool.false_and]

theorem endsHunk_of_likeHeader (h : startswith line (lit "+++") = true ∨
    startswith line (lit "---") = true) : EndsHunk line := by
  rcases h with h | h
  · have hother : ∀ d p, d ≠ Chr.ofChar '+' → startswith line (d :: p) = false := fun d p hd =>
      startswith_other h hd
    refine endsHunk_of_noBranch (hunkRe_eq_none_of_startswith h (by decide))
      (hother _ _ (by decide)) (hother _ _ (by decide)) ?_ ?_
    · rw [h, Bool.not_true, Bool.and_false]
    · rw [show startswith line (lit "-") = false from hother _ _ (by decide), Bool.false_and]
  · have hother : ∀ d p, d ≠ Chr.ofChar '-' → startswith line (d :: p) = false := fun d p hd =>
      startswith_other h hd
    refine endsHunk_of_noBranch (hunkRe_eq_none_of_startswith h (by decide))
      (hother _ _ (by decide)) (hother _ _ (by decide)) ?_ ?_
    · rw [show startswith line (lit "+") = false from hother _ _ (by decide), Bool.false_and]
    · rw [h, Bool.not_true, Bool.and_false]

end EndsHunk

/-! ## A harmless change is aligned -/

theorem aligned_body {r : Reading} {body : List ChangedLine} {es : List Entry}
    (hno : ∀ x ∈ body, NoBreak x.content) (hbody : HarmlessBody r body)
    (h : ∀ r, Aligned r es) : Aligned r (body.map .body ++ es) := by
  induction hbody with
  | nil => exact h _
  | cons hx hrest ih =>
    obtain ⟨hnoX, hnoRest⟩ := List.forall_mem_cons.mp hno
    exact .body hnoX hx (ih hnoRest)

theorem aligned_hunks {hunks : List PatchHunk} {es : List Entry}
    (hhunks : ∀ h ∈ hunks, NoBreak h.header ∧ (∀ x ∈ h.body, NoBreak x.content) ∧
      HarmlessBody .inStep h.body)
    (h : ∀ r, Aligned r es) (r : Reading) : Aligned r (hunks.flatMap PatchHunk.entries ++ es) := by
  induction hunks generalizing r with
  | nil => exact h r
  | cons hunk hunks ih =>
    obtain ⟨⟨hheader, hno, hbody⟩, hrest⟩ := List.forall_mem_cons.mp hhunks
    rw [List.flatMap_cons, List.append_assoc]
    exact .header hheader hunk.isHeader (aligned_body hno hbody (ih hrest))

theorem aligned_fixed {lines : List Str} {es : List Entry}
    (hlines : ∀ l ∈ lines, NoBreak l ∧ EndsHunk (l ++ [lf])) (h : ∀ r, Aligned r es) (r : Reading) :
    Aligned r (lines.map .fixed ++ es) := by
  induction lines generalizing r with
  | nil => exact h r
  | cons l lines ih =>
    obtain ⟨⟨hno, hends⟩, hrest⟩ := List.forall_mem_cons.mp hlines
    exact .head hno hends (ih hrest .ended)

theorem PatchFile.endsHunk_head (f : PatchFile) : ∀ l ∈ f.head, EndsHunk (l ++ [lf]) := by
  intro l hl
  rcases List.mem_append.mp hl with hl | hl
  · obtain ⟨c, hc, hletter⟩ := f.preamble_letter l hl
    obtain ⟨s, rfl⟩ : ∃ s, l = c :: s := ⟨l.tail, (List.cons_head?_tail hc).symm⟩
    exact endsHunk_of_letter hletter
  · rcases List.mem_pair.mp hl with rfl | rfl
    · exact endsHunk_of_likeHeader (.inr rfl)
    · exact endsHunk_of_likeHeader (.inl rfl)

theorem aligned_files {files : List PatchFile} (h : HarmlessChange files) (r : Reading) :
    Aligned r (files.flatMap PatchFile.entries) := by
  induction files generalizing r with
  | nil => exact .nil
  | cons f files ih =>
    obtain ⟨⟨hhead, hhunks⟩, hfiles⟩ := List.forall_mem_cons.mp h
    have hlines : ∀ l ∈ f.head, NoBreak l ∧ EndsHunk (l ++ [lf]) := fun l hl =>
      ⟨hhead l hl, f.endsHunk_head l hl⟩
    rw [List.flatMap_cons, PatchFile.entries, List.append_assoc]
    exact aligned_fixed hlines (aligned_hunks hhunks (ih hfiles)) r

/-! ## The pieces of an entry -/

/-- The line of the original stands alone in its place, or neither it nor any piece is a file
header. -/
def Entry.Shaped (e : Entry) : Prop :=
  e.pieces = [e.line] ∨ isFileHeader e.line = false ∧ e.pieces ≠ [] ∧
    ∀ p ∈ e.pieces, isFileHeader p = false

theorem startswith_of_not_fileHeader {line : Str} (h : isFileHeader line = false) :
    startswith line gitHeader = false ∧ startswith line oldHeader = false ∧
      startswith line newHeader = false := by
  simp only [isFileHeader, Bool.or_eq_false_iff] at h
  exact ⟨h.1.1, h.1.2, h.2⟩

theorem not_fileHeader {line : Str} (hgit : startswith line gitHeader = false)
    (hold : startswith line oldHeader = false) (hnew : startswith line newHeader = false) :
    isFileHeader line = false := by
  rw [isFileHeader, hgit, hold, hnew]
  rfl

namespace ChangedLine

section Pieces

variable {x : ChangedLine} (hno : NoBreak x.content)
include hno

theorem pieces_of_unchanged (h : x.changed = x.content) : x.pieces = [x.text] := by
  rw [pieces, changedText, h]
  exact splitlines_text hno

variable {s : Str} {c d : Chr} (hcontent : x.content = s ++ [c]) (hchanged : x.changed = s ++ [d])
  (hd : isLineBreak d = true)
include hcontent hchanged hd

theorem last_ne_lf : d ≠ lf := by
  have hc : isLineBreak c = false := hno c (by simp [hcontent])
  have hmem : (c, d) ∈ x.content.zip x.changed := by
    rw [hcontent, hchanged, List.zip_append rfl]
    simp
  rcases (List.forall₂_iff_zip.mp x.replaced).2 hmem with rfl | ⟨-, -, hlf⟩
  · rw [hc] at hd
    cases hd
  · exact hlf

/-- A line that is cut at its end leaves an empty line. -/
theorem pieces_of_last (hcr : d ≠ cr) :
    x.pieces = [x.kind.marker :: (s ++ [d]), x.lineEnd] := by
  rw [hcontent] at hno
  have hnoS : NoBreak (x.kind.marker :: s) := List.forall_mem_cons.mpr
    ⟨LineKind.marker_noBreak _, fun e he => hno e (List.mem_append_left _ he)⟩
  have hcut : splitlines ((x.kind.marker :: s ++ [d]) ++ x.lineEnd)
      = splitlines (x.kind.marker :: s ++ [d]) ++ splitlines x.lineEnd := by
    refine splitlines_append fun e he => ?_
    rw [List.getLast?_concat] at he
    cases he
    exact ⟨hd, fun h => absurd h hcr⟩
  rw [pieces, changedText, hchanged, ← List.cons_append, ← List.cons_append, hcut,
    splitlines_ended hnoS (splitlines_break hd), x.splitlines_lineEnd]
  rfl

end Pieces

theorem pieces_ne_nil (x : ChangedLine) : x.pieces ≠ [] := splitlines_ne_nil (List.cons_ne_nil _ _)

/-- A line of the original that is a file header looks like one. -/
theorem isFileHeader_text {x : ChangedLine} (h : x.likeHeader = false) :
    isFileHeader x.text = false := by
  have hplus : startswith (x.content ++ x.lineEnd) (lit "++") = startswith x.content (lit "++") :=
    startswith_lineEnd (by decide) (by decide)
  have hminus : startswith (x.content ++ x.lineEnd) (lit "--") = startswith x.content (lit "--") :=
    startswith_lineEnd (by decide) (by decide)
  unfold likeHeader at h
  unfold text
  cases hkind : x.kind with
  | context =>
    refine not_fileHeader ?_ ?_ ?_ <;> exact startswith_cons_ne (by decide)
  | added =>
    refine not_fileHeader (startswith_cons_ne (by decide)) (startswith_cons_ne (by decide)) ?_
    rw [← Bool.not_eq_true]
    intro hstart
    have hshort : startswith (x.content ++ x.lineEnd) (lit "++") = true :=
      (Bool.and_eq_true_iff.mp (startswith_cons _ _ _ _ ▸
        startswith_of_append (q := lit " ") (p := lit "+++") hstart)).2
    rw [hplus] at hshort
    simp [hkind, hshort] at h
  | removed =>
    refine not_fileHeader (startswith_cons_ne (by decide)) ?_ (startswith_cons_ne (by decide))
    rw [← Bool.not_eq_true]
    intro hstart
    have hshort : startswith (x.content ++ x.lineEnd) (lit "--") = true :=
      (Bool.and_eq_true_iff.mp (startswith_cons _ _ _ _ ▸
        startswith_of_append (q := lit " ") (p := lit "---") hstart)).2
    rw [hminus] at hshort
    simp [hkind, hshort] at h

/-- What the first piece of a line starts with that is cut at its end, the line starts with. -/
theorem startswith_firstPiece {x : ChangedLine} {header s : Str} {c d : Chr}
    (hcontent : x.content = s ++ [c]) (hd : isLineBreak d = true)
    (hheader : (header.all fun e => !isLineBreak e) = true)
    (h : startswith (x.kind.marker :: (s ++ [d])) header = true) :
    startswith x.text header = true := by
  have hmem : d ∉ header := by
    intro hmem
    rw [noBreak_of_all hheader d hmem] at hd
    cases hd
  rw [← List.cons_append, startswith_concat hmem] at h
  have htext : x.text = x.kind.marker :: s ++ (c :: x.lineEnd) := by simp [text, hcontent]
  rw [htext]
  exact List.isPrefixOf_iff_prefix.mpr
    ((List.isPrefixOf_iff_prefix.mp h).trans (List.prefix_append _ _))

theorem isFileHeader_firstPiece {x : ChangedLine} {s : Str} {c d : Chr}
    (hlike : x.likeHeader = false) (hcontent : x.content = s ++ [c])
    (hd : isLineBreak d = true) : isFileHeader (x.kind.marker :: (s ++ [d])) = false := by
  rw [← Bool.not_eq_true]
  intro hheader
  have hline := isFileHeader_text hlike
  rw [← Bool.not_eq_true] at hline
  refine hline ?_
  simp only [isFileHeader, Bool.or_eq_true] at hheader ⊢
  rcases hheader with (hgit | hold) | hnew
  · exact .inl (.inl (startswith_firstPiece hcontent hd (by decide) hgit))
  · exact .inl (.inr (startswith_firstPiece hcontent hd (by decide) hold))
  · exact .inr (startswith_firstPiece hcontent hd (by decide) hnew)

end ChangedLine

theorem not_fileHeader_of_isQuiet {p : Str} (h : isQuiet p = true) : isFileHeader p = false := by
  rw [isQuiet, Bool.and_eq_true, Bool.not_eq_true'] at h
  exact h.2

theorem isQuiet_of_isStray {p : Str} (h : isStray p = true) : isQuiet p = true := by
  simp only [isStray, Bool.and_eq_true] at h
  exact h.1.1.1.1

theorem not_fileHeader_of_passedOver {p : Str} (h : isPassedOver p = true) :
    isFileHeader p = false := by
  rcases Bool.or_eq_true_iff.mp h with hmarker | hminus
  · refine not_fileHeader ?_ ?_ ?_ <;> exact startswith_other hmarker (by decide)
  · obtain ⟨hstart, hthree⟩ := Bool.and_eq_true_iff.mp hminus
    have hgit : startswith p gitHeader = false := startswith_other hstart (by decide)
    have hnew : startswith p newHeader = false := startswith_other hstart (by decide)
    refine not_fileHeader hgit ?_ hnew
    rw [← Bool.not_eq_true]
    intro hold
    rw [startswith_of_append (p := lit "---") (q := lit " ") hold] at hthree
    cases hthree

/-- An empty line. -/
theorem isStray_lineEnd (x : ChangedLine) : isStray x.lineEnd = true := by
  rcases x.lineEnd_cases with h | h <;> rw [h] <;> decide

theorem ChangedLine.Leads.shaped {r r' : Reading} {x : ChangedLine} (hno : NoBreak x.content)
    (h : x.Leads r r') : (Entry.body x).Shaped := by
  have hquiet : x.Quiet → (Entry.body x).Shaped := by
    rintro (hsame | ⟨hlike, hpieces⟩)
    · exact .inl (pieces_of_unchanged hno hsame)
    · exact .inr ⟨isFileHeader_text hlike, x.pieces_ne_nil,
        fun p hp => not_fileHeader_of_isQuiet (hpieces p hp)⟩
  cases h with
  | unchanged hsame => exact .inl (pieces_of_unchanged hno hsame)
  | closes hsame => exact .inl (pieces_of_unchanged hno hsame)
  | removed hkind hlike hpieces => exact .inr ⟨isFileHeader_text hlike, x.pieces_ne_nil,
      fun p hp => not_fileHeader_of_passedOver (hpieces p hp)⟩
  | stray hkind hlike ps p qs hpieces hps hp hqs =>
    refine .inr ⟨isFileHeader_text hlike, x.pieces_ne_nil, ?_⟩
    show ∀ p ∈ x.pieces, isFileHeader p = false
    rw [hpieces]
    intro q hq
    rcases List.mem_append.mp hq with hq | hq
    · exact not_fileHeader_of_passedOver (hps q hq)
    · rcases List.mem_cons.mp hq with rfl | hq
      · exact not_fileHeader_of_isQuiet (isQuiet_of_isStray hp)
      · exact not_fileHeader_of_isQuiet (hqs q hq)
  | last hkind hlike s c d hcontent hchanged hd hcr =>
    refine .inr ⟨isFileHeader_text hlike, x.pieces_ne_nil, ?_⟩
    show ∀ p ∈ x.pieces, isFileHeader p = false
    rw [pieces_of_last hno hcontent hchanged hd hcr]
    refine List.forall_mem_cons.mpr ⟨isFileHeader_firstPiece hlike hcontent hd, ?_⟩
    exact List.forall_mem_singleton.mpr
      (not_fileHeader_of_isQuiet (isQuiet_of_isStray (isStray_lineEnd x)))
  | unseen hkind hx => exact hquiet hx
  | skipped hx => exact hquiet hx

theorem Aligned.shaped {r : Reading} {es : List Entry} (h : Aligned r es) :
    ∀ e ∈ es, e.Shaped := by
  induction h with
  | nil => simp
  | head hno hends h ih => exact List.forall_mem_cons.mpr ⟨.inl rfl, ih⟩
  | header hno hheader h ih => exact List.forall_mem_cons.mpr ⟨.inl rfl, ih⟩
  | body hno hx h ih => exact List.forall_mem_cons.mpr ⟨hx.shaped hno, ih⟩

/-! ## Both texts are cut alike -/

section Cut

variable {es : List Entry}

/-- A header stands among the pieces exactly when it stands among the lines. -/
theorem any_header_pieces {header : Str}
    (hheader : ∀ l, isFileHeader l = false → startswith l header = false)
    (h : ∀ e ∈ es, e.Shaped) : (es.flatMap Entry.pieces).any (fun l => startswith l header)
      = (es.map Entry.line).any fun l => startswith l header := by
  induction es with
  | nil => rfl
  | cons e es ih =>
    obtain ⟨he, hes⟩ := List.forall_mem_cons.mp h
    rw [List.flatMap_cons, List.any_append, List.map_cons, List.any_cons, ih hes]
    congr 1
    rcases he with hone | ⟨hline, -, hpieces⟩
    · rw [hone]
      simp
    · rw [hheader _ hline, List.any_eq_false]
      intro p hp
      rw [hheader p (hpieces p hp)]
      exact Bool.false_ne_true

theorem gitHead_pieces (h : ∀ e ∈ es, e.Shaped) :
    gitHead (es.flatMap Entry.pieces) = gitHead (es.map Entry.line) := by
  cases es with
  | nil => rfl
  | cons e es =>
    rw [List.flatMap_cons, List.map_cons]
    rcases h e List.mem_cons_self with hone | ⟨hline, hne, hpieces⟩
    · rw [hone]
      rfl
    · obtain ⟨p, ps, hp⟩ := List.exists_cons_of_ne_nil hne
      rw [hp, List.cons_append, gitHead, gitHead, (startswith_of_not_fileHeader hline).1,
        (startswith_of_not_fileHeader (hpieces p (hp ▸ List.mem_cons_self))).1]

theorem plainHead_of_not_fileHeader {l : Str} (h : isFileHeader l = false) (ls : List Str) :
    plainHead (l :: ls) = false := by
  cases ls with
  | nil => rfl
  | cons l' ls => rw [plainHead, (startswith_of_not_fileHeader h).2.1, Bool.false_and]

theorem plainHead_pieces (h : ∀ e ∈ es, e.Shaped) :
    plainHead (es.flatMap Entry.pieces) = plainHead (es.map Entry.line) := by
  cases es with
  | nil => rfl
  | cons e es =>
    rw [List.flatMap_cons, List.map_cons]
    rcases h e List.mem_cons_self with hone | ⟨hline, hne, hpieces⟩
    · rw [hone, List.singleton_append]
      cases es with
      | nil => rfl
      | cons e' es =>
        rw [List.flatMap_cons, List.map_cons]
        rcases h e' (by simp) with hone' | ⟨hline', hne', hpieces'⟩
        · rw [hone']
          rfl
        · obtain ⟨p, ps, hp⟩ := List.exists_cons_of_ne_nil hne'
          rw [hp, List.cons_append, plainHead, plainHead, (startswith_of_not_fileHeader hline').2.2,
            (startswith_of_not_fileHeader (hpieces' p (hp ▸ List.mem_cons_self))).2.2]
    · obtain ⟨p, ps, hp⟩ := List.exists_cons_of_ne_nil hne
      rw [hp, List.cons_append, plainHead_of_not_fileHeader hline,
        plainHead_of_not_fileHeader (hpieces p (hp ▸ List.mem_cons_self))]

theorem headStyle_pieces (h : ∀ e ∈ es, e.Shaped) :
    headStyle (es.flatMap Entry.pieces) = headStyle (es.map Entry.line) := by
  rw [headStyle, headStyle, any_header_pieces (fun l hl => (startswith_of_not_fileHeader hl).1) h]

theorem headStyle_cases (lines : List Str) :
    headStyle lines = gitHead ∨ headStyle lines = plainHead := by
  unfold headStyle
  split
  · exact .inl rfl
  · exact .inr rfl

/-- The entries of each section; the pieces of an entry stay together. -/
theorem cut_pieces (h : ∀ e ∈ es, e.Shaped) : ∃ (before : List Entry) (blocks : List (List Entry)),
    es = before ++ blocks.flatten ∧
    cut (headStyle (es.map Entry.line)) (es.map Entry.line)
      = (before.map Entry.line, blocks.map fun b => b.map Entry.line) ∧
    cut (headStyle (es.flatMap Entry.pieces)) (es.flatMap Entry.pieces)
      = (before.flatMap Entry.pieces, blocks.map fun b => b.flatMap Entry.pieces) := by
  obtain ⟨p, hp⟩ : ∃ p, headStyle (es.map Entry.line) = p := ⟨_, rfl⟩
  have hstyle : p = gitHead ∨ p = plainHead := hp ▸ headStyle_cases _
  have hsame : ∀ ys, ys <:+ es → p (ys.flatMap Entry.pieces) = p (ys.map Entry.line) := by
    intro ys hys
    have hshaped : ∀ e ∈ ys, e.Shaped := fun e he => h e (hys.subset he)
    rcases hstyle with rfl | rfl
    · exact gitHead_pieces hshaped
    · exact plainHead_pieces hshaped
  have hnone : ∀ (l : Str) (ls : List Str), isFileHeader l = false → p (l :: ls) = false := by
    intro l ls hl
    rcases hstyle with rfl | rfl
    · exact (startswith_of_not_fileHeader hl).1
    · exact plainHead_of_not_fileHeader hl ls
  have hpieces : cut p (es.flatMap Entry.pieces)
      = ((cut (fun ys => p (ys.flatMap Entry.pieces)) es).1.flatMap Entry.pieces,
        (cut (fun ys => p (ys.flatMap Entry.pieces)) es).2.map fun b => b.flatMap Entry.pieces) := by
    refine cut_flatMap (fun e he => ?_) fun e ys hys s t hst hs ht => ?_
    · rcases h e he with hone | ⟨-, hne, -⟩
      · rw [hone]
        exact List.cons_ne_nil _ _
      · exact hne
    · obtain ⟨l, ls, rfl⟩ := List.exists_cons_of_ne_nil ht
      rcases h e (hys.subset List.mem_cons_self) with hone | ⟨-, -, hall⟩
      · -- one piece is not cut in two
        obtain ⟨l', ls', rfl⟩ := List.exists_cons_of_ne_nil hs
        rw [hone] at hst
        simp at hst
      · exact hnone _ _ (hall l (by rw [hst]; simp))
  refine ⟨(cut (fun ys => p (ys.map Entry.line)) es).1,
    (cut (fun ys => p (ys.map Entry.line)) es).2, (cut_eq _ _).symm, ?_, ?_⟩
  · rw [hp, cut_map]
  · rw [headStyle_pieces h, hp, hpieces, cut_congr hsame]

end Cut

end DiffReview
