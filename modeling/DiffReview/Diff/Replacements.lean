import DiffReview.Diff.Positions
import DiffReview.Diff.StrayLines

/-!
# DiffReview — harmless replacements

Over a harmless change the scans of the two texts stay together (`Aligned.foldlM`), so their
reports are the same (`sameReport_of_harmless`). A line that both report is cut at its end at
most (`SameReport.noBreak_dropLast`).
-/

namespace DiffReview

open Py Raise

/-! ## Both scans stay together -/

def Reading.Current : Reading → Option Nat → Option Nat → Prop
  | .inStep, n, n' => n' = n
  | .lost, _, n' => n' = none
  | .ended, n, n' => n = none ∧ n' = none

/-- The scans of the original and of the changed text after the same entries, when they have
reported the lines `xs`. -/
structure Together (r : Reading) (xs : List ChangedLine) (st st' : HunkScan) : Prop where
  current : r.Current st.currentNewLine st'.currentNewLine
  hunkNumber : st'.hunkNumber = st.hunkNumber
  sawHunk : st'.sawHunk = st.sawHunk
  shown : List.Forall₂ ChangedLine.IsShown st.lines xs
  lines : st'.lines = st.lines.zipWith ChangedLine.replaceIn xs

section Scan

variable {path : Str} {st st' : HunkScan} {r r' : Reading} {xs : List ChangedLine}

theorem foldlM_quiet {ps : List Str} (h : ∀ p ∈ ps, isQuiet p = true)
    (hst : st.currentNewLine = none) : ps.foldlM (scanLine path) st = .ok st := by
  induction ps with
  | nil => rfl
  | cons p ps ih =>
    obtain ⟨hp, hps⟩ := List.forall_mem_cons.mp h
    rw [isQuiet, Bool.and_eq_true, Option.isNone_iff_eq_none] at hp
    have hline : scanLine path st p = .ok st := by rw [scanLine, hp.1, hst]
    rw [List.foldlM_cons, hline]
    exact ih hps

theorem scanLine_passedOver {p : Str} (h : isPassedOver p = true) :
    scanLine path st p = .ok st := by
  have hre : hunkRe.matchStart p = none := by
    rcases Bool.or_eq_true_iff.mp h with hmarker | hminus
    · exact hunkRe_eq_none_of_startswith hmarker (by decide)
    · exact hunkRe_eq_none_of_startswith (Bool.and_eq_true_iff.mp hminus).1 (by decide)
  rw [scanLine, hre]
  cases hn : st.currentNewLine with
  | none => rfl
  | some n =>
    refine congrArg Except.ok ?_
    unfold scanBodyLine
    rcases Bool.or_eq_true_iff.mp h with hmarker | hminus
    · rw [if_pos hmarker]
    · obtain ⟨hstart, -⟩ := Bool.and_eq_true_iff.mp hminus
      have hplus : startswith p (lit "+") = false := startswith_other hstart (by decide)
      have hspace : startswith p (lit " ") = false := startswith_other hstart (by decide)
      simp only [hplus, hspace, hminus, Bool.false_and, Bool.false_eq_true, if_false, if_true]
      split <;> rfl

theorem foldlM_passedOver {ps : List Str} (h : ∀ p ∈ ps, isPassedOver p = true) :
    ps.foldlM (scanLine path) st = .ok st := by
  induction ps with
  | nil => rfl
  | cons p ps ih =>
    obtain ⟨hp, hps⟩ := List.forall_mem_cons.mp h
    rw [List.foldlM_cons, scanLine_passedOver hp]
    exact ih hps

namespace ChangedLine

variable {x : ChangedLine}

/-- What the scan does on the line `x` of a hunk, when it reads `content` there. -/
def step (x : ChangedLine) (path content : Str) (st : HunkScan) : HunkScan :=
  match st.currentNewLine with
  | none => st
  | some n =>
    if x.likeHeader then { st with currentNewLine := none }
    else if x.kind = .removed then st
    else st.report path n content (x.kind = .added)

theorem hunkRe_marker (kind : LineKind) (s : Str) : hunkRe.matchStart (kind.marker :: s) = none := by
  have hmarker : some kind.marker ≠ some (Chr.ofChar '@') := by cases kind <;> decide
  exact hunkRe_eq_none hmarker

theorem scanBodyLine_text (hno : NoBreak x.content) (n : Nat) : scanBodyLine path st n x.text =
    if x.likeHeader then { st with currentNewLine := none }
    else if x.kind = .removed then st
    else st.report path n x.content (x.kind = .added) := by
  have hcontent : rstripNewline (x.content ++ x.lineEnd) = x.content := by
    refine rstripNewline_lineEnd fun c hc => ?_
    have hbreak := hno c (List.mem_of_getLast? hc)
    constructor
    · rintro rfl
      cases hbreak
    · rintro rfl
      cases hbreak
  exact scanBodyLine_marker x.kind hcontent (startswith_lineEnd (by decide) (by decide))
    (startswith_lineEnd (by decide) (by decide)) n

theorem scanLine_text (hno : NoBreak x.content) (path : Str) (st : HunkScan) :
    scanLine path st x.text = .ok (x.step path x.content st) := by
  rw [scanLine, text, hunkRe_marker]
  unfold step
  cases st.currentNewLine with
  | none => rfl
  | some n => exact congrArg Except.ok (scanBodyLine_text hno n)

theorem scanLine_removed (hno : NoBreak x.content) (hkind : x.kind = .removed)
    (hlike : x.likeHeader = false) : scanLine path st x.text = .ok st := by
  rw [scanLine_text hno, step, hlike, hkind]
  cases st.currentNewLine <;> rfl

theorem foldlM_unchanged (hno : NoBreak x.content) (h : x.changed = x.content) :
    x.pieces.foldlM (scanLine path) st = .ok (x.step path x.content st) := by
  rw [pieces_of_unchanged hno h, List.foldlM_cons, scanLine_text hno]
  rfl

theorem Quiet.foldlM (h : x.Quiet) (hno : NoBreak x.content) (hst : st.currentNewLine = none) :
    x.pieces.foldlM (scanLine path) st = .ok st := by
  rcases h with heq | ⟨-, hpieces⟩
  · rw [foldlM_unchanged hno heq, step, hst]
  · exact foldlM_quiet hpieces hst

/-- The first piece of a line that is cut at its end is read in its place. -/
theorem scanLine_last (hno : NoBreak x.content) (hkind : x.kind ≠ .removed)
    (hlike : x.likeHeader = false) {s : Str} {c d : Chr} (hcontent : x.content = s ++ [c])
    (hchanged : x.changed = s ++ [d]) (hd : isLineBreak d = true) (hcr : d ≠ cr) (path : Str)
    (st : HunkScan) :
    scanLine path st (x.kind.marker :: (s ++ [d])) = .ok (x.step path x.changed st) := by
  have hlf := last_ne_lf hno hcontent hchanged hd
  have hcontent' : rstripNewline (s ++ [d]) = x.changed := by
    rw [hchanged]
    exact List.rdropWhile_concat_neg _ _ _ (by simp [hcr, hlf])
  have hthree : x.kind = .added →
      startswith (x.kind.marker :: (s ++ [d])) (lit "+++") = false := by
    intro hk
    rw [← Bool.not_eq_true]
    intro hstart
    have hline := startswith_firstPiece hcontent hd (by decide) hstart
    unfold text at hline
    rw [hk] at hline
    have hline : (Chr.ofChar '+' == LineKind.added.marker
        && startswith (x.content ++ x.lineEnd) (lit "++")) = true := hline
    have htwo := (Bool.and_eq_true_iff.mp hline).2
    rw [startswith_lineEnd (by decide) (by decide)] at htwo
    simp [likeHeader, hk, htwo] at hlike
  unfold scanLine step
  rw [hunkRe_marker]
  cases st.currentNewLine with
  | none => rfl
  | some n =>
    refine congrArg Except.ok ?_
    simp only [hlike, hkind, Bool.false_eq_true, if_false]
    cases hk : x.kind with
    | removed => exact absurd hk hkind
    | context =>
      show st.report path n (rstripNewline (s ++ [d])) false = _
      rw [hcontent']
      rfl
    | added =>
      have hthree := hthree hk
      rw [hk] at hthree
      have hplus : startswith (LineKind.added.marker :: (s ++ [d])) (lit "+") = true := rfl
      have hmarker : startswith (LineKind.added.marker :: (s ++ [d])) noNewlineMarker = false :=
        startswith_cons_ne (by decide)
      unfold scanBodyLine
      rw [hmarker, hplus, hthree, ← hcontent']
      rfl

end ChangedLine

namespace Together

variable {x : ChangedLine}

theorem moved {n n' : Option Nat} (h : Together r xs st st') (hcurrent : r'.Current n n') :
    Together r' xs { st with currentNewLine := n } { st' with currentNewLine := n' } :=
  ⟨hcurrent, h.hunkNumber, h.sawHunk, h.shown, h.lines⟩

/-- The same line in both texts: it is reported in both, or in none. -/
theorem step (h : Together .inStep xs st st') (path : Str) : ∃ ys,
    ys.Sublist (Entry.newFileLines (.body x)) ∧
      Together .inStep (xs ++ ys) (x.step path x.content st) (x.step path x.changed st') := by
  have hcurrent : st'.currentNewLine = st.currentNewLine := h.current
  have hnone : Together .inStep (xs ++ []) st st' := by rwa [List.append_nil]
  unfold ChangedLine.step
  rw [hcurrent]
  cases st.currentNewLine with
  | none => exact ⟨[], List.nil_sublist _, hnone⟩
  | some n =>
    dsimp only
    split
    · refine ⟨[], List.nil_sublist _, ?_⟩
      exact hnone.moved rfl
    · split
      · exact ⟨[], List.nil_sublist _, hnone⟩
      · next hkind =>
        unfold HunkScan.report
        by_cases hpath : path = devNull
        · refine ⟨[], List.nil_sublist _, ?_⟩
          rw [if_pos hpath, if_pos hpath]
          exact hnone.moved rfl
        · refine ⟨[x], ?_, rfl, h.hunkNumber, h.sawHunk, ?_, ?_⟩
          · simp [Entry.newFileLines, hkind]
          · rw [if_neg hpath]
            exact List.rel_append h.shown (.cons ⟨rfl, rfl⟩ .nil)
          · rw [if_neg hpath, if_neg hpath, h.lines, h.hunkNumber,
              List.zipWith_append h.shown.length_eq]
            rfl

end Together

/-- What one entry adds to the report. -/
theorem ChangedLine.Leads.scan {x : ChangedLine} (hx : x.Leads r r') (hno : NoBreak x.content)
    (path : Str) (h : Together r xs st st') : ∃ st₁ st₁' ys,
      scanLine path st x.text = .ok st₁ ∧ x.pieces.foldlM (scanLine path) st' = .ok st₁' ∧
      ys.Sublist (Entry.newFileLines (.body x)) ∧ Together r' (xs ++ ys) st₁ st₁' := by
  have hsame : Together r (xs ++ []) st st' := by rwa [List.append_nil]
  cases hx with
  | unchanged heq =>
    obtain ⟨ys, hys, ht⟩ := h.step (x := x) path
    rw [heq] at ht
    exact ⟨_, _, ys, scanLine_text hno path st, foldlM_unchanged hno heq, hys, ht⟩
  | closes heq hlike =>
    have hends : ∀ st : HunkScan,
        x.step path x.content st = { st with currentNewLine := none } := by
      rintro ⟨current, hunkNumber, sawHunk, lines⟩
      cases current with
      | none => rfl
      | some n => exact if_pos hlike
    refine ⟨_, _, [], scanLine_text hno path st, foldlM_unchanged hno heq, List.nil_sublist _, ?_⟩
    rw [hends, hends]
    exact hsame.moved ⟨rfl, rfl⟩
  | removed hkind hlike hpieces =>
    exact ⟨st, st', [], scanLine_removed hno hkind hlike, foldlM_passedOver hpieces, List.nil_sublist _, hsame⟩
  | stray hkind hlike ps p qs hpieces hps hp hqs =>
    refine ⟨st, { st' with currentNewLine := none }, [], scanLine_removed hno hkind hlike, ?_,
      List.nil_sublist _, hsame.moved rfl⟩
    rw [hpieces, List.foldlM_append, foldlM_passedOver hps]
    show (p :: qs).foldlM (scanLine path) st' = _
    rw [List.foldlM_cons, endsHunk_of_isStray hp]
    exact foldlM_quiet hqs rfl
  | last hkind hlike s c d hcontent hchanged hd hcr =>
    obtain ⟨ys, hys, ht⟩ := h.step (x := x) path
    refine ⟨_, { x.step path x.changed st' with currentNewLine := none }, ys,
      scanLine_text hno path st, ?_, hys, ht.moved rfl⟩
    rw [pieces_of_last hno hcontent hchanged hd hcr, List.foldlM_cons,
      scanLine_last hno hkind hlike hcontent hchanged hd hcr]
    show [x.lineEnd].foldlM (scanLine path) (x.step path x.changed st') = _
    rw [List.foldlM_cons, endsHunk_of_isStray (isStray_lineEnd x)]
    rfl
  | unseen hkind hx =>
    have hnone : st'.currentNewLine = none := h.current
    refine ⟨_, st', [], scanLine_text hno path st, hx.foldlM hno hnone, List.nil_sublist _, ?_⟩
    -- a removed line reports nothing
    unfold step
    split
    · exact hsame
    · split
      · exact hsame.moved hnone
      · exact hsame
  | skipped hx =>
    obtain ⟨hnone, hnone'⟩ := h.current
    refine ⟨st, st', [], ?_, hx.foldlM hno hnone', List.nil_sublist _, hsame⟩
    rw [scanLine_text hno, step, hnone]

theorem Aligned.foldlM {es : List Entry} (h : Aligned r es) (ht : Together r xs st st')
    {end₁ : HunkScan} (hok : (es.map Entry.line).foldlM (scanLine path) st = .ok end₁) :
    ∃ end₁' r' ys, (es.flatMap Entry.pieces).foldlM (scanLine path) st' = .ok end₁' ∧
      ys.Sublist (es.flatMap Entry.newFileLines) ∧ Together r' (xs ++ ys) end₁ end₁' := by
  induction h generalizing xs st st' with
  | nil =>
    cases hok
    exact ⟨st', _, [], rfl, List.nil_sublist _, by rwa [List.append_nil]⟩
  | @head r l es hno hends h ih =>
    have ht' : Together .ended xs { st with currentNewLine := none }
        { st' with currentNewLine := none } := ht.moved ⟨rfl, rfl⟩
    rw [List.map_cons, List.foldlM_cons, Entry.line, hends] at hok
    rw [List.flatMap_cons, Entry.pieces, List.singleton_append, List.foldlM_cons, hends]
    exact ih ht' hok
  | @header r l es hno hheader h ih =>
    obtain ⟨m, hm⟩ := Option.isSome_iff_exists.mp hheader
    rw [List.map_cons, List.foldlM_cons] at hok
    obtain ⟨st₁, hst₁, hok⟩ := bind_eq_ok.mp hok
    rw [Entry.line, scanLine, hm] at hst₁
    obtain ⟨start, hstart, hst₁⟩ := bind_eq_ok.mp hst₁
    have hst₁' : scanLine path st' (l ++ [lf]) = .ok { st' with
        currentNewLine := some start, hunkNumber := st'.hunkNumber + 1, sawHunk := true } := by
      rw [scanLine, hm]
      exact bind_eq_ok.mpr ⟨start, hstart, rfl⟩
    cases hst₁
    rw [List.flatMap_cons, Entry.pieces, List.singleton_append, List.foldlM_cons, hst₁']
    have ht' : Together .inStep xs
        { st with currentNewLine := some start, hunkNumber := st.hunkNumber + 1, sawHunk := true }
        { st' with
          currentNewLine := some start, hunkNumber := st'.hunkNumber + 1, sawHunk := true } :=
      ⟨rfl, congrArg (· + 1) ht.hunkNumber, rfl, ht.shown, ht.lines⟩
    exact ih ht' hok
  | @body r r' x es hno hx h ih =>
    obtain ⟨st₁, st₁', ys, hline, hpieces, hys, ht'⟩ := hx.scan hno path ht
    rw [List.map_cons, List.foldlM_cons, Entry.line, hline] at hok
    obtain ⟨end₁', r'', zs, hend, hzs, ht''⟩ := ih ht' hok
    refine ⟨end₁', r'', ys ++ zs, ?_, ?_, by rwa [← List.append_assoc]⟩
    · rw [List.flatMap_cons, Entry.pieces, List.foldlM_append, hpieces]
      exact hend
    · rw [List.flatMap_cons]
      exact hys.append hzs

end Scan

/-! ## The report -/

section Report

/-- The first `+++ ` line of a section is the same entry of both texts. -/
theorem first_newHeader {es : List Entry} (h : ∀ e ∈ es, e.Shaped) {parsed : FileDiff × Bool}
    (hok : parseSection (es.map Entry.line) = .ok parsed) : ∃ before e rest,
      es = before ++ e :: rest ∧ e.pieces = [e.line] ∧ startswith e.line newHeader = true ∧
      (∀ l ∈ before.map Entry.line, startswith l newHeader = false) ∧
      ∀ l ∈ before.flatMap Entry.pieces, startswith l newHeader = false := by
  obtain ⟨e, he⟩ : ∃ e, es.find? (fun e => startswith e.line newHeader) = some e := by
    refine Option.isSome_iff_exists.mp (List.find?_isSome.mpr ?_)
    by_contra hnone
    have hlines : ∀ l ∈ es.map Entry.line, startswith l newHeader = false := by
      intro l hl
      obtain ⟨e, he, rfl⟩ := List.mem_map.mp hl
      exact Bool.eq_false_iff.mpr fun hnew => hnone ⟨e, he, hnew⟩
    rw [parseSection_noHeader hlines] at hok
    cases hok
  obtain ⟨hnew, before, rest, rfl, hbefore⟩ := List.find?_eq_some_iff_append.mp he
  have hbefore : ∀ e ∈ before, startswith e.line newHeader = false := by simpa using hbefore
  refine ⟨before, e, rest, rfl, ?_, hnew, ?_, ?_⟩
  · rcases h e (by simp) with hone | ⟨hline, -⟩
    · exact hone
    · rw [(startswith_of_not_fileHeader hline).2.2] at hnew
      cases hnew
  · intro l hl
    obtain ⟨e', he', rfl⟩ := List.mem_map.mp hl
    exact hbefore e' he'
  · intro l hl
    obtain ⟨e', he', hl⟩ := List.mem_flatMap.mp hl
    rcases h e' (by simp [he']) with hone | ⟨-, -, hall⟩
    · rw [hone, List.mem_singleton] at hl
      rw [hl]
      exact hbefore e' he'
    · exact (startswith_of_not_fileHeader (hall l hl)).2.2

theorem Aligned.parseSection {r : Reading} {es : List Entry} (h : Aligned r es) {f : FileDiff}
    {saw : Bool} (hok : parseSection (es.map Entry.line) = .ok (f, saw)) :
    ∃ f' xs, DiffReview.parseSection (es.flatMap Entry.pieces) = .ok (f', saw) ∧
      xs.Sublist (es.flatMap Entry.newFileLines) ∧ List.Forall₂ ChangedLine.IsShown f.lines xs ∧
      f'.lines = f.lines.zipWith ChangedLine.replaceIn xs := by
  have hshaped := h.shaped
  obtain ⟨before, e, rest, rfl, hpieces, hnew, hlines, hlines'⟩ := first_newHeader hshaped hok
  have hold := any_header_pieces (fun l hl => (startswith_of_not_fileHeader hl).2.1) hshaped
  rw [List.map_append, List.map_cons] at hok hold
  rw [List.flatMap_append, List.flatMap_cons, hpieces, List.singleton_append] at hold ⊢
  rw [parseSection_split hlines hnew] at hok
  rw [parseSection_split hlines' hnew, hold]
  split at hok
  · cases hok
  · split at hok
    · cases hok
    · next hany hpath =>
      obtain ⟨st, hst, heq⟩ := map_eq_ok.mp hok
      obtain ⟨hf, hsaw⟩ := Prod.mk.inj heq
      rw [if_neg hany, if_neg hpath]
      have hsplit : Aligned r ((before ++ [e]) ++ rest) := by simpa using h
      obtain ⟨r', hrest⟩ := hsplit.right
      have hcurrent : r'.Current HunkScan.start.currentNewLine HunkScan.start.currentNewLine := by
        cases r' with
        | inStep => rfl
        | lost => rfl
        | ended => exact ⟨rfl, rfl⟩
      have hstart : Together r' [] HunkScan.start HunkScan.start := ⟨hcurrent, rfl, rfl, .nil, rfl⟩
      obtain ⟨st', r'', xs, hst', hxs, ht⟩ := hrest.foldlM hstart hst
      refine ⟨⟨cleanPath (e.line.drop 4),
        (before.flatMap Entry.pieces ++ e.line :: rest.flatMap Entry.pieces).flatten, st'.lines⟩,
        xs, map_eq_ok.mpr ⟨st', hst', ?_⟩, ?_, ?_⟩
      · rw [ht.sawHunk, hsaw]
      · rw [List.flatMap_append, List.flatMap_cons]
        exact (hxs.trans (List.sublist_append_right _ _)).trans (List.sublist_append_right _ _)
      · rw [← hf]
        exact ⟨ht.shown, ht.lines⟩

theorem parseSection_blocks {blocks : List (List Entry)} {parsed : List (FileDiff × Bool)}
    (h : ∀ b ∈ blocks, ∃ r, Aligned r b)
    (hparsed : List.Forall₂ (fun b p => parseSection b = .ok p)
      (blocks.map fun b => b.map Entry.line) parsed) :
    ∃ parsed' xs, List.Forall₂ (fun b p => parseSection b = .ok p)
        (blocks.map fun b => b.flatMap Entry.pieces) parsed' ∧
      parsed'.any (·.2) = parsed.any (·.2) ∧
      xs.Sublist (blocks.flatten.flatMap Entry.newFileLines) ∧
      List.Forall₂ ChangedLine.IsShown (parsed.flatMap (·.1.lines)) xs ∧
      parsed'.flatMap (·.1.lines)
        = (parsed.flatMap (·.1.lines)).zipWith ChangedLine.replaceIn xs := by
  induction blocks generalizing parsed with
  | nil =>
    cases hparsed
    exact ⟨[], [], .nil, rfl, .slnil, .nil, rfl⟩
  | cons b blocks ih =>
    obtain ⟨⟨r, hb⟩, hblocks⟩ := List.forall_mem_cons.mp h
    rw [List.map_cons, List.forall₂_cons_left_iff] at hparsed
    obtain ⟨⟨f, saw⟩, parsed, hf, hparsed, rfl⟩ := hparsed
    obtain ⟨f', xs, hf', hxs, hshown, hlines⟩ := hb.parseSection hf
    obtain ⟨parsed', ys, hparsed', hany, hys, hshown', hlines'⟩ := ih hblocks hparsed
    refine ⟨(f', saw) :: parsed', xs ++ ys, .cons hf' hparsed', ?_, ?_, ?_, ?_⟩
    · rw [List.any_cons, List.any_cons, hany]
    · rw [List.flatten_cons, List.flatMap_append]
      exact hxs.append hys
    · exact List.rel_append hshown hshown'
    · rw [List.flatMap_cons, List.flatMap_cons, List.zipWith_append hshown.length_eq, ← hlines,
        ← hlines']

variable {files : List PatchFile}

theorem changedPatch_ne_blank (hne : files ≠ [])
    (hlines : splitlines (changedPatch files)
      = (files.flatMap PatchFile.entries).flatMap Entry.pieces) :
    ¬(changedPatch files = [] ∨ strip (changedPatch files) = []) := by
  obtain ⟨f, fs, rfl⟩ := List.exists_cons_of_ne_nil hne
  have hplus : Chr.ofChar '+' ∈ newHeader ++ f.new ++ [lf] :=
    List.mem_append_left _ (List.mem_append_left _ (by decide))
  refine not_blank_of_mem_splitlines ?_ hplus (by decide)
  rw [hlines]
  refine List.mem_flatMap.mpr ⟨.fixed (newHeader ++ f.new), ?_, List.mem_singleton_self _⟩
  simp [PatchFile.entries, PatchFile.head]

end Report

/-! ## What both texts report -/

/-- A reported content is read from one line of the text. -/
theorem noBreak_reported {diff : Str} {files : List FileDiff}
    (h : parseUnifiedDiff diff = .ok files) {l : NewFileLine} (hl : l ∈ files.flatMap (·.lines)) : NoBreak l.content.dropLast := by
  obtain ⟨file, hf, hl⟩ := List.mem_flatMap.mp hl
  obtain ⟨-, parsed, hparsed, -, rfl⟩ := parseUnifiedDiff_eq_ok h
  obtain ⟨⟨file, sawHunk⟩, hmem, rfl⟩ := List.mem_map.mp hf
  obtain ⟨lines, hlines, hsection⟩ := mem_of_mapM_eq_ok hparsed hmem
  obtain ⟨i, -, ⟨positions, -, hplaced⟩, -⟩ :=
    parseSection_positionsSound (splitlines_of_mem_sections hlines) hsection
  obtain ⟨k, hk, rfl⟩ := List.getElem_of_mem hl
  have hplace := (List.forall₂_iff_get.mp hplaced).2 k hk (hplaced.length_eq ▸ hk)
  obtain ⟨before, header, between, line, after, start, hbody, -, -, -, -, -, -, -, hcontent, -⟩ :=
    hplace.placed
  have hline : line ∈ splitlines file.raw := by
    refine List.mem_of_mem_drop (i := i + 1) ?_
    rw [hbody]
    simp
  rw [show file.lines[k].content = _ from hcontent]
  exact noBreak_rstripNewline (splitlines_of_mem hline)

/-- A line that both texts report is cut at its end at most. -/
theorem SameReport.noBreak_dropLast {files : List PatchFile} (h : SameReport files)
    {fs : List FileDiff} (hok : parseUnifiedDiff (originalPatch files) = .ok fs) :
    ∃ xs, xs.Sublist (newFileLines files) ∧
      List.Forall₂ ChangedLine.IsShown (fs.flatMap (·.lines)) xs ∧
      ∀ x ∈ xs, NoBreak x.changed.dropLast := by
  obtain ⟨fs', hok', xs, hxs, hshown, hlines⟩ := h fs hok
  refine ⟨xs, hxs, hshown, fun x hx => ?_⟩
  obtain ⟨l, hl, hcontent⟩ : ∃ l ∈ fs'.flatMap (fun f => f.lines), l.content = x.changed := by
    obtain ⟨k, hk, rfl⟩ := List.getElem_of_mem hx
    have hk' : k < (fs.flatMap fun f => f.lines).length := hshown.length_eq ▸ hk
    refine ⟨xs[k].replaceIn (fs.flatMap fun f => f.lines)[k], ?_, rfl⟩
    rw [hlines, List.mem_iff_getElem]
    have hlt : k < ((fs.flatMap fun f => f.lines).zipWith ChangedLine.replaceIn xs).length := by
      rw [List.length_zipWith]
      exact lt_min hk' hk
    exact ⟨k, hlt, List.getElem_zipWith⟩
  rw [← hcontent]
  exact noBreak_reported hok' hl
/-! ## A line cut by VT -/

/-- Every `x` becomes VT. -/
def vtForX (c : Chr) : Chr := if c = Chr.ofChar 'x' then Chr.ofChar '\x0b' else c

theorem replaces_vtForX (c : Chr) : Replaces c (vtForX c) := by
  unfold vtForX
  split
  · next h =>
    rw [h]
    exact .inr (by decide)
  · exact .inl rfl

def vtLine (kind : LineKind) (content : Str) (hlf : lf ∉ content)
    (hcr : (content.map vtForX).getLast? ≠ some cr) : ChangedLine where
  kind := kind
  content := content
  changed := content.map vtForX
  crlf := false
  ended := hlf
  replaced := List.forall₂_map_right_iff.mpr (List.forall₂_same.mpr fun c _ => replaces_vtForX c)
  notCrLf := fun _ => hcr

theorem axb_ended : lf ∉ lit "axb" ∧ ((lit "axb").map vtForX).getLast? ≠ some cr := by decide

theorem foo_ended : lf ∉ lit "foo" ∧ ((lit "foo").map vtForX).getLast? ≠ some cr := by decide

theorem isHeader_twoLines : (hunkRe.matchStart (lit "@@ -1,2 +1,2 @@" ++ [lf])).isSome = true := by
  decide

theorem names_ended : lf ∉ lit "a/a" ∧ lf ∉ lit "b/a" ∧ lf ∉ lit "@@ -1,2 +1,2 @@" := by decide

def onePatch (body : List ChangedLine) : PatchFile where
  preamble := []
  preamble_ended := by simp
  preamble_letter := by simp
  old := lit "a/a"
  old_ended := names_ended.1
  new := lit "b/a"
  new_ended := names_ended.2.1
  hunks := [⟨lit "@@ -1,2 +1,2 @@", names_ended.2.2, isHeader_twoLines, body⟩]

def axbLine (kind : LineKind) : ChangedLine := vtLine kind (lit "axb") axb_ended.1 axb_ended.2

def fooLine (kind : LineKind) : ChangedLine := vtLine kind (lit "foo") foo_ended.1 foo_ended.2

end DiffReview
