import DiffReview.Diff.Rejections

/-!
# DiffReview — sections read on their own

The text of some sections in a row is cut into just these sections again
(`sectionsOf_slice`), so parsing it gives the files it gave as a part of the whole
(`parse_slice`). Nothing of a diff is lost but what stands before its first header
(`exists_preamble`).
-/

namespace DiffReview

open Py Raise

/-! ## Cutting a part -/

section Cut

variable {α : Type} {p : List α → Bool}

/-- Whether `p` holds of a text does not depend on what follows it from the next header on. -/
def Settled (p : List α → Bool) : Prop :=
  ∀ t ys, t ≠ [] → ys = [] ∨ p ys = true → p (t ++ ys) = p t

/-- A text that is cut at its start is empty or starts with a header. -/
theorem head_of_cut {xs : List α} (h : (cut p xs).1 = []) : xs = [] ∨ p xs = true := by
  cases xs with
  | nil => exact .inl rfl
  | cons x xs =>
    by_cases hp : p (x :: xs) = true
    · exact .inr hp
    · rw [cut, if_neg hp] at h
      cases h

/-- The pieces are cut as they were when what stands before the first one is gone, -/
theorem cut_blocks (p : List α → Bool) (xs : List α) :
    cut p (cut p xs).2.flatten = ([], (cut p xs).2) := by
  induction xs with
  | nil => rfl
  | cons x xs ih =>
    by_cases hp : p (x :: xs) = true
    · have hcut : cut p (x :: xs) = ([], (x :: (cut p xs).1) :: (cut p xs).2) := by rw [cut, if_pos hp]
      have hxs := cut_eq p (x :: xs)
      rw [hcut, List.nil_append] at hxs
      rw [hcut, hxs, hcut]
    · rw [show (cut p (x :: xs)).2 = (cut p xs).2 by rw [cut, if_neg hp], ih]

/-- or when the first of them are gone, -/
theorem cut_drop {xs : List α} {blocks : List (List α)} (h : cut p xs = ([], blocks)) (k : Nat) :
    cut p (blocks.drop k).flatten = ([], blocks.drop k) := by
  induction k generalizing xs blocks with
  | zero =>
    have hxs := cut_eq p xs
    rw [h, List.nil_append] at hxs
    rw [List.drop_zero, hxs, h]
  | succ k ih =>
    cases xs with
    | nil =>
      cases h
      rfl
    | cons x xs =>
      rcases head_of_cut (congrArg Prod.fst h) with hnil | hp
      · cases hnil
      · rw [cut, if_pos hp] at h
        cases h
        exact ih (cut_blocks p xs)

/-- or when the last of them are gone. -/
theorem cut_append (hp : Settled p) (xs : List α) {ys : List α} (hys : (cut p ys).1 = []) :
    cut p (xs ++ ys) = ((cut p xs).1, (cut p xs).2 ++ (cut p ys).2) := by
  induction xs with
  | nil => rw [List.nil_append, cut, List.nil_append, ← hys]
  | cons x xs ih =>
    have hhead := hp (x :: xs) ys (List.cons_ne_nil _ _) (head_of_cut hys)
    rw [List.cons_append, cut, ih, ← List.cons_append, hhead, cut]
    split <;> rfl

/-- Any pieces in a row are cut as they were. -/
theorem cut_slice (hp : Settled p) {xs : List α} {before mid after : List (List α)}
    (h : (cut p xs).2 = before ++ mid ++ after) : cut p mid.flatten = ([], mid) := by
  have hrest := cut_drop (cut_blocks p xs) before.length
  rw [h, List.append_assoc, List.drop_left] at hrest
  have hafter := cut_drop hrest mid.length
  rw [List.drop_left] at hafter
  rw [List.flatten_append, cut_append hp _ (congrArg Prod.fst hafter), hafter] at hrest
  obtain ⟨hfirst, hmid⟩ := Prod.mk.inj hrest
  exact Prod.ext hfirst (List.append_cancel_right hmid)

end Cut

/-! ## The sections of a part -/

theorem settled_gitHead : Settled gitHead := by
  intro t ys ht _
  obtain ⟨line, lines, rfl⟩ := List.exists_cons_of_ne_nil ht
  rfl

/-- The line behind a lone `--- ` line is no `+++ ` line when it starts a section. -/
theorem settled_plainHead : Settled plainHead := by
  intro t ys ht hys
  obtain ⟨line, lines, rfl⟩ := List.exists_cons_of_ne_nil ht
  cases lines with
  | cons next lines => rfl
  | nil =>
    cases ys with
    | nil => rfl
    | cons y ys =>
      rcases hys with hnil | hys
      · cases hnil
      · cases ys with
        | nil => cases hys
        | cons z ys =>
          have hold : startswith y oldHeader = true := by
            rw [plainHead, Bool.and_eq_true] at hys
            exact hys.1
          have hnew : startswith y newHeader = false := startswith_other hold (by decide)
          show (startswith line oldHeader && startswith y newHeader) = false
          rw [hnew, Bool.and_false]

theorem settled_headStyle (lines : List Str) : Settled (headStyle lines) := by
  unfold headStyle
  split
  · exact settled_gitHead
  · exact settled_plainHead

/-- Any lines of a text in a row are the lines of the text they make. -/
theorem splitlines_infix {s : Str} {before mid after : List Str}
    (h : splitlines s = before ++ mid ++ after) : splitlines mid.flatten = mid := by
  have hdrop := splitlines_drop s before.length
  rw [h, List.append_assoc, List.drop_left] at hdrop
  have htake := splitlines_take (mid ++ after).flatten mid.length
  rwa [hdrop, List.take_left] at htake

/-- Before the first header there is none. -/
theorem startsBy_before {p : List Str → Bool} (hp : Settled p) (lines : List Str) : startsBy p (cut p lines).1 = [] := by
  have hcut := cut_append hp (cut p lines).1 (congrArg Prod.fst (cut_blocks p lines))
  rw [cut_eq, cut_blocks] at hcut
  have hnone : (cut p (cut p lines).1).2 = [] := List.append_left_eq_self.mp (Prod.mk.inj hcut).2.symm
  rw [startsBy_cut, hnone]
  rfl

section Slice

variable {diff : Str} {before mid after : List (List Str)}

/-- The lines of a text: those before the first section, and those of the sections. -/
theorem splitlines_eq_sections (diff : Str) : splitlines diff =
    (cut (headStyle (splitlines diff)) (splitlines diff)).1 ++ (sectionsOf diff).flatten := by
  rw [sectionsOf, sections_sectionStarts, cut_eq]

theorem splitlines_slice (h : sectionsOf diff = before ++ mid ++ after) :
    splitlines mid.flatten.flatten = mid.flatten := by
  have hlines := splitlines_eq_sections diff
  rw [h, List.flatten_append, List.flatten_append, ← List.append_assoc, ← List.append_assoc] at hlines
  exact splitlines_infix hlines

/-- The text of some sections in a row has just these sections. -/
theorem sectionsOf_slice (h : sectionsOf diff = before ++ mid ++ after) (hmid : mid ≠ []) :
    sectionsOf mid.flatten.flatten = mid := by
  have hlines := splitlines_slice h
  have hmem : ∀ line ∈ mid.flatten, line ∈ splitlines diff := by
    intro line hline
    obtain ⟨b, hb, hline⟩ := List.mem_flatten.mp hline
    exact mem_splitlines_of_sections (h ▸ by simp [hb]) hline
  rw [sectionsOf, sections_sectionStarts] at h
  have hcut := cut_slice (settled_headStyle (splitlines diff)) h
  have hstyle : headStyle mid.flatten = headStyle (splitlines diff) := by
    have hfirst := head_of_cut (congrArg Prod.fst hcut)
    unfold headStyle at hcut hfirst ⊢
    by_cases hgit : (splitlines diff).any (fun line => startswith line gitHeader) = true
    · rw [if_pos hgit] at hcut hfirst
      rw [if_pos hgit]
      rcases hfirst with hnil | hhead
      · rw [hnil] at hcut
        exact absurd (congrArg Prod.snd hcut).symm hmid
      · obtain ⟨line, lines, hmidLines⟩ := List.exists_cons_of_ne_nil
          (show mid.flatten ≠ [] from fun hnil => by rw [hnil] at hhead; cases hhead)
        rw [hmidLines] at hhead
        have hany : mid.flatten.any (fun line => startswith line gitHeader) = true := by
          rw [hmidLines, List.any_cons, show startswith line gitHeader = true from hhead, Bool.true_or]
        rw [if_pos hany]
    · have hnone : ¬mid.flatten.any (fun line => startswith line gitHeader) = true := by
        intro hany
        obtain ⟨line, hline, hgit'⟩ := List.any_eq_true.mp hany
        exact hgit (List.any_eq_true.mpr ⟨line, hmem line hline, hgit'⟩)
      rw [if_neg hgit, if_neg hnone]
  rw [sectionsOf, sections_sectionStarts, hlines, hstyle, hcut]

end Slice

/-! ## The files of a part -/

/-- A section without a hunk reports no line. -/
theorem parseSection_no_hunk {lines : List Str} {file : FileDiff}
    (h : parseSection lines = .ok (file, false)) : file.lines = [] := by
  obtain ⟨-, i, st, -, -, -, hst, hlines, hsaw⟩ := parseSection_eq_ok h
  have hscan : st.sawHunk = false → st.lines = [] ∧ st.currentNewLine = none := by
    refine foldlM_invariant (P := fun _ st => st.sawHunk = false → st.lines = [] ∧
      st.currentNewLine = none) hst (fun _ => ⟨rfl, rfl⟩) ?_
    intro _ line c c' _ ih hstep hsaw
    rcases scanLine_kinds hstep with ⟨-, start, -, rfl⟩ | ⟨-, rfl | ⟨n, hn, -, hkind⟩⟩
    · cases hsaw
    · exact ⟨(ih hsaw).1, rfl⟩
    · -- a line is reported behind a hunk header only
      have hsaw' : c.sawHunk = false := by
        rcases hkind with ⟨-, rfl⟩ | ⟨-, rfl⟩
        · exact hsaw
        · exact hsaw
      cases hn.symm.trans (ih hsaw').2
  rw [hlines]
  exact (hscan hsaw.symm).1

/-- What the sections of an accepted text have been parsed to. -/
theorem parsed_sections {diff : Str} {files : List FileDiff} (h : parseUnifiedDiff diff = .ok files) :
    ∃ parsed, List.Forall₂ (fun b p => parseSection b = .ok p) (sectionsOf diff) parsed ∧
      parsed.map (·.1) = files := by
  obtain ⟨-, parsed, hparsed, -, rfl⟩ := parseUnifiedDiff_eq_ok h
  exact ⟨parsed, mapM_eq_ok.mp hparsed, rfl⟩

/-- The raw text of a file is that of its section. -/
theorem raw_of_parsed {blocks : List (List Str)} {parsed : List (FileDiff × Bool)}
    (h : List.Forall₂ (fun b p => parseSection b = .ok p) blocks parsed) :
    (parsed.map (·.1)).flatMap (·.raw) = blocks.flatten.flatten := by
  induction h with
  | nil => rfl
  | @cons b p blocks parsed hp _ ih =>
    obtain ⟨file, sawHunk⟩ := p
    obtain ⟨-, -, -, -, -, hraw, -⟩ := parseSection_eq_ok hp
    rw [List.map_cons, List.flatMap_cons, ih, hraw, List.flatten_cons, List.flatten_append]

/-- A text whose sections parse is not blank. -/
theorem not_blank_of_parsed {diff : Str} {parsed : List (FileDiff × Bool)} (hne : sectionsOf diff ≠ [])
    (h : List.Forall₂ (fun b p => parseSection b = .ok p) (sectionsOf diff) parsed) :
    ¬(diff = [] ∨ strip diff = []) := by
  obtain ⟨b, bs, hblocks⟩ := List.exists_cons_of_ne_nil hne
  refine not_blank_of_headed (s := b) (hblocks ▸ List.mem_cons_self) ?_
  rw [hblocks] at h
  cases h with
  | cons hb _ =>
    by_contra hnone
    obtain ⟨message, herror⟩ := parseSection_unheaded (Option.not_isSome_iff_eq_none.mp hnone)
    cases herror.symm.trans hb

theorem forall₂_split {α β : Type} {R : α → β → Prop} {as : List α} {bs cs : List β}
    (h : List.Forall₂ R as (bs ++ cs)) : ∃ xs ys, as = xs ++ ys ∧ List.Forall₂ R xs bs ∧
      List.Forall₂ R ys cs :=
  ⟨_, _, (List.take_append_drop bs.length as).symm, List.forall₂_take_append _ _ _ h,
    List.forall₂_drop_append _ _ _ h⟩

/-- Files in a row, read on their own. -/
theorem parse_slice {diff : Str} {before mid after : List FileDiff}
    (h : parseUnifiedDiff diff = .ok (before ++ mid ++ after)) (hmid : mid ≠ []) :
    parseUnifiedDiff (mid.flatMap (·.raw)) = .ok mid ∨
      parseUnifiedDiff (mid.flatMap (·.raw))
          = .error (.diffParseError (lit "The diff contains no valid hunks.")) ∧
        ∀ file ∈ mid, file.lines = [] := by
  obtain ⟨parsed, hparsed, hfiles⟩ := parsed_sections h
  obtain ⟨front, pa, rfl, hfront, rfl⟩ := List.map_eq_append_iff.mp hfiles
  obtain ⟨pb, pm, rfl, rfl, rfl⟩ := List.map_eq_append_iff.mp hfront
  -- the sections of the slice
  obtain ⟨fronts, after, hsections, hfronts, -⟩ := forall₂_split hparsed
  obtain ⟨before, blocks, rfl, -, hblocks⟩ := forall₂_split hfronts
  have hne : blocks ≠ [] := by
    rintro rfl
    cases hblocks
    exact hmid rfl
  have hown := sectionsOf_slice hsections hne
  have hblank := not_blank_of_parsed (hown.symm ▸ hne) (hown.symm ▸ hblocks)
  have hparse := parseUnifiedDiff_sectionsOf hblank (hown.symm ▸ hne)
  rw [hown, mapM_eq_ok.mpr hblocks] at hparse
  rw [raw_of_parsed hblocks, hparse]
  show filesOfParsed pm = _ ∨ filesOfParsed pm = _ ∧ _
  unfold filesOfParsed
  by_cases hany : pm.any (·.2) = true
  · rw [if_pos hany]
    exact .inl rfl
  · rw [if_neg hany]
    refine .inr ⟨rfl, fun file hfile => ?_⟩
    obtain ⟨⟨file, sawHunk⟩, hmem, rfl⟩ := List.mem_map.mp hfile
    obtain ⟨b, -, hb⟩ := mem_of_mapM_eq_ok (mapM_eq_ok.mpr hblocks) hmem
    have hsaw : sawHunk = false := by
      by_contra hsaw
      exact hany (List.any_eq_true.mpr ⟨_, hmem, Bool.eq_true_of_not_eq_false hsaw⟩)
    exact parseSection_no_hunk (hsaw ▸ hb)

end DiffReview
