import DiffReview.Lib.Raise
import DiffReview.Spec.Parser

/-!
# DiffReview — cutting a text into sections

`sectionStarts` looks for file headers at every line. When a text is made of blocks that
start with a header, their offsets are among the starts (`offsets_sublist_startsBy`), and
when there are no other starts the sections are the blocks (`sections_offsets`).
-/

namespace DiffReview

open Py Raise

/-! ## Starts -/

def gitHead : List Str → Bool
  | line :: _ => startswith line gitHeader
  | [] => false

def plainHead : List Str → Bool
  | line :: next :: _ => startswith line oldHeader && startswith next newHeader
  | _ => false

/-- The indices from which on `p` holds of the lines. -/
def startsBy (p : List Str → Bool) (lines : List Str) : List Nat :=
  (List.range lines.length).filter fun i => p (lines.drop i)

theorem lineAt_eq {lines : List Str} {i : Nat} (h : i < lines.length) : lineAt lines i = lines[i] := by
  rw [lineAt, List.getD_eq_getElem?_getD, List.getElem?_eq_getElem h, Option.getD_some]

theorem gitStarts_eq (lines : List Str) : gitStarts lines = startsBy gitHead lines := by
  refine List.filter_congr fun i hi => ?_
  have hlt : i < lines.length := List.mem_range.mp hi
  rw [lineAt_eq hlt, List.drop_eq_getElem_cons hlt, gitHead]

theorem plainStarts_eq (lines : List Str) : plainStarts lines = startsBy plainHead lines := by
  cases lines with
  | nil => rfl
  | cons line lines =>
    rw [startsBy, List.length_cons, List.range_succ, List.filter_append]
    -- the last line has no next one
    have hlast : [lines.length].filter (fun i => plainHead ((line :: lines).drop i)) = [] := by
      have hdrop : (line :: lines).drop lines.length = [(line :: lines)[lines.length]] := by
        rw [List.drop_eq_getElem_cons (by simp)]
        simp
      rw [List.filter_cons, hdrop]
      rfl
    rw [hlast, List.append_nil]
    refine List.filter_congr fun i hi => ?_
    have hlt : i < lines.length := List.mem_range.mp hi
    have hi₀ : i < (line :: lines).length := by rw [List.length_cons]; omega
    have hi₁ : i + 1 < (line :: lines).length := by rw [List.length_cons]; omega
    rw [lineAt_eq hi₀, lineAt_eq hi₁, List.drop_eq_getElem_cons hi₀, List.drop_eq_getElem_cons hi₁,
      plainHead]

theorem startsBy_append (p : List Str → Bool) (xs ys : List Str) : startsBy p (xs ++ ys) =
    ((List.range xs.length).filter fun i => p (xs.drop i ++ ys))
      ++ (startsBy p ys).map (xs.length + ·) := by
  rw [startsBy, List.length_append, List.range_add, List.filter_append]
  congr 1
  · refine List.filter_congr fun i hi => ?_
    rw [List.drop_append_of_le_length (List.mem_range.mp hi).le]
  · rw [List.filter_map]
    congr 1
    refine List.filter_congr fun i _ => ?_
    rw [Function.comp_apply, ← List.drop_drop, List.drop_left]

/-! ## Blocks -/

/-- Where the blocks start in their concatenation, from position `k` on. -/
def offsets : Nat → List (List Str) → List Nat
  | _, [] => []
  | k, b :: blocks => k :: offsets (k + b.length) blocks

theorem map_add_offsets (j k : Nat) (blocks : List (List Str)) :
    (offsets k blocks).map (j + ·) = offsets (j + k) blocks := by
  induction blocks generalizing k with
  | nil => rfl
  | cons b blocks ih => rw [offsets, List.map_cons, ih, offsets, Nat.add_assoc]

theorem length_offsets (k : Nat) (blocks : List (List Str)) :
    (offsets k blocks).length = blocks.length := by
  induction blocks generalizing k with
  | nil => rfl
  | cons b blocks ih => rw [offsets, List.length_cons, ih, List.length_cons]

section Blocks

variable {p : List Str → Bool} {blocks : List (List Str)}

/-- Blocks that start with a header: their offsets are starts. -/
theorem offsets_sublist_startsBy (hne : ∀ b ∈ blocks, b ≠ [])
    (hhead : ∀ b ∈ blocks, ∀ rest, p (b ++ rest) = true) :
    (offsets 0 blocks).Sublist (startsBy p blocks.flatten) := by
  induction blocks with
  | nil => exact List.Sublist.slnil
  | cons b blocks ih =>
    obtain ⟨hb, hblocks⟩ := List.forall_mem_cons.mp hne
    obtain ⟨hp, hps⟩ := List.forall_mem_cons.mp hhead
    have hzero : 0 ∈ (List.range b.length).filter fun i => p (b.drop i ++ blocks.flatten) := by
      refine List.mem_filter.mpr ⟨List.mem_range.mpr (List.length_pos_of_ne_nil hb), ?_⟩
      exact hp _
    rw [List.flatten_cons, startsBy_append, offsets, Nat.zero_add,
      show offsets b.length blocks = (offsets 0 blocks).map (b.length + ·) from
        (map_add_offsets b.length 0 blocks).symm]
    exact (List.singleton_sublist.mpr hzero).append ((ih hblocks hps).map _)

/-- When no header stands inside a block there are no other starts. -/
theorem startsBy_flatten (hne : ∀ b ∈ blocks, b ≠ [])
    (hhead : ∀ b ∈ blocks, ∀ rest, p (b ++ rest) = true)
    (hinner : ∀ b ∈ blocks, ∀ rest : List (List Str), (∀ b' ∈ rest, b' ∈ blocks) →
      ∀ i, 0 < i → i < b.length → p (b.drop i ++ rest.flatten) = false) :
    startsBy p blocks.flatten = offsets 0 blocks := by
  suffices h : ∀ rest : List (List Str), (∀ b ∈ rest, b ∈ blocks) →
      startsBy p rest.flatten = offsets 0 rest from h blocks fun _ hb => hb
  intro rest hrest
  induction rest with
  | nil => rfl
  | cons b rest ih =>
    obtain ⟨hb, hsub⟩ := List.forall_mem_cons.mp hrest
    rw [List.flatten_cons, startsBy_append, ih hsub, map_add_offsets, offsets, Nat.zero_add,
      Nat.add_zero, ← List.singleton_append]
    congr 1
    obtain ⟨m, hm⟩ : ∃ m, b.length = m + 1 :=
      Nat.exists_eq_succ_of_ne_zero (List.length_pos_of_ne_nil (hne b hb)).ne'
    have hfirst : p (b.drop 0 ++ rest.flatten) = true := hhead b hb _
    rw [hm, List.range_succ_eq_map, List.filter_cons_of_pos (by exact hfirst), List.filter_map]
    refine congrArg (0 :: ·) (List.map_eq_nil_iff.mpr (List.filter_eq_nil_iff.mpr fun i hi => ?_))
    have hlt : i < m := List.mem_range.mp hi
    rw [Function.comp_apply, hinner b hb rest hsub (i + 1) (by omega) (by omega)]
    exact Bool.false_ne_true

end Blocks

/-! ## Sections -/

theorem length_sections (lines : List Str) (starts : List Nat) :
    (sections lines starts).length = starts.length := by
  induction starts with
  | nil => rfl
  | cons start starts ih =>
    cases starts with
    | nil => rfl
    | cons next starts =>
      rw [sections, List.length_cons, ih]
      rfl

/-- Cut at the offsets of its blocks, a text falls into its blocks. -/
theorem sections_offsets (before : List Str) (blocks : List (List Str)) :
    sections (before ++ blocks.flatten) (offsets before.length blocks) = blocks := by
  induction blocks generalizing before with
  | nil => rfl
  | cons b blocks ih =>
    cases blocks with
    | nil =>
      rw [offsets, offsets, sections, List.flatten_singleton, List.drop_left]
    | cons b' blocks =>
      have hrest := ih (before ++ b)
      rw [List.length_append, offsets, List.append_assoc, ← List.flatten_cons] at hrest
      rw [offsets, offsets, sections, hrest]
      congr 1
      rw [List.flatten_cons, ← List.append_assoc, List.take_append_of_le_length (by simp),
        List.take_of_length_le (by simp), List.drop_left]

/-! ## Any text is cut -/

section Cut

variable {α β : Type}

/-- What stands before the first suffix with `p`, and the pieces from one such suffix to the
next. -/
def cut (p : List α → Bool) : List α → List α × List (List α)
  | [] => ([], [])
  | x :: xs =>
    if p (x :: xs) then ([], (x :: (cut p xs).1) :: (cut p xs).2)
    else (x :: (cut p xs).1, (cut p xs).2)

theorem cut_eq (p : List α → Bool) (xs : List α) : (cut p xs).1 ++ (cut p xs).2.flatten = xs := by
  induction xs with
  | nil => rfl
  | cons x xs ih =>
    rw [cut]
    split
    · rw [List.nil_append, List.flatten_cons, List.cons_append, ih]
    · rw [List.cons_append, ih]

theorem cut_congr {p q : List α → Bool} {xs : List α} (h : ∀ s, s <:+ xs → p s = q s) :
    cut p xs = cut q xs := by
  induction xs with
  | nil => rfl
  | cons x xs ih =>
    rw [cut, cut, h _ (List.suffix_refl _), ih fun s hs => h s (hs.trans (List.suffix_cons x xs))]

/-- The blocks start where `p` holds. -/
theorem startsBy_cut (p : List Str → Bool) (lines : List Str) :
    startsBy p lines = offsets (cut p lines).1.length (cut p lines).2 := by
  induction lines with
  | nil => rfl
  | cons line lines ih =>
    have hsplit := startsBy_append p [line] lines
    rw [List.singleton_append, ih, map_add_offsets] at hsplit
    have hfirst : (List.range [line].length).filter (fun i => p ([line].drop i ++ lines))
        = if p (line :: lines) then [0] else [] := by
      show [0].filter _ = _
      rw [List.filter_cons]
      rfl
    rw [hsplit, hfirst, cut]
    split
    · simp [offsets, Nat.add_comm]
    · simp [Nat.add_comm]

/-- Rendered elements are cut between them when no other suffix has `p`. -/
theorem cut_flatMap {f : α → List β} {p : List β → Bool} {xs : List α}
    (hne : ∀ x ∈ xs, f x ≠ [])
    (hinner : ∀ x ys, x :: ys <:+ xs → ∀ s t, f x = s ++ t → s ≠ [] → t ≠ [] →
      p (t ++ ys.flatMap f) = false) :
    cut p (xs.flatMap f) = ((cut (fun ys => p (ys.flatMap f)) xs).1.flatMap f,
      (cut (fun ys => p (ys.flatMap f)) xs).2.map fun b => b.flatMap f) := by
  induction xs with
  | nil => rfl
  | cons x xs ih =>
    have ih := ih (fun y hy => hne y (List.mem_cons_of_mem _ hy))
      fun y ys hys => hinner y ys (hys.trans (List.suffix_cons x xs))
    obtain ⟨b, bs, hx⟩ := List.exists_cons_of_ne_nil (hne x List.mem_cons_self)
    -- behind the first rendered element of `x` there is no start up to the next one
    have hrest : ∀ s t, f x = s ++ t → s ≠ [] → cut p (t ++ xs.flatMap f)
        = (t ++ (cut p (xs.flatMap f)).1, (cut p (xs.flatMap f)).2) := by
      intro s t hst hs
      induction t generalizing s with
      | nil => rfl
      | cons c t iht =>
        have hno := hinner x xs (List.suffix_refl _) s (c :: t) hst hs (List.cons_ne_nil _ _)
        have htail := iht (s ++ [c]) (by simpa using hst) (by simp)
        rw [List.cons_append] at hno ⊢
        rw [cut, hno, htail]
        rfl
    have htail := hrest [b] bs hx (List.cons_ne_nil _ _)
    rw [List.flatMap_cons, hx, List.cons_append, cut, htail, ih, cut]
    have hsame : p (b :: (bs ++ xs.flatMap f)) = p ((x :: xs).flatMap f) := by
      rw [List.flatMap_cons, hx, List.cons_append]
    rw [hsame]
    split
    · rw [List.map_cons, List.flatMap_cons, hx]
      rfl
    · rw [List.flatMap_cons, hx]
      rfl

theorem cut_map (f : α → β) (p : List β → Bool) (xs : List α) :
    cut p (xs.map f) = ((cut (fun ys => p (ys.map f)) xs).1.map f,
      (cut (fun ys => p (ys.map f)) xs).2.map fun b => b.map f) := by
  induction xs with
  | nil => rfl
  | cons x xs ih =>
    rw [List.map_cons, cut, ih, cut]
    split
    · next h =>
      rw [if_pos (show p ((x :: xs).map f) = true from h)]
      rfl
    · next h =>
      rw [if_neg (show ¬p ((x :: xs).map f) = true from h)]
      rfl

end Cut

/-- The headers that a text is cut at. -/
def headStyle (lines : List Str) : List Str → Bool :=
  if lines.any fun line => startswith line gitHeader then gitHead else plainHead

theorem sectionStarts_eq (lines : List Str) :
    sectionStarts lines = startsBy (headStyle lines) lines := by
  have hany : gitStarts lines ≠ [] ↔ (lines.any fun line => startswith line gitHeader) = true := by
    rw [ne_eq, gitStarts, List.filter_eq_nil_iff, List.any_eq_true]
    constructor
    · intro hnot
      by_contra hnone
      refine hnot fun i hi hline => hnone ⟨_, List.getElem_mem (List.mem_range.mp hi), ?_⟩
      rwa [lineAt_eq (List.mem_range.mp hi)] at hline
    · rintro ⟨line, hline, hgit⟩ hnone
      obtain ⟨i, hi, rfl⟩ := List.getElem_of_mem hline
      refine hnone i (List.mem_range.mpr hi) ?_
      rwa [lineAt_eq hi]
  rw [sectionStarts, headStyle, gitStarts_eq, plainStarts_eq, ← gitStarts_eq]
  by_cases h : (lines.any fun line => startswith line gitHeader) = true
  · rw [if_pos (hany.mpr h), if_pos h, gitStarts_eq]
  · rw [if_neg (mt hany.mp h), if_neg h]

/-- The sections are the pieces between the headers. -/
theorem sections_sectionStarts (lines : List Str) :
    sections lines (sectionStarts lines) = (cut (headStyle lines) lines).2 := by
  have hstarts : sectionStarts lines
      = offsets (cut (headStyle lines) lines).1.length (cut (headStyle lines) lines).2 := by
    rw [sectionStarts_eq]
    exact startsBy_cut _ _
  have hsections := sections_offsets (cut (headStyle lines) lines).1 (cut (headStyle lines) lines).2
  rw [cut_eq] at hsections
  rw [hstarts, hsections]

/-! ## The parse -/

/-- The end of the parse: the files, unless none has a hunk. -/
def filesOfParsed (parsed : List (FileDiff × Bool)) : Except PyError (List FileDiff) :=
  if parsed.any (·.2) then .ok (parsed.map (·.1))
  else .error (.diffParseError (lit "The diff contains no valid hunks."))

theorem mapM_parseSection_eq_ok {blocks : List (List Str)} {files : List FileDiff} :
    (blocks.mapM parseSection).bind filesOfParsed = .ok files ↔
      ∃ parsed, List.Forall₂ (fun b p => parseSection b = .ok p) blocks parsed ∧
        parsed.any (·.2) = true ∧ parsed.map (·.1) = files := by
  constructor
  · intro h
    obtain ⟨parsed, hparsed, h⟩ := bind_eq_ok.mp h
    unfold filesOfParsed at h
    split at h
    · next hany => exact ⟨parsed, mapM_eq_ok.mp hparsed, hany, Except.ok.inj h⟩
    · cases h
  · rintro ⟨parsed, hparsed, hany, rfl⟩
    refine bind_eq_ok.mpr ⟨parsed, mapM_eq_ok.mpr hparsed, ?_⟩
    rw [filesOfParsed, if_pos hany]

/-- A text with a line that is not blank is not blank. -/
theorem not_blank_of_mem_splitlines {diff line : Str} (hline : line ∈ splitlines diff) {c : Chr}
    (hc : c ∈ line) (hspace : isSpace c = false) : ¬(diff = [] ∨ strip diff = []) := by
  have hmem : c ∈ diff := by
    rw [← flatten_splitlines diff]
    exact List.mem_flatten.mpr ⟨line, hline, hc⟩
  rintro (hnil | hnil)
  · rw [hnil] at hmem
    cases hmem
  · have hall := strip_eq_nil_iff.mp hnil c hmem
    rw [hspace] at hall
    cases hall

/-- The section behind its first `+++ ` line. -/
theorem parseSection_split {before rest : List Str} {new : Str}
    (hbefore : ∀ l ∈ before, startswith l newHeader = false)
    (hnew : startswith new newHeader = true) :
    parseSection (before ++ new :: rest) =
      if (before ++ new :: rest).any (fun l => startswith l oldHeader) = false then
        .error (.diffParseError (lit "A file section is missing ---/+++ headers."))
      else if cleanPath (new.drop 4) = [] then .error (.diffParseError (lit "A file path is empty."))
      else (rest.foldlM (scanLine (cleanPath (new.drop 4))) HunkScan.start).map fun st =>
        (⟨cleanPath (new.drop 4), (before ++ new :: rest).flatten, st.lines⟩, st.sawHunk) := by
  have hidx : (before ++ new :: rest).findIdx? (fun l => startswith l newHeader)
      = some before.length := by
    rw [List.findIdx?_append, List.findIdx?_eq_none_iff.mpr hbefore, List.findIdx?_cons, hnew]
    simp
  have hline : lineAt (before ++ new :: rest) before.length = new := by
    rw [lineAt, List.getD_eq_getElem?_getD, List.getElem?_append_right le_rfl]
    simp
  have hdrop : (before ++ new :: rest).drop (before.length + 1) = rest := by
    rw [← List.drop_drop, List.drop_left]
    rfl
  unfold parseSection
  rw [hidx]
  cases hany : (before ++ new :: rest).any (fun l => startswith l oldHeader) with
  | false => rfl
  | true =>
    simp only [Bool.not_true, Bool.false_eq_true, Bool.true_eq_false, if_false, hline, hdrop]
    split <;> rfl

theorem parseSection_noHeader {lines : List Str}
    (h : ∀ l ∈ lines, startswith l newHeader = false) : parseSection lines
      = .error (.diffParseError (lit "A file section is missing ---/+++ headers.")) := by
  unfold parseSection
  rw [List.findIdx?_eq_none_iff.mpr h]
  rfl

/-- A section whose first `+++ ` line stands right behind a `--- ` line. -/
theorem parseSection_header {before rest : List Str} {old new : Str}
    (hbefore : ∀ l ∈ before, startswith l newHeader = false)
    (hold : startswith old newHeader = false) (hold' : startswith old oldHeader = true)
    (hnew : startswith new newHeader = true) :
    parseSection (before ++ old :: new :: rest) =
      if cleanPath (new.drop 4) = [] then .error (.diffParseError (lit "A file path is empty."))
      else (rest.foldlM (scanLine (cleanPath (new.drop 4))) HunkScan.start).map fun st =>
        (⟨cleanPath (new.drop 4), (before ++ old :: new :: rest).flatten, st.lines⟩, st.sawHunk) := by
  have hsplit : before ++ old :: new :: rest = (before ++ [old]) ++ new :: rest := by simp
  have hnone : ∀ l ∈ before ++ [old], startswith l newHeader = false :=
    List.forall_mem_append.mpr ⟨hbefore, List.forall_mem_singleton.mpr hold⟩
  have hany : ((before ++ [old]) ++ new :: rest).any (fun l => startswith l oldHeader) = true :=
    List.any_eq_true.mpr ⟨old, by simp, hold'⟩
  rw [hsplit, parseSection_split hnone hnew, hany, if_neg Bool.noConfusion]

/-- A text that is cut into blocks is parsed block by block. -/
theorem parseUnifiedDiff_sections {diff : Str} {before : List Str} {blocks : List (List Str)}
    (hlines : splitlines diff = before ++ blocks.flatten)
    (hstarts : sectionStarts (before ++ blocks.flatten) = offsets before.length blocks)
    (hne : blocks ≠ []) (hblank : ¬(diff = [] ∨ strip diff = [])) :
    parseUnifiedDiff diff = (blocks.mapM parseSection).bind filesOfParsed := by
  have hsome : offsets before.length blocks ≠ [] := by
    rw [ne_eq, ← List.length_eq_zero_iff, length_offsets, List.length_eq_zero_iff]
    exact hne
  unfold parseUnifiedDiff
  simp only [Bool.or_eq_true, decide_eq_true_eq, hblank, if_false, hlines, hstarts, hsome]
  rw [sections_offsets]
  cases blocks.mapM parseSection with
  | error e => rfl
  | ok parsed =>
    unfold filesOfParsed
    cases hany : parsed.any (·.2) with
    | true => simp [hany, bind, Except.bind, pure, Except.pure]
    | false => simp [hany, bind, Except.bind, throw, throwThe, MonadExceptOf.throw]

/-- A text is cut at its headers and parsed block by block. -/
theorem parseUnifiedDiff_blocks {diff : Str} (hblank : ¬(diff = [] ∨ strip diff = []))
    (hne : (cut (headStyle (splitlines diff)) (splitlines diff)).2 ≠ []) : parseUnifiedDiff diff
      = ((cut (headStyle (splitlines diff)) (splitlines diff)).2.mapM parseSection).bind
        filesOfParsed := by
  have hlines := (cut_eq (headStyle (splitlines diff)) (splitlines diff)).symm
  refine parseUnifiedDiff_sections hlines ?_ hne hblank
  rw [← hlines, sectionStarts_eq]
  exact startsBy_cut _ _

theorem parseUnifiedDiff_cut {diff : Str} {files : List FileDiff} :
    parseUnifiedDiff diff = .ok files ↔ ¬(diff = [] ∨ strip diff = []) ∧
      (cut (headStyle (splitlines diff)) (splitlines diff)).2 ≠ [] ∧
      ((cut (headStyle (splitlines diff)) (splitlines diff)).2.mapM parseSection).bind filesOfParsed
        = .ok files := by
  constructor
  · intro hok
    have hblank : ¬(diff = [] ∨ strip diff = []) := by
      intro hblank
      unfold parseUnifiedDiff at hok
      simp only [Bool.or_eq_true, decide_eq_true_eq, hblank, if_true] at hok
      cases hok
    have hne : (cut (headStyle (splitlines diff)) (splitlines diff)).2 ≠ [] := by
      intro hnil
      have hstarts := (sectionStarts_eq (splitlines diff)).trans (startsBy_cut _ _)
      unfold parseUnifiedDiff at hok
      simp only [Bool.or_eq_true, decide_eq_true_eq, hblank, if_false, hstarts, hnil, offsets,
        if_true] at hok
      cases hok
    exact ⟨hblank, hne, parseUnifiedDiff_blocks hblank hne ▸ hok⟩
  · rintro ⟨hblank, hne, hok⟩
    rw [parseUnifiedDiff_blocks hblank hne]
    exact hok

end DiffReview
