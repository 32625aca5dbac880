import DiffReview.Diff.Lines
import DiffReview.Diff.Sections

/-!
# DiffReview — texts cut at their git headers

A text with a `diff --git ` line is cut at these lines alone: it is a preamble, which is
dropped, and git blocks, each of which is parsed by itself (`parseUnifiedDiff_git`).
-/

namespace DiffReview

open Py Raise

/-- A `diff --git ` line and the lines up to the next one. -/
def IsGitBlock (block : List Str) : Prop :=
  ∃ first rest, block = first :: rest ∧ startswith first gitHeader = true ∧
    ∀ line ∈ rest, startswith line gitHeader = false

/-- Any text falls into a preamble and git blocks. -/
theorem exists_gitBlocks (lines : List Str) : ∃ (preamble : List Str) (blocks : List (List Str)),
    lines = preamble ++ blocks.flatten ∧ (∀ line ∈ preamble, startswith line gitHeader = false) ∧
      ∀ block ∈ blocks, IsGitBlock block := by
  induction lines with
  | nil => exact ⟨[], [], rfl, nofun, nofun⟩
  | cons line lines ih =>
    obtain ⟨preamble, blocks, rfl, hpreamble, hblocks⟩ := ih
    cases hline : startswith line gitHeader with
    | true =>
      -- the line opens a block, to which the preamble behind it belongs
      refine ⟨[], (line :: preamble) :: blocks, rfl, nofun, List.forall_mem_cons.mpr ⟨?_, hblocks⟩⟩
      exact ⟨line, preamble, rfl, hline, hpreamble⟩
    | false =>
      exact ⟨line :: preamble, blocks, rfl, List.forall_mem_cons.mpr ⟨hline, hpreamble⟩, hblocks⟩

theorem countP_gitHeader_gitBlocks {preamble : List Str} {blocks : List (List Str)}
    (hpreamble : ∀ line ∈ preamble, startswith line gitHeader = false)
    (hblocks : ∀ block ∈ blocks, IsGitBlock block) :
    (preamble ++ blocks.flatten).countP (fun line => startswith line gitHeader) = blocks.length := by
  have hnone : ∀ {lines : List Str}, (∀ line ∈ lines, startswith line gitHeader = false) →
      lines.countP (fun line => startswith line gitHeader) = 0 := fun h =>
    List.countP_eq_zero.mpr fun line hline => by rw [h line hline]; exact Bool.false_ne_true
  rw [List.countP_append, hnone hpreamble, Nat.zero_add]
  clear hpreamble
  induction blocks with
  | nil => rfl
  | cons block blocks ih =>
    obtain ⟨⟨first, rest, rfl, hfirst, hrest⟩, hothers⟩ := List.forall_mem_cons.mp hblocks
    have hcount := ih hothers
    rw [List.flatten_cons, List.countP_append, hcount, List.countP_cons, hfirst, hnone hrest,
      List.length_cons]
    show 0 + 1 + blocks.length = blocks.length + 1
    omega

section Blocks

variable {preamble : List Str} {blocks : List (List Str)}
  (hpreamble : ∀ line ∈ preamble, startswith line gitHeader = false)
  (hblocks : ∀ block ∈ blocks, IsGitBlock block)
include hpreamble hblocks

theorem gitStarts_gitBlocks :
    gitStarts (preamble ++ blocks.flatten) = offsets preamble.length blocks := by
  have hnone : (List.range preamble.length).filter
      (fun i => gitHead (preamble.drop i ++ blocks.flatten)) = [] := by
    refine List.filter_eq_nil_iff.mpr fun i hi => ?_
    have hlt : i < preamble.length := List.mem_range.mp hi
    rw [List.drop_eq_getElem_cons hlt, List.cons_append, gitHead, hpreamble _ (List.getElem_mem hlt)]
    exact Bool.false_ne_true
  have hstarts : startsBy gitHead blocks.flatten = offsets 0 blocks := by
    refine startsBy_flatten (fun b hb => ?_) (fun b hb rest => ?_) fun b hb rest _ i hi hlt => ?_
    · obtain ⟨first, lines, rfl, -, -⟩ := hblocks b hb
      exact List.cons_ne_nil _ _
    · obtain ⟨first, lines, rfl, hfirst, -⟩ := hblocks b hb
      exact hfirst
    · obtain ⟨first, lines, rfl, -, hlines⟩ := hblocks b hb
      obtain ⟨j, rfl⟩ : ∃ j, i = j + 1 := ⟨i - 1, by omega⟩
      have hj : j < lines.length := by simpa using hlt
      rw [List.drop_succ_cons, List.drop_eq_getElem_cons hj, List.cons_append, gitHead]
      exact hlines _ (List.getElem_mem hj)
  rw [gitStarts_eq, startsBy_append, hnone, List.nil_append, hstarts, map_add_offsets, Nat.add_zero]

/-- The sections of a text are its git blocks, if it has any. -/
theorem sectionStarts_gitBlocks (hne : blocks ≠ []) :
    sectionStarts (preamble ++ blocks.flatten) = offsets preamble.length blocks := by
  have hoffsets : offsets preamble.length blocks ≠ [] := by
    rw [ne_eq, ← List.length_eq_zero_iff, length_offsets, List.length_eq_zero_iff]
    exact hne
  rw [sectionStarts, gitStarts_gitBlocks hpreamble hblocks, if_pos hoffsets]

end Blocks

/-- A text with git blocks is parsed block by block. -/
theorem parseUnifiedDiff_git {diff : Str} {preamble : List Str} {blocks : List (List Str)}
    (hlines : splitlines diff = preamble ++ blocks.flatten)
    (hpreamble : ∀ line ∈ preamble, startswith line gitHeader = false)
    (hblocks : ∀ block ∈ blocks, IsGitBlock block) (hne : blocks ≠ []) :
    parseUnifiedDiff diff = (blocks.mapM parseSection).bind filesOfParsed := by
  have hstarts := sectionStarts_gitBlocks hpreamble hblocks hne
  obtain ⟨block, hblock⟩ := List.exists_mem_of_ne_nil blocks hne
  obtain ⟨first, rest, rfl, hfirst, -⟩ := hblocks block hblock
  have hmem : first ∈ splitlines diff := by
    rw [hlines]
    refine List.mem_append_right _ (List.mem_flatten.mpr ⟨_, hblock, List.mem_cons_self⟩)
  have hd : Chr.ofChar 'd' ∈ first := mem_of_startswith hfirst (by decide)
  exact parseUnifiedDiff_sections hlines hstarts hne (not_blank_of_mem_splitlines hmem hd rfl)

end DiffReview
