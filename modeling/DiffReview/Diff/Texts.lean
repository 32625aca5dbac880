import DiffReview.Diff.Scan
import DiffReview.Diff.Sections

/-!
# DiffReview — the text of a diff

A diff as its author writes it: any path, any line that `HUNK_RE` matches as a hunk header,
git and plain files in any order. The lines of a hunk are of any type `β`; `line` says what
is written for one of them.
-/

namespace DiffReview

open Py Raise

structure HunkText (β : Type) where
  header : Str
  header_noBreak : NoBreak header
  isHeader : (hunkRe.matchStart (header ++ [lf])).isSome = true
  body : List β

/-- `gitLine` is what stands behind `diff --git `; a plain file has none. -/
structure FileText (β : Type) where
  gitLine : Option Str
  gitLine_noBreak : ∀ s ∈ gitLine, NoBreak s
  path : Str
  path_noBreak : NoBreak path
  hunks : List (HunkText β)

variable {β : Type} (line : β → Str)

def HunkText.text (h : HunkText β) : List Str := h.header :: h.body.map line

/-- The lines before the hunks. -/
def FileText.head (f : FileText β) : List Str :=
  f.gitLine.toList.map (gitHeader ++ ·) ++ [lit "--- a/" ++ f.path, lit "+++ b/" ++ f.path]

def FileText.text (f : FileText β) : List Str := f.head ++ f.hunks.flatMap (HunkText.text line)

def renderFiles (files : List (FileText β)) : Str := joinLines (files.flatMap (FileText.text line))

/-- The path the parser reads, with what `_clean_path` takes off. -/
def FileText.readPath (f : FileText β) : Str := cleanPath (lit "b/" ++ f.path ++ [lf])

/-! ## Headers -/

theorem startswith_hunkHeader {s p : Str} (h : (hunkRe.matchStart s).isSome = true)
    (hp : p.head? ≠ some (Chr.ofChar '@')) (hne : p ≠ []) : startswith s p = false := by
  by_contra hstart
  obtain ⟨c, p, rfl⟩ := List.exists_cons_of_ne_nil hne
  cases s with
  | nil => exact hstart rfl
  | cons d s =>
    rw [Bool.not_eq_false, startswith_cons, Bool.and_eq_true, beq_iff_eq] at hstart
    -- a text that does not start with `@` is no hunk header
    have hnone : hunkRe.matchStart (d :: s) = none := by
      refine hunkRe_eq_none fun hhead => hp ?_
      rw [List.head?_cons] at hhead ⊢
      rw [hstart.1, hhead]
    rw [hnone] at h
    cases h

namespace FileText

variable (f : FileText β)

theorem noBreak_head : ∀ l ∈ f.head, NoBreak l := by
  intro l hl
  rcases List.mem_append.mp hl with hl | hl
  · obtain ⟨s, hs, rfl⟩ := List.mem_map.mp hl
    exact (noBreak_of_all (by decide)).append (f.gitLine_noBreak s (Option.mem_toList.mp hs))
  · rcases List.mem_pair.mp hl with rfl | rfl
    · exact (noBreak_of_all (by decide)).append f.path_noBreak
    · exact (noBreak_of_all (by decide)).append f.path_noBreak

/-- The section of a file: its path is that of its header, whatever stands behind it. -/
theorem parseSection_head (rest : List Str) :
    parseSection (f.head.map (· ++ [lf]) ++ rest) =
      if f.readPath = [] then .error (.diffParseError (lit "A file path is empty."))
      else (rest.foldlM (scanLine f.readPath) HunkScan.start).map fun st =>
        (⟨f.readPath, (f.head.map (· ++ [lf]) ++ rest).flatten, st.lines⟩, st.sawHunk) := by
  have hbefore : ∀ l ∈ (f.gitLine.toList.map (gitHeader ++ ·)).map (· ++ [lf]),
      startswith l newHeader = false := by
    intro l hl
    rw [List.map_map] at hl
    obtain ⟨s, -, rfl⟩ := List.mem_map.mp hl
    rfl
  have hsplit : f.head.map (· ++ [lf]) ++ rest =
      (f.gitLine.toList.map (gitHeader ++ ·)).map (· ++ [lf])
        ++ (lit "--- a/" ++ f.path ++ [lf]) :: (lit "+++ b/" ++ f.path ++ [lf]) :: rest := by
    unfold FileText.head
    simp
  rw [hsplit]
  exact parseSection_header hbefore rfl rfl rfl

end FileText

end DiffReview
