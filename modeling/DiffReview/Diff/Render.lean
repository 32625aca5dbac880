import DiffReview.Spec.Parser

/-!
# DiffReview — diffs as data

What a unified diff says, as data that cannot be ill formed, and the text it is written
as. This is the abstract side of `parse_unified_diff`: nothing here is taken from the
parser.
-/

namespace DiffReview

open Py

/-- How a line of a hunk stands to the new file. -/
inductive LineKind where
  | context
  | added
  | removed
deriving DecidableEq, Repr

def LineKind.marker : LineKind → Chr
  | .context => Chr.ofChar ' '
  | .added => Chr.ofChar '+'
  | .removed => Chr.ofChar '-'

/-- A text without a line boundary. -/
def NoBreak (s : Str) : Prop := ∀ c ∈ s, isLineBreak c = false

theorem NoBreak.append {s t : Str} (hs : NoBreak s) (ht : NoBreak t) : NoBreak (s ++ t) :=
  List.forall_mem_append.mpr ⟨hs, ht⟩

theorem noBreak_of_all {s : Str} (h : s.all (fun c => !isLineBreak c) = true) : NoBreak s := by
  intro c hc
  simpa using List.all_eq_true.mp h c hc

structure BodyLine where
  kind : LineKind
  content : Str
  noBreak : NoBreak content

structure Hunk where
  oldStart : Nat
  newStart : Nat
  body : List BodyLine

/-- ASCII letters, digits, `.`, `_`, `-` and `/`. -/
def isPathChr (c : Chr) : Bool :=
  (97 ≤ c.val && c.val ≤ 122) || (65 ≤ c.val && c.val ≤ 90) || (48 ≤ c.val && c.val ≤ 57)
    || c.val == 45 || c.val == 46 || c.val == 47 || c.val == 95

structure DiffFile where
  path : Str
  path_ne : path ≠ []
  path_chars : ∀ c ∈ path, isPathChr c = true
  hunks : List Hunk
  hunks_ne : hunks ≠ []

/-- The files of a diff, each with a `diff --git` line or none. -/
structure UnifiedDiff where
  git : Bool
  files : List DiffFile
  files_ne : files ≠ []

/-! ## The text -/

def Hunk.oldCount (h : Hunk) : Nat := h.body.countP fun l => l.kind ≠ .added

def Hunk.newCount (h : Hunk) : Nat := h.body.countP fun l => l.kind ≠ .removed

/-- `@@ -o,oc +s,nc @@` -/
def Hunk.header (h : Hunk) : Str :=
  lit "@@ -" ++ decimal h.oldStart ++ lit "," ++ decimal h.oldCount ++ lit " +"
    ++ decimal h.newStart ++ lit "," ++ decimal h.newCount ++ lit " @@"

def BodyLine.text (l : BodyLine) : Str := l.kind.marker :: l.content

theorem BodyLine.noBreak_text (l : BodyLine) : NoBreak l.text := by
  refine List.forall_mem_cons.mpr ⟨?_, l.noBreak⟩
  cases l.kind <;> decide

def Hunk.text (h : Hunk) : List Str := h.header :: h.body.map BodyLine.text

def DiffFile.gitLine (f : DiffFile) : Str := lit "diff --git a/" ++ f.path ++ lit " b/" ++ f.path

def DiffFile.oldLine (f : DiffFile) : Str := lit "--- a/" ++ f.path

def DiffFile.newLine (f : DiffFile) : Str := lit "+++ b/" ++ f.path

def DiffFile.text (f : DiffFile) (git : Bool) : List Str :=
  (if git then [f.gitLine] else []) ++ f.oldLine :: f.newLine :: f.hunks.flatMap Hunk.text

/-- The lines of a text, each ended by LF. -/
def joinLines (lines : List Str) : Str := lines.flatMap fun l => l ++ [lf]

def UnifiedDiff.render (d : UnifiedDiff) : Str := joinLines (d.files.flatMap fun f => f.text d.git)

/-! ## What it says -/

/-- The new-file lines among `body`, numbered from `n`. -/
def newLines (path : Str) (hunk : Int) : Nat → List BodyLine → List NewFileLine
  | _, [] => []
  | n, l :: body =>
    if l.kind = .removed then newLines path hunk n body
    else ⟨path, n, l.content, l.kind = .added, hunk⟩ :: newLines path hunk (n + 1) body

/-- The new-file lines of some hunks, of which the first is number `hunk`. -/
def hunksNewLines (path : Str) : Int → List Hunk → List NewFileLine
  | _, [] => []
  | hunk, h :: hunks => newLines path hunk h.newStart h.body ++ hunksNewLines path (hunk + 1) hunks

def DiffFile.newLines (f : DiffFile) : List NewFileLine := hunksNewLines f.path 0 f.hunks

/-- A new-file line as a reader of the diff sees it, without the number of its hunk. -/
def NewFileLine.seen (l : NewFileLine) : Str × Nat × Str × Bool := (l.path, l.line, l.content, l.added)

/-- The parser reads from the text of `d` the files and the lines that `d` has. -/
def ReadsBack (d : UnifiedDiff) : Prop := ∃ files, parseUnifiedDiff d.render = .ok files ∧
  files.map (fun f => (f.path, f.lines.map NewFileLine.seen))
    = d.files.map fun f => (f.path, f.newLines.map NewFileLine.seen)

/-! ## When it is read -/

/-- An added line whose text starts with `+++`, or a removed one whose text starts with `---`. -/
def BodyLine.likeHeader (l : BodyLine) : Bool :=
  (l.kind = .added && startswith l.content (lit "++"))
    || (l.kind = .removed && startswith l.content (lit "--"))

/-- From its first line that looks like a file header on, the hunk has only removed lines. -/
def Hunk.Clean (h : Hunk) : Prop :=
  ∀ l ∈ h.body.dropWhile fun l => !l.likeHeader, l.kind = .removed

def DiffFile.Readable (f : DiffFile) : Prop :=
  (∀ h ∈ f.hunks, h.newStart < 10 ^ maxStrDigits) ∧
    if f.path = devNull then ∀ h ∈ f.hunks, ∀ l ∈ h.body, l.kind = .removed
    else ∀ h ∈ f.hunks, h.Clean

end DiffReview
