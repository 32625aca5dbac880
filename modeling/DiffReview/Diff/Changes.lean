import DiffReview.Diff.Texts

/-!
# DiffReview — line boundaries inside lines

`str.splitlines` ends a line at more characters than LF. A diff is written twice here: as it
is, and with letters of its body lines replaced by such characters.
-/

namespace DiffReview

open Py

/-! ## Two texts of one diff -/

/-- An ASCII letter, or any character beyond ASCII that ends no line. -/
def isLetter (c : Chr) : Bool :=
  (97 ≤ c.val && c.val ≤ 122) || (65 ≤ c.val && c.val ≤ 90) || (128 ≤ c.val && !isLineBreak c)

/-- A character and what stands in its place: a letter may become a line boundary that is not
LF. -/
def Replaces (c d : Chr) : Prop :=
  d = c ∨ isLetter c = true ∧ isLineBreak d = true ∧ d ≠ lf

/-- A line of a hunk and its replacement. A CR in front of the LF belongs to the line's end. -/
structure ChangedLine where
  kind : LineKind
  content : Str
  changed : Str
  crlf : Bool
  ended : lf ∉ content
  replaced : List.Forall₂ Replaces content changed
  notCrLf : crlf = false → changed.getLast? ≠ some cr

namespace ChangedLine

variable (x : ChangedLine)

def lineEnd : Str := if x.crlf then [cr, lf] else [lf]

def text : Str := x.kind.marker :: (x.content ++ x.lineEnd)

def changedText : Str := x.kind.marker :: (x.changed ++ x.lineEnd)

/-- The lines that `splitlines` makes of the replacement. -/
def pieces : List Str := splitlines x.changedText

/-- The line starts with `+++` or with `---`. -/
def likeHeader : Bool :=
  (x.kind = .added && startswith x.content (lit "++"))
    || (x.kind = .removed && startswith x.content (lit "--"))

end ChangedLine

structure PatchHunk where
  header : Str
  ended : lf ∉ header
  isHeader : (hunkRe.matchStart (header ++ [lf])).isSome = true
  body : List ChangedLine

/-- A file of a diff. In front of its `--- ` line may stand lines such as `diff --git`, `index`
or `new file mode`. -/
structure PatchFile where
  preamble : List Str
  preamble_ended : ∀ l ∈ preamble, lf ∉ l
  preamble_letter : ∀ l ∈ preamble, ∃ c ∈ l.head?, isLetter c = true
  old : Str
  old_ended : lf ∉ old
  new : Str
  new_ended : lf ∉ new
  hunks : List PatchHunk

def PatchFile.head (f : PatchFile) : List Str :=
  f.preamble ++ [oldHeader ++ f.old, newHeader ++ f.new]

def PatchHunk.text (line : ChangedLine → Str) (h : PatchHunk) : List Str :=
  (h.header ++ [lf]) :: h.body.map line

def PatchFile.text (line : ChangedLine → Str) (f : PatchFile) : List Str :=
  f.head.map (· ++ [lf]) ++ f.hunks.flatMap (PatchHunk.text line)

def originalPatch (files : List PatchFile) : Str :=
  (files.flatMap (PatchFile.text ChangedLine.text)).flatten

def changedPatch (files : List PatchFile) : Str :=
  (files.flatMap (PatchFile.text ChangedLine.changedText)).flatten

/-! ## The same report -/

/-- The lines of the new files, in the order of the diff. -/
def newFileLines (files : List PatchFile) : List ChangedLine :=
  files.flatMap fun f => f.hunks.flatMap fun h => h.body.filter fun x => x.kind ≠ .removed

/-- The reported line `l` is the line `x`. -/
structure ChangedLine.IsShown (l : NewFileLine) (x : ChangedLine) : Prop where
  added : l.added = decide (x.kind = .added)
  content : l.content = x.content

/-- The same line in the report of the changed text. -/
def ChangedLine.replaceIn (l : NewFileLine) (x : ChangedLine) : NewFileLine :=
  { l with content := x.changed }

/-- The parse of the changed text reports the lines of the original, with the replacements. -/
def SameReport (files : List PatchFile) : Prop :=
  ∀ fs, parseUnifiedDiff (originalPatch files) = .ok fs →
    ∃ fs', parseUnifiedDiff (changedPatch files) = .ok fs' ∧
      ∃ xs, xs.Sublist (newFileLines files) ∧
        List.Forall₂ ChangedLine.IsShown (fs.flatMap (·.lines)) xs ∧
        fs'.flatMap (·.lines) = (fs.flatMap (·.lines)).zipWith ChangedLine.replaceIn xs

/-! ## Harmless replacements -/

/-- A file header. -/
def isFileHeader (line : Str) : Bool :=
  startswith line gitHeader || startswith line oldHeader || startswith line newHeader

/-- Outside a hunk nothing is seen of the line. -/
def isQuiet (line : Str) : Bool := (hunkRe.matchStart line).isNone && !isFileHeader line

/-- The branches of the scan that change nothing. -/
def isPassedOver (line : Str) : Bool :=
  startswith line noNewlineMarker || (startswith line (lit "-") && !startswith line (lit "---"))

/-- A line that no branch of the scan is for. -/
def isStray (line : Str) : Bool :=
  isQuiet line && !startswith line noNewlineMarker && !startswith line (lit " ")
    && (!startswith line (lit "+") || startswith line (lit "+++"))
    && (!startswith line (lit "-") || startswith line (lit "---"))

def ChangedLine.Quiet (x : ChangedLine) : Prop :=
  x.changed = x.content ∨ x.likeHeader = false ∧ ∀ p ∈ x.pieces, isQuiet p = true

/-- How the scan of the changed text stands to the scan of the original: at the same line, out
of the hunk before it has ended, or both behind its end. -/
inductive Reading where
  | inStep
  | lost
  | ended

/-- Body lines behind which the changed text is still read as it should be. -/
inductive ChangedLine.Leads : Reading → ChangedLine → Reading → Prop
  | unchanged {x : ChangedLine} (h : x.changed = x.content) : Leads .inStep x .inStep
  | closes {r : Reading} {x : ChangedLine} (h : x.changed = x.content)
      (hlike : x.likeHeader = true) : Leads r x .ended
  /-- A removed line whose pieces are passed over. -/
  | removed {x : ChangedLine} (hkind : x.kind = .removed) (hlike : x.likeHeader = false)
      (hpieces : ∀ p ∈ x.pieces, isPassedOver p = true) : Leads .inStep x .inStep
  /-- A removed line of which a stray piece ends the hunk. -/
  | stray {x : ChangedLine} (hkind : x.kind = .removed) (hlike : x.likeHeader = false)
      (ps : List Str) (p : Str) (qs : List Str) (hpieces : x.pieces = ps ++ p :: qs)
      (hps : ∀ p ∈ ps, isPassedOver p = true) (hp : isStray p = true)
      (hqs : ∀ q ∈ qs, isQuiet q = true) : Leads .inStep x .lost
  /-- A line of the new file that is cut at its end: it is reported, and what is left of it, an
  empty line, ends the hunk. -/
  | last {x : ChangedLine} (hkind : x.kind ≠ .removed) (hlike : x.likeHeader = false)
      (s : Str) (c d : Chr) (hcontent : x.content = s ++ [c]) (hchanged : x.changed = s ++ [d])
      (hd : isLineBreak d = true) (hcr : d ≠ cr) : Leads .inStep x .lost
  /-- Behind it only removed lines may stand. -/
  | unseen {x : ChangedLine} (hkind : x.kind = .removed) (hquiet : x.Quiet) : Leads .lost x .lost
  | skipped {x : ChangedLine} (hquiet : x.Quiet) : Leads .ended x .ended

inductive HarmlessBody : Reading → List ChangedLine → Prop
  | nil {r : Reading} : HarmlessBody r []
  | cons {r r' : Reading} {x : ChangedLine} {body : List ChangedLine} (hx : x.Leads r r')
      (hbody : HarmlessBody r' body) : HarmlessBody r (x :: body)

/-- No line of the original is cut, and no replacement cuts one where that matters. -/
def HarmlessChange (files : List PatchFile) : Prop :=
  ∀ f ∈ files, (∀ l ∈ f.head, NoBreak l) ∧ ∀ h ∈ f.hunks,
    NoBreak h.header ∧ (∀ x ∈ h.body, NoBreak x.content) ∧ HarmlessBody .inStep h.body

end DiffReview
