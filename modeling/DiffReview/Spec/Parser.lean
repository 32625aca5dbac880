import DiffReview.Lib.Regex
import DiffReview.Spec.Errors

/-!
# DiffReview — the unified-diff parser

`app/diff/parser.py`. The text is cut at the file headers (`sectionStarts`) and each
section is scanned line by line by `scanLine`, whose state `HunkScan` holds the loop
variables of `parse_unified_diff`. The declared hunk counts are never read: where a hunk
ends is decided by the prefix of each line alone.
-/

namespace DiffReview

open Py

structure NewFileLine where
  path : Str
  line : Nat
  content : Str
  added : Bool
  hunk : Int
deriving DecidableEq, Repr

structure FileDiff where
  path : Str
  raw : Str
  lines : List NewFileLine
deriving DecidableEq, Repr

/-- `len(self.raw.encode("utf-8"))`. -/
def FileDiff.byteSize (f : FileDiff) : Except PyError Nat :=
  (orRaise .unicodeEncode (encode f.raw)).map List.length

def FileDiff.addedLines (f : FileDiff) : List NewFileLine := f.lines.filter (·.added)

def space : Regex Chr := .chr isSpace

def digit : Regex Chr := .chr isDecimal

/-- `(?:,\d+)?` -/
def optCount : Regex Chr := .opt (.seq (.lit (lit ",")) (.plus digit))

/-- `^@@\s+-\d+(?:,\d+)?\s+\+(\d+)(?:,\d+)?\s+@@`, tried at the start of a line. -/
def hunkRe : Regex Chr :=
  .seq (.lit (lit "@@")) <| .seq (.plus space) <| .seq (.lit (lit "-")) <| .seq (.plus digit) <|
  .seq optCount <| .seq (.plus space) <| .seq (.lit (lit "+")) <| .seq (.group (.plus digit)) <|
  .seq optCount <| .seq (.plus space) (.lit (lit "@@"))

def oldHeader : Str := lit "--- "

def newHeader : Str := lit "+++ "

def gitHeader : Str := lit "diff --git "

def devNull : Str := lit "/dev/null"

def noNewlineMarker : Str := lit "\\ No newline at end of file"

def quote : Str := lit "\""

/-- `value[1:-1]` when `value` is quoted. A lone `"` both starts and ends with one. -/
def unquote (value : Str) : Str :=
  if startswith value quote && value.getLast? == quote.head? then (value.drop 1).dropLast else value

def cleanPath (header : Str) : Str :=
  let value := unquote (strip (beforeFirst (Chr.ofChar '\t') (rstripNewline header)))
  if startswith value (lit "a/") || startswith value (lit "b/") then value.drop 2 else value

/-- The line at an index that the loops of the source keep in range. -/
def lineAt (lines : List Str) (i : Nat) : Str := lines.getD i []

def gitStarts (lines : List Str) : List Nat :=
  (List.range lines.length).filter fun i => startswith (lineAt lines i) gitHeader

def plainStarts (lines : List Str) : List Nat :=
  (List.range (lines.length - 1)).filter fun i =>
    startswith (lineAt lines i) oldHeader && startswith (lineAt lines (i + 1)) newHeader

def sectionStarts (lines : List Str) : List Nat :=
  if gitStarts lines ≠ [] then gitStarts lines else plainStarts lines

/-- The slices of the source lines from each start to the next one. -/
def sections (lines : List Str) : List Nat → List (List Str)
  | [] => []
  | [start] => [lines.drop start]
  | start :: next :: starts => (lines.take next).drop start :: sections lines (next :: starts)

/-- The loop variables of the scan of one section. -/
structure HunkScan where
  currentNewLine : Option Nat
  hunkNumber : Int
  sawHunk : Bool
  lines : List NewFileLine
deriving DecidableEq, Repr

def HunkScan.start : HunkScan := ⟨none, -1, false, []⟩

/-- Reports one new-file line (`/dev/null` has none) and moves to the next number. -/
def HunkScan.report (st : HunkScan) (path : Str) (n : Nat) (content : Str) (added : Bool) :
    HunkScan :=
  { st with
    currentNewLine := some (n + 1)
    lines := if path = devNull then st.lines
      else st.lines ++ [⟨path, n, content, added, st.hunkNumber⟩] }

/-- The branches for a line inside a hunk, at new-file line `n`. -/
def scanBodyLine (path : Str) (st : HunkScan) (n : Nat) (line : Str) : HunkScan :=
  if startswith line noNewlineMarker then st
  else
    let content := rstripNewline (line.drop 1)
    if startswith line (lit "+") && !startswith line (lit "+++") then st.report path n content true
    else if startswith line (lit " ") then st.report path n content false
    else if startswith line (lit "-") && !startswith line (lit "---") then st
    -- any other line ends the hunk: what follows is skipped up to the next header
    else { st with currentNewLine := none }

def scanLine (path : Str) (st : HunkScan) (line : Str) : Except PyError HunkScan :=
  match hunkRe.matchStart line with
  | some m => do
    let newStart ← orRaise .intMaxStrDigits (int (m.groups.headD []))
    return { st with
      currentNewLine := some newStart, hunkNumber := st.hunkNumber + 1, sawHunk := true }
  | none => match st.currentNewLine with
    | none => .ok st
    | some n => .ok (scanBodyLine path st n line)

/-- One turn of the loop over the sections: the file and whether it has a hunk. -/
def parseSection (lines : List Str) : Except PyError (FileDiff × Bool) := do
  match lines.findIdx? fun line => startswith line newHeader with
  | none => throw (.diffParseError (lit "A file section is missing ---/+++ headers."))
  | some newHeaderIndex =>
    if !lines.any fun line => startswith line oldHeader then
      throw (.diffParseError (lit "A file section is missing ---/+++ headers."))
    let path := cleanPath ((lineAt lines newHeaderIndex).drop 4)
    if path = [] then
      throw (.diffParseError (lit "A file path is empty."))
    let st ← (lines.drop (newHeaderIndex + 1)).foldlM (scanLine path) HunkScan.start
    return (⟨path, lines.flatten, st.lines⟩, st.sawHunk)

def parseUnifiedDiff (diff : Str) : Except PyError (List FileDiff) := do
  if diff = [] || strip diff = [] then
    throw (.diffParseError (lit "Diff is empty."))
  let sourceLines := splitlines diff
  let starts := sectionStarts sourceLines
  if starts = [] then
    throw (.diffParseError (lit "No unified-diff file header was found."))
  let parsed ← (sections sourceLines starts).mapM parseSection
  if !parsed.any (·.2) then
    throw (.diffParseError (lit "The diff contains no valid hunks."))
  return parsed.map (·.1)

end DiffReview
