import DiffReview.Lib.Table
import DiffReview.Spec.Chunker
import DiffReview.Spec.Schemas

/-!
# DiffReview — the mock provider

`app/providers/mock.py`. The patterns of the eight line rules are a parameter
(`Patterns`): nothing below depends on what they match. `_empty_catch_lines` is embedded
whole, with its `catch` pattern and its two comment patterns.
-/

namespace DiffReview

open Py

structure Rule where
  ruleId : Str
  severity : Severity
  category : Category
  title : Str
  pattern : Str → Bool

/-- `pattern.search(content)` of each line rule, and the characters `\w` matches. -/
structure Patterns where
  evalUsage : Str → Bool
  hardcodedCredential : Str → Bool
  sqlConcatenation : Str → Bool
  looseNull : Str → Bool
  deepClone : Str → Bool
  consoleLog : Str → Bool
  unresolvedMarker : Str → Bool
  promptInjection : Str → Bool
  isWord : Chr → Bool

def rules (p : Patterns) : List Rule :=
  [⟨lit "MOCK-001", .critical, .security, lit "eval usage", p.evalUsage⟩,
    ⟨lit "MOCK-002", .critical, .security, lit "hardcoded credential", p.hardcodedCredential⟩,
    ⟨lit "MOCK-003", .high, .security, lit "SQL string concatenation", p.sqlConcatenation⟩,
    ⟨lit "MOCK-005", .medium, .correctness, lit "loose null comparison", p.looseNull⟩,
    ⟨lit "MOCK-006", .medium, .performance, lit "deep-clone via JSON", p.deepClone⟩,
    ⟨lit "MOCK-007", .low, .style, lit "console.log left in", p.consoleLog⟩,
    ⟨lit "MOCK-008", .low, .style, lit "unresolved marker", p.unresolvedMarker⟩,
    ⟨lit "MOCK-INJ", .critical, .security, lit "prompt-injection content", p.promptInjection⟩]

/-- The rule of `_empty_catch_lines`; its empty pattern is never searched. -/
def emptyCatchRule : Rule :=
  ⟨lit "MOCK-004", .high, .correctness, lit "swallowed exception", fun _ => true⟩

/-- `f"{rule.rule_id}:{line.path}:{line.line}"` -/
def findingId (ruleId path : Str) (line : Str) : Str :=
  ruleId ++ lit ":" ++ path ++ lit ":" ++ line

def mockFinding (rule : Rule) (line : NewFileLine) : Except PyError Finding := do
  let number ← orRaise .intMaxStrDigits (strInt line.line)
  Finding.modelValidate {
    id := findingId rule.ruleId line.path number
    ruleId := rule.ruleId
    path := line.path
    line := line.line
    severity := rule.severity
    category := rule.category
    title := rule.title
    evidence := line.content }

/-! ## Swallowed exceptions -/

def notChr (c : Char) : Regex Chr := .chr fun x => x != Chr.ofChar c

/-- `\bcatch\s*(?:\([^)]*\))?\s*\{` -/
def catchRe (isWord : Chr → Bool) : Regex Chr :=
  .seq (.boundary isWord) <| .seq (.lit (lit "catch")) <| .seq (.star space) <|
  .seq (.opt (.seq (.lit (lit "(")) (.seq (.star (notChr ')')) (.lit (lit ")"))))) <|
  .seq (.star space) (.lit [Chr.ofChar '\x7b'])

/-- `/\*.*?\*/` with `re.DOTALL` -/
def blockCommentRe : Regex Chr :=
  .seq (.lit (lit "/*")) (.seq (.lazyStar (.chr fun _ => true)) (.lit (lit "*/")))

/-- `//[^\n]*` -/
def lineCommentRe : Regex Chr := .seq (.lit (lit "//")) (.star (notChr '\n'))

/-- The text up to the brace that closes `depth` open ones; `none` when the text ends first. -/
def closeBody : Nat → Str → Option Str
  | _, [] => none
  | depth, c :: cs =>
    if c = Chr.ofChar '\x7b' then (closeBody (depth + 1) cs).map (c :: ·)
    else if c = Chr.ofChar '\x7d' then
      if depth ≤ 1 then some [] else (closeBody (depth - 1) cs).map (c :: ·)
    else (closeBody depth cs).map (c :: ·)

/-- Whether the first `catch` block opened on `content` is closed in the lines that follow
and holds nothing but comments. -/
def swallows (isWord : Chr → Bool) (content : Str) (following : List Str) : Bool :=
  match (catchRe isWord).search content with
  | none => false
  | some opened =>
    match closeBody 1 ((opened.rest :: following).flatMap fun l => l ++ [lf]) with
    | none => false
    | some body => strip (lineCommentRe.erase (blockCommentRe.erase body)) = []

/-- The loop over the lines of one hunk. -/
def emptyCatchInHunk (isWord : Chr → Bool) : List NewFileLine → List NewFileLine
  | [] => []
  | l :: rest =>
    if l.added && swallows isWord l.content (rest.map (·.content)) then
      l :: emptyCatchInHunk isWord rest
    else emptyCatchInHunk isWord rest

/-- `by_hunk.setdefault(line.hunk, []).append(line)` -/
def appendToHunk (d : Table (Prod.fst : Int × List NewFileLine → Int)) (l : NewFileLine) :
    Table (Prod.fst : Int × List NewFileLine → Int) :=
  d.upsert (l.hunk, ((d.get? l.hunk).map Prod.snd).getD [] ++ [l])

def byHunk (lines : List NewFileLine) : List (List NewFileLine) :=
  (lines.foldl appendToHunk Table.empty).rows.map Prod.snd

def emptyCatchLines (isWord : Chr → Bool) (file : FileDiff) : List NewFileLine :=
  (byHunk file.lines).flatMap (emptyCatchInHunk isWord)

/-! ## The review -/

/-- The pairs of rule and line that one file reports, in the order they are reported. -/
def fileHits (p : Patterns) (file : FileDiff) : List (Rule × NewFileLine) :=
  (file.addedLines.flatMap fun line =>
      ((rules p).filter fun rule => rule.pattern line.content).map fun rule => (rule, line))
    ++ (emptyCatchLines p.isWord file).map fun line => (emptyCatchRule, line)

def mockHits (p : Patterns) (chunks : List ReviewChunk) : List (Rule × NewFileLine) :=
  chunks.flatMap fun chunk => chunk.files.flatMap (fileHits p)

/-- `MockProvider.review` -/
def mockReview (p : Patterns) (chunks : List ReviewChunk) : Except PyError (List Finding) :=
  (mockHits p chunks).mapM fun hit => mockFinding hit.1 hit.2

end DiffReview
