import DiffReview.Lib.Table
import DiffReview.Spec.Chunker
import DiffReview.Spec.Schemas

/-!
# DiffReview — the LLM provider

`app/providers/llm.py`. What the model answers is an input: `Answers` gives, for each
chunk, the proposals of its structured output or the text of the exception the request
raised. LangGraph runs `analyze_chunk` once for each chunk and concatenates the results.
-/

namespace DiffReview

open Py

structure LLMFindingProposal where
  path : Str
  line : Nat
  line_pos : 1 ≤ line
  severity : Severity
  category : Category
  title : Str
  evidence : Str
deriving DecidableEq

/-- The model's answer for the chunk with a given number. -/
abbrev Answers := Nat → Except Str (List LLMFindingProposal)

/-- The dictionary from `(path, line)` to the content of the chunk's added lines. -/
abbrev EvidenceMap := Table (Prod.fst : (Str × Nat) × Str → Str × Nat)

def evidenceMap (chunk : ReviewChunk) : EvidenceMap :=
  Table.fromRows ((chunk.files.flatMap FileDiff.addedLines).map fun line =>
    ((line.path, line.line), line.content))

/-- `" ".join(proposal.title.split())[:120] or "AI review finding"` -/
def normalizeTitle (title : Str) : Str :=
  let short := (join (lit " ") (split title)).take 120
  if short = [] then lit "AI review finding" else short

/-- `f"LLM-REVIEW:{proposal.path}:{proposal.line}:{digest}"` -/
def llmId (path line digest : Str) : Str :=
  lit "LLM-REVIEW:" ++ path ++ lit ":" ++ line ++ lit ":" ++ digest

/-- One turn of the loop over the proposals: `none` is the `continue` of a proposal whose
path and line are not an added line of the chunk. -/
def groundProposal (sha256 : List UInt8 → Str) (evidence : EvidenceMap) (p : LLMFindingProposal) :
    Except PyError (Option FindingDict) :=
  match evidence.get? (p.path, p.line) with
  | none => .ok none
  | some (_, content) => do
    let title := normalizeTitle p.title
    let digest := (sha256 (← orRaise .unicodeEncode (encode title))).take 10
    let number ← orRaise .intMaxStrDigits (strInt p.line)
    return some {
      id := llmId p.path number digest
      ruleId := lit "LLM-REVIEW"
      path := p.path
      line := p.line
      severity := p.severity
      category := p.category
      title := title
      evidence := content }

def analyzeChunk (sha256 : List UInt8 → Str) (chunk : ReviewChunk)
    (answer : Except Str (List LLMFindingProposal)) : Except PyError (List FindingDict) :=
  match answer with
  | .error text => .error (.providerError (lit "Cerebras request failed: " ++ text))
  | .ok proposals => (proposals.mapM (groundProposal sha256 (evidenceMap chunk))).map
      fun items => items.filterMap id

/-- `ainvoke` re-raises a `ProviderError` and wraps every other exception in one. -/
def wrapWorkflowError (foreignText : ForeignError → Str) : PyError → PyError
  | .providerError message => .providerError message
  | e => .providerError (lit "Cerebras workflow failed: " ++ e.str foreignText)

structure LlmEnv where
  sha256 : List UInt8 → Str
  foreignText : ForeignError → Str
  cerebrasApiKey : Option Str

/-- The check of `_build_graph`. -/
def buildGraph (env : LlmEnv) : Except PyError Unit :=
  if (env.cerebrasApiKey.getD []) = [] then
    .error (.providerError (lit "Cerebras is not configured: CEREBRAS_API_KEY is missing."))
  else .ok ()

/-- `self._graph.ainvoke`: the findings of all chunks, concatenated. -/
def invokeGraph (env : LlmEnv) (answers : Answers) (chunks : List ReviewChunk) :
    Except PyError (List FindingDict) :=
  match chunks.zipIdx.mapM fun c => analyzeChunk env.sha256 c.1 (answers c.2) with
  | .error e => .error (wrapWorkflowError env.foreignText e)
  | .ok results => .ok results.flatten

/-- `CerebrasProvider.review` -/
def llmReview (env : LlmEnv) (answers : Answers) (chunks : List ReviewChunk) :
    Except PyError (List Finding) := do
  buildGraph env
  let items ← invokeGraph env answers chunks
  items.mapM Finding.modelValidate

end DiffReview
