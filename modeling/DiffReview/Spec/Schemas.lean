import DiffReview.Spec.Errors

/-!
# DiffReview — request and response schemas

`app/schemas.py`. A pydantic model whose fields are constrained is a structure that
carries the constraint, so that a value of it is a validated one; the unvalidated form
of `Finding` and `Usage` is the dictionary `model_dump(by_alias=True)` gives, which is
also what the tables and the events store.
-/

namespace DiffReview

open Py

inductive ProviderName where
  | mock
  | llm
deriving DecidableEq, Repr

def ProviderName.value : ProviderName → Str
  | .mock => lit "mock"
  | .llm => lit "llm"

inductive Severity where
  | critical
  | high
  | medium
  | low
deriving DecidableEq, Repr

inductive Category where
  | security
  | correctness
  | performance
  | style
deriving DecidableEq, Repr

/-- The default of `maxFindings` passes its own check. -/
theorem defaultMaxFindings_le : 100 ≤ 10000 := by decide

/-- A validated `ReviewRequest`, with its options inlined. -/
structure ReviewRequest where
  diff : Str
  provider : ProviderName
  maxFindings : Nat
  maxFindings_le : maxFindings ≤ 10000
deriving DecidableEq

structure FindingDict where
  id : Str
  ruleId : Str
  path : Str
  line : Nat
  severity : Severity
  category : Category
  title : Str
  evidence : Str
deriving DecidableEq, Repr

/-- A validated finding: `line: int = Field(ge=1)`. -/
structure Finding extends FindingDict where
  line_pos : 1 ≤ line
deriving DecidableEq

def Finding.modelDump (f : Finding) : FindingDict := f.toFindingDict

def Finding.modelValidate (item : FindingDict) : Except PyError Finding :=
  if h : 1 ≤ item.line then .ok ⟨item, h⟩ else .error (.foreign .validation)

@[simp] theorem Finding.modelValidate_modelDump (f : Finding) :
    Finding.modelValidate f.modelDump = .ok f := dif_pos f.line_pos

theorem Finding.modelDump_injective : Function.Injective Finding.modelDump := by
  rintro ⟨f, hf⟩ ⟨g, hg⟩ h
  cases (show f = g from h)
  rfl

structure UsageDict where
  inputBytes : Nat
  chunks : Nat
  cacheHit : Bool
deriving DecidableEq, Repr

/-- A validated usage: `chunks: int = Field(ge=1)`. -/
structure Usage extends UsageDict where
  chunks_pos : 1 ≤ chunks

def Usage.modelDump (u : Usage) : UsageDict := u.toUsageDict

def Usage.modelValidate (item : UsageDict) : Except PyError Usage :=
  if h : 1 ≤ item.chunks then .ok ⟨item, h⟩ else .error (.foreign .validation)

end DiffReview
