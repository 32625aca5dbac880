import DiffReview.Spec.Gate

/-!
# DiffReview — the answer to a poll

`_job_response` and `get_review` of `app/api/reviews.py`, with the response models of
`app/schemas.py` they fill.
-/

namespace DiffReview

open Py

structure ErrorDetail where
  code : Str
  message : Str
deriving DecidableEq, Repr

/-- A validated `JobResponse`; a field that is `none` is left out of the body. -/
structure JobResponse where
  jobId : Str
  status : JobStatusValue
  findings : Option (List Finding)
  usage : Usage
  error : Option ErrorDetail

/-- `value or default` of an optional string. -/
def orDefault (value : Option Str) (default : Str) : Str := (truthyKey value).getD default

/-- The `error` of a failed job. -/
def errorDetail (job : ReviewJob) : Option ErrorDetail :=
  if job.status = .failed then
    some ⟨orDefault job.errorCode (lit "internal"),
      orDefault job.errorMessage (lit "Review processing failed.")⟩
  else none

/-- `findings: list[Finding] | None`, from what the row stores. -/
def validateFindings : Option (List FindingDict) → Except PyError (Option (List Finding))
  | none => .ok none
  | some items => (items.mapM Finding.modelValidate).map some

/-- `_job_response` -/
def jobResponse (job : ReviewJob) : Except PyError JobResponse := do
  let usage ← Usage.modelValidate ⟨job.inputBytes, job.chunks, job.cacheHit⟩
  let findings ← validateFindings (if job.status = .done then job.findings else none)
  return ⟨job.id, job.status, findings, usage, errorDetail job⟩

/-- `get_review` -/
def getReview (db : Tables) (jobId : Str) : Except Raised JobResponse := do
  let job ← findJob db jobId
  orUnhandled (jobResponse job)

end DiffReview
