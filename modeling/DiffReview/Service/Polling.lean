import DiffReview.Service.Liveness
import DiffReview.Spec.Responses

/-!
# DiffReview — polling and streaming agree

A client that reads the stream of a job from its start builds up a view of it
(`ClientView`). In every reachable state a poll succeeds and answers exactly that view
(`poll_eq_view`), and the answer of an ended job is the answer to all later polls
(`poll_final`).
-/

namespace DiffReview

open Py Raise Transition

/-! ## A client of the stream -/

structure ClientView where
  status : Option JobStatusValue
  findings : List FindingDict
  usage : Option UsageDict
  error : Option Str
deriving DecidableEq, Repr

def ClientView.empty : ClientView := ⟨none, [], none, none⟩

/-- What the client makes of one event. -/
def ClientView.receive (view : ClientView) : EventBody → ClientView
  | .status status error => { view with status := some status, error := error }
  | .finding item => { view with findings := view.findings ++ [item] }
  | .done _ usage => { view with usage := some usage }

def ClientView.ofLog (log : List EventBody) : ClientView := log.foldl ClientView.receive .empty

/-- A poll as the view it should show; `usage` is in every poll, but only in the last event. -/
def JobResponse.view (response : JobResponse) : ClientView where
  status := some response.status
  findings := (response.findings.getD []).map Finding.modelDump
  usage := if response.status = .done then some response.usage.modelDump else none
  error := response.error.map ErrorDetail.message

theorem foldl_receive_findings (items : List FindingDict) (view : ClientView) :
    (items.map EventBody.finding).foldl ClientView.receive view
      = { view with findings := view.findings ++ items } := by
  induction items generalizing view with
  | nil => simp
  | cons item items ih =>
    rw [List.map_cons, List.foldl_cons, ih]
    simp [ClientView.receive]

theorem ofLog_openLog (restarts : Nat) (claimed : Bool) :
    ClientView.ofLog (openLog restarts claimed)
      = ⟨some (if claimed then .running else .queued), [], none, none⟩ := by
  have hqueued : ∀ n, ClientView.ofLog (openLog n false) = ⟨some .queued, [], none, none⟩ := by
    intro n
    induction n with
    | zero => rfl
    | succ n ih =>
      rw [← openLog_requeue, ← openLog_claim, ClientView.ofLog, List.foldl_append, List.foldl_append,
        ← ClientView.ofLog, ih]
      rfl
  cases claimed with
  | false => exact hqueued restarts
  | true =>
    rw [← openLog_claim, ClientView.ofLog, List.foldl_append, ← ClientView.ofLog, hqueued]
    rfl

/-- The view of a log whose form is that of its row. -/
theorem JobLog.ofLog_eq {job : ReviewJob} {log : List EventBody} (h : JobLog job log) :
    ClientView.ofLog log = {
      status := some job.status
      findings := if job.status = .done then job.findings.getD [] else []
      usage := if job.status = .done then some job.usage else none
      error := if job.status = .failed then job.errorMessage else none } := by
  cases h with
  | queued restarts hstatus => simp [ofLog_openLog, hstatus]
  | running restarts hstatus => simp [ofLog_openLog, hstatus]
  | done restarts items hstatus hfindings =>
    rw [ClientView.ofLog, List.foldl_append, ← ClientView.ofLog, ofLog_openLog, terminalBlock,
      List.foldl_append, foldl_receive_findings]
    simp [ClientView.receive, hstatus, hfindings]
  | failed restarts message hstatus _ hmessage =>
    rw [ClientView.ofLog, List.foldl_append, ← ClientView.ofLog, ofLog_openLog]
    simp [ClientView.receive, hstatus, hmessage]

/-! ## Rows -/

theorem errorMessage_ne_nil (env : Env) (exc : PyError) : errorMessage env exc ≠ [] := by
  unfold errorMessage
  simp only
  split
  · simp [Py.lit]
  · assumption

theorem length_errorMessage_le (env : Env) (exc : PyError) : (errorMessage env exc).length ≤ 1000 := by
  unfold errorMessage
  simp only
  split
  · decide
  · exact List.length_take_le _ _

/-- What a failed row says of its failure. -/
def FailureRecorded (env : Env) (job : ReviewJob) : Prop :=
  job.status = .failed → ∃ exc, job.errorCode = some (lit "internal") ∧
    job.errorMessage = some (errorMessage env exc)

section Rows

variable {env : Env} {acts : List Action} {db db' : Tables} {s s' : State}

theorem FailureRecorded.of_ne {job : ReviewJob} (h : job.status ≠ .failed) :
    FailureRecorded env job := fun hfailed => absurd hfailed h

theorem FailureRecorded.failedWith (job : ReviewJob) (exc : PyError) :
    FailureRecorded env (job.failedWith (errorMessage env exc)) := fun _ => ⟨exc, rfl, rfl⟩

theorem Write.failureRecorded (h : Write env acts db db')
    (hrec : ∀ {id job}, db.jobs.get? id = some job → FailureRecorded env job) {id : Str}
    {row : ReviewJob} (hrow : db'.jobs.get? id = some row) : FailureRecorded env row := by
  have hadvance : ∀ {job job' bodies}, db.jobs.get? job.id = some job → Advance job job' bodies →
      FailureRecorded env job' → (db.jobs.replace job').get? id = some row →
      FailureRecorded env row := by
    intro job job' bodies hjob hadv hjob' hget
    have hrows := Tables.get?_advance bodies hjob hadv.same id
    rw [show (db.advance job' bodies).jobs = db.jobs.replace job' from rfl, hget] at hrows
    split at hrows
    · cases hrows
      exact hjob'
    · exact hrec hrows.symm
  cases h with
  | insert _ h =>
    obtain ⟨jobId, hit, now, hjobs, -⟩ := h.jobs_eq
    rw [Table.get?_insert? hjobs] at hrow
    split at hrow
    · cases hrow
      exact .of_ne (show JobStatusValue.queued ≠ .failed by decide)
    · exact hrec hrow
  | progress h =>
    cases h with
    | start hjob hqueued => exact hadvance hjob (.claim hqueued) (.of_ne (by simp)) hrow
    | requeue hjob hrunning => exact hadvance hjob (.requeue hrunning) (.of_ne (by simp)) hrow
    | store hjob hrunning =>
      exact hadvance hjob (.finish hrunning _) (.of_ne (by simp [ReviewJob.finished])) hrow
    | copy hjob hrunning =>
      exact hadvance hjob (.finish hrunning _) (.of_ne (by simp [ReviewJob.finished])) hrow
    | failSource hjob hrunning => exact hadvance hjob (.fail hrunning _) (.failedWith _ _) hrow
    | failHit exc hjob hrunning => exact hadvance hjob (.fail hrunning _) (.failedWith _ _) hrow

theorem Writes.failureRecorded (h : Writes env acts db db')
    (hrec : ∀ {id job}, db.jobs.get? id = some job → FailureRecorded env job) {id : Str}
    {job : ReviewJob} (hjob : db'.jobs.get? id = some job) : FailureRecorded env job := by
  induction h generalizing id job with
  | refl => exact hrec hjob
  | tail _ hwrite ih => exact hwrite.failureRecorded ih hjob

theorem run_failureRecorded (hrun : Run (step env) State.init acts s) {id : Str} {job : ReviewJob}
    (hjob : s.db.jobs.get? id = some job) : FailureRecorded env job :=
  (run_writes Run.nil hrun).failureRecorded (fun {_ _} h => by cases h) hjob

/-- A done row stores findings that pass their validation. -/
theorem Ledger.done_findings_valid (hledger : Ledger env acts db) {id : Str} {job : ReviewJob}
    (hjob : db.jobs.get? id = some job) (hdone : job.status = .done) :
    ∃ full : List Finding, job.findings = some (full.map Finding.modelDump) := by
  obtain ⟨entry, hentry, hdep⟩ := hledger.coherent.entry hjob
  cases hhit : job.cacheHit with
  | true =>
    obtain ⟨-, full, -, hfindings⟩ := hdep.done hhit hdone
    exact ⟨_, hfindings⟩
  | false =>
    obtain ⟨src, hsrc, howns⟩ := hledger.coherent.owner hentry
    rw [hdep.source hhit, Table.key_of_get? hjob, hjob] at hsrc
    cases hsrc
    obtain ⟨full, -, -, hfindings⟩ := howns.done hdone
    exact ⟨_, hfindings⟩

end Rows

/-! ## Polls -/

section Polls

variable {env : Env} {acts : List Action} {s s' : State}

theorem getReview_of_get? {db : Tables} {id : Str} {job : ReviewJob}
    (hjob : db.jobs.get? id = some job) : getReview db id = orUnhandled (jobResponse job) := by
  unfold getReview findJob
  rw [hjob]
  rfl

/-- The answer to a poll of a row. -/
theorem jobResponse_eq {job : ReviewJob} {full : List Finding} (hchunks : 1 ≤ job.chunks)
    (hfindings : job.status = .done → job.findings = some (full.map Finding.modelDump)) :
    jobResponse job = .ok ⟨job.id, job.status, if job.status = .done then some full else none,
      ⟨job.usage, hchunks⟩, errorDetail job⟩ := by
  have husage : Usage.modelValidate ⟨job.inputBytes, job.chunks, job.cacheHit⟩
      = .ok ⟨job.usage, hchunks⟩ := dif_pos hchunks
  have hvalid : validateFindings (if job.status = .done then job.findings else none)
      = .ok (if job.status = .done then some full else none) := by
    by_cases hdone : job.status = .done
    · rw [if_pos hdone, if_pos hdone, hfindings hdone, validateFindings, mapM_modelValidate_modelDump]
      rfl
    · rw [if_neg hdone, if_neg hdone, validateFindings]
  unfold jobResponse
  rw [husage, hvalid]
  rfl

/-- The findings a row shows, whatever its status. -/
theorem Ledger.exists_shown {db : Tables} (hledger : Ledger env acts db) {id : Str} {job : ReviewJob}
    (hjob : db.jobs.get? id = some job) :
    ∃ full : List Finding, job.status = .done → job.findings = some (full.map Finding.modelDump) := by
  by_cases hdone : job.status = .done
  · obtain ⟨full, hfull⟩ := hledger.done_findings_valid hjob hdone
    exact ⟨full, fun _ => hfull⟩
  · exact ⟨[], fun h => absurd h hdone⟩

theorem errorDetail_eq {job : ReviewJob} (hrec : FailureRecorded env job) :
    (errorDetail job).map ErrorDetail.message
        = (if job.status = .failed then job.errorMessage else none) ∧
      ((errorDetail job).isSome = true ↔ job.status = .failed) ∧
      ∀ error ∈ errorDetail job, error.code = lit "internal" ∧ error.message ≠ [] ∧
        error.message.length ≤ 1000 := by
  unfold errorDetail
  by_cases hfailed : job.status = .failed
  · obtain ⟨exc, hcode, hmessage⟩ := hrec hfailed
    have hne := errorMessage_ne_nil env exc
    have hshown : orDefault job.errorMessage (lit "Review processing failed.") = errorMessage env exc := by
      rw [orDefault, hmessage]
      unfold truthyKey
      split
      · next h => exact absurd (Option.some.inj h) hne
      · rfl
    rw [if_pos hfailed, if_pos hfailed, hshown, hmessage]
    refine ⟨rfl, by simp [hfailed], ?_⟩
    rintro error herror
    cases herror
    refine ⟨?_, hne, length_errorMessage_le env exc⟩
    show orDefault job.errorCode (lit "internal") = _
    rw [hcode]
    rfl
  · rw [if_neg hfailed, if_neg hfailed]
    refine ⟨rfl, by simp [hfailed], fun error herror => ?_⟩
    cases herror

/-- The answer to a poll shows what the client has made of the events. -/
theorem Ledger.view_eq {db : Tables} (hledger : Ledger env acts db) {id : Str} {job : ReviewJob}
    (hjob : db.jobs.get? id = some job) (hrec : FailureRecorded env job) {full : List Finding}
    (hfull : job.status = .done → job.findings = some (full.map Finding.modelDump))
    (hchunks : 1 ≤ job.chunks) :
    (JobResponse.mk job.id job.status (if job.status = .done then some full else none)
      ⟨job.usage, hchunks⟩ (errorDetail job)).view = ClientView.ofLog (logOf db.events id) := by
  rw [(hledger.logged.log hjob).ofLog_eq, JobResponse.view, (errorDetail_eq hrec).1]
  by_cases hdone : job.status = .done
  · simp [hdone, hfull hdone, Usage.modelDump]
  · simp [hdone]

/-- A poll of a job succeeds in every reachable state and answers what a client of the stream
has made of the committed events: findings with `done` alone, an error with `failed` alone. -/
theorem poll_eq_view (hrun : Run (step env) State.init acts s) {id : Str} {job : ReviewJob}
    (hjob : s.db.jobs.get? id = some job) :
    ∃ response, getReview s.db id = .ok response ∧ response.jobId = id ∧
      response.view = ClientView.ofLog (logOf s.db.events id) ∧
      (response.findings.isSome = true ↔ response.status = .done) ∧
      (response.error.isSome = true ↔ response.status = .failed) ∧
      ∀ error ∈ response.error, error.code = lit "internal" ∧ error.message ≠ [] ∧
        error.message.length ≤ 1000 := by
  obtain ⟨hledger, -⟩ := run_invariants hrun
  obtain ⟨full, hfull⟩ := hledger.exists_shown hjob
  have hchunks := (hledger.submitted hjob).accepted.chunks_pos
  have hrec := run_failureRecorded hrun hjob
  obtain ⟨-, hsome, herror⟩ := errorDetail_eq hrec
  rw [getReview_of_get? hjob, jobResponse_eq hchunks hfull]
  have hid : job.id = id := Table.key_of_get? hjob
  refine ⟨_, rfl, hid, hledger.view_eq hjob hrec hfull hchunks, ?_, hsome, herror⟩
  by_cases hdone : job.status = .done <;> simp [hdone]

theorem poll_eq_view_sample : ∃ response, getReview sampleState.db (lit "a") = .ok response ∧
    response.jobId = lit "a" ∧
    response.view = ClientView.ofLog (logOf sampleState.db.events (lit "a")) ∧
    (response.findings.isSome = true ↔ response.status = .done) ∧
    (response.error.isSome = true ↔ response.status = .failed) ∧
    ∀ error ∈ response.error, error.code = lit "internal" ∧ error.message ≠ [] ∧
      error.message.length ≤ 1000 :=
  poll_eq_view (Run.get sampleRun_isSome) (Option.some_get sampleJob_isSome).symm

/-- Whatever the service does between two polls, restarts included, the usage is the same and
the answer of an ended job is the same. -/
theorem poll_final (hrun : Run (step env) State.init acts s) {acts' : List Action}
    (hrun' : Run (step env) s acts' s') {id : Str} {response : JobResponse}
    (hpoll : getReview s.db id = .ok response) :
    ∃ response', getReview s'.db id = .ok response' ∧ response'.usage = response.usage ∧
      (response.status = .done ∨ response.status = .failed → response' = response) := by
  have hwrites := run_writes hrun hrun'
  cases hjob : s.db.jobs.get? id with
  | none =>
    unfold getReview findJob at hpoll
    rw [hjob] at hpoll
    cases hpoll
  | some job =>
    obtain ⟨job', hjob', hsame⟩ := hwrites.same_job hjob
    obtain ⟨hledger, -⟩ := run_invariants hrun
    obtain ⟨hledger', -⟩ := run_invariants (Run.append_iff.mpr ⟨s, hrun, hrun'⟩)
    obtain ⟨full, hfull⟩ := hledger.exists_shown hjob
    obtain ⟨full', hfull'⟩ := hledger'.exists_shown hjob'
    have hanswer := (getReview_of_get? hjob).trans (congrArg orUnhandled
      (jobResponse_eq (hledger.submitted hjob).accepted.chunks_pos hfull))
    cases hanswer.symm.trans hpoll
    by_cases hended : job.Ended
    · obtain ⟨hkept, -⟩ := hwrites.job_ended hjob hended
      rw [getReview_of_get? hkept, ← getReview_of_get? hjob]
      exact ⟨_, hpoll, rfl, fun _ => rfl⟩
    · refine ⟨_, (getReview_of_get? hjob').trans (congrArg orUnhandled
        (jobResponse_eq (hledger'.submitted hjob').accepted.chunks_pos hfull')), ?_,
        fun h => absurd h hended⟩
      simp only [ReviewJob.usage, hsame.inputBytes, hsame.chunks, hsame.cacheHit]

end Polls

/-- A restart after the review. -/
def restartRun : List Action := [.kill, .recover []]

set_option maxRecDepth 20000 in
theorem restartRun_isSome :
    (restartRun.foldlM (step (sampleEnv none)) sampleState).isSome = true := by decide

def restartedState : State := Option.get _ restartRun_isSome

theorem poll_final_sample : ∃ response, getReview sampleState.db (lit "a") = .ok response ∧
    ∃ response', getReview restartedState.db (lit "a") = .ok response' ∧
      response'.usage = response.usage ∧
      (response.status = .done ∨ response.status = .failed → response' = response) := by
  have hjob : sampleState.db.jobs.get? (lit "a") = some sampleJob :=
    (Option.some_get sampleJob_isSome).symm
  obtain ⟨hledger, -⟩ := run_invariants (Run.get sampleRun_isSome)
  obtain ⟨full, hfull⟩ := hledger.exists_shown hjob
  have hpoll := (getReview_of_get? hjob).trans (congrArg orUnhandled
    (jobResponse_eq (hledger.submitted hjob).accepted.chunks_pos hfull))
  exact ⟨_, hpoll, poll_final (Run.get sampleRun_isSome) (Run.get restartRun_isSome) hpoll⟩

end DiffReview
