import DiffReview.Spec.Worker

/-!
# DiffReview — the life of one job

A job seen alone: its row and the bodies of its committed events. `Advance` is what one
transaction does to the two, and `JobLog` the form of the log that every `Advance` keeps:
queued, restarted any number of times, claimed, ended.
-/

namespace DiffReview

open Py

/-! ## Logs -/

/-- The bodies of the committed events of one job. -/
def logOf (events : List JobEvent) (jobId : Str) : List EventBody :=
  (eventsOf events jobId).map (·.body)

/-- The events of the job carry the sequences `1..n`. -/
def Numbered (events : List JobEvent) (jobId : Str) : Prop :=
  (eventsOf events jobId).map (·.sequence) = List.range' 1 (eventsOf events jobId).length

theorem eventsOf_appendEvent_self (events : List JobEvent) (jobId : Str) (body : EventBody) :
    eventsOf (appendEvent events jobId body) jobId
      = eventsOf events jobId ++ [⟨jobId, maxSequence events jobId + 1, body⟩] := by
  simp [eventsOf, appendEvent]

theorem eventsOf_appendEvent_ne (events : List JobEvent) {jobId other : Str} (body : EventBody)
    (h : other ≠ jobId) : eventsOf (appendEvent events jobId body) other = eventsOf events other := by
  simp [eventsOf, appendEvent, Ne.symm h]

theorem eventsOf_appendEvents_ne {events : List JobEvent} {jobId other : Str}
    (bodies : List EventBody) (h : other ≠ jobId) :
    eventsOf (appendEvents events jobId bodies) other = eventsOf events other := by
  induction bodies generalizing events with
  | nil => rfl
  | cons body bodies ih =>
    rw [show appendEvents events jobId (body :: bodies)
        = appendEvents (appendEvent events jobId body) jobId bodies from rfl, ih,
      eventsOf_appendEvent_ne _ _ h]

theorem logOf_appendEvents_self (events : List JobEvent) (jobId : Str) (bodies : List EventBody) :
    logOf (appendEvents events jobId bodies) jobId = logOf events jobId ++ bodies := by
  induction bodies generalizing events with
  | nil => simp [appendEvents]
  | cons body bodies ih =>
    rw [show appendEvents events jobId (body :: bodies)
        = appendEvents (appendEvent events jobId body) jobId bodies from rfl, ih, logOf, logOf,
      eventsOf_appendEvent_self]
    simp

theorem logOf_appendEvents_ne {events : List JobEvent} {jobId other : Str}
    (bodies : List EventBody) (h : other ≠ jobId) :
    logOf (appendEvents events jobId bodies) other = logOf events other := by
  rw [logOf, eventsOf_appendEvents_ne bodies h, logOf]

/-- The events a transaction adds stand after all the others. -/
theorem appendEvents_eq_append (events : List JobEvent) (jobId : Str) (bodies : List EventBody) :
    ∃ added : List JobEvent, appendEvents events jobId bodies = events ++ added ∧
      added.map (·.body) = bodies ∧ ∀ e ∈ added, e.jobId = jobId := by
  induction bodies generalizing events with
  | nil => exact ⟨[], by simp [appendEvents]⟩
  | cons body bodies ih =>
    obtain ⟨added, happ, hbodies, hids⟩ := ih (appendEvent events jobId body)
    refine ⟨⟨jobId, maxSequence events jobId + 1, body⟩ :: added, ?_, ?_, ?_⟩
    · rw [show appendEvents events jobId (body :: bodies)
        = appendEvents (appendEvent events jobId body) jobId bodies from rfl, happ, appendEvent,
        List.append_assoc, List.singleton_append]
    · rw [List.map_cons, hbodies]
    · exact List.forall_mem_cons.mpr ⟨rfl, hids⟩

theorem Numbered.maxSequence_eq {events : List JobEvent} {jobId : Str}
    (h : Numbered events jobId) : maxSequence events jobId = (eventsOf events jobId).length := by
  have hmax : ∀ n, (List.range' 1 n).foldl max 0 = n := by
    intro n
    induction n with
    | zero => rfl
    | succ n ih =>
      rw [List.range'_1_concat, List.foldl_append, ih]
      simp
      omega
  rw [maxSequence, h, hmax]

theorem Numbered.appendEvents {events : List JobEvent} {jobId : Str} (h : Numbered events jobId)
    (bodies : List EventBody) : Numbered (appendEvents events jobId bodies) jobId := by
  induction bodies generalizing events with
  | nil => exact h
  | cons body bodies ih =>
    have hnext : Numbered (appendEvent events jobId body) jobId := by
      rw [Numbered, eventsOf_appendEvent_self, List.map_append, h, List.length_append,
        List.length_singleton, List.range'_1_concat, h.maxSequence_eq]
      simp [Nat.add_comm]
    exact ih hnext

theorem numbered_appendEvents_ne {events : List JobEvent} {jobId other : Str}
    (bodies : List EventBody) (h : other ≠ jobId) :
    Numbered (appendEvents events jobId bodies) other ↔ Numbered events other := by
  rw [Numbered, Numbered, eventsOf_appendEvents_ne bodies h]

/-! ## The form of a log -/

/-- A log before its terminal block: queued, then one pair for each restart that met the
job running, then the last claim. -/
def openLog (restarts : Nat) (claimed : Bool) : List EventBody :=
  .status .queued none :: ((List.replicate restarts
    [EventBody.status .running none, .status .queued none]).flatten
      ++ if claimed then [.status .running none] else [])

/-- The events of a successful end. -/
def terminalBlock (items : List FindingDict) (usage : UsageDict) : List EventBody :=
  items.map .finding ++ [.status .done none, .done items.length usage]

def ReviewJob.usage (job : ReviewJob) : UsageDict := ⟨job.inputBytes, job.chunks, job.cacheHit⟩

/-- The row of a job together with its log. -/
inductive JobLog (job : ReviewJob) : List EventBody → Prop where
  | queued (restarts : Nat) (hstatus : job.status = .queued) (hfindings : job.findings = none) :
      JobLog job (openLog restarts false)
  | running (restarts : Nat) (hstatus : job.status = .running) (hfindings : job.findings = none) :
      JobLog job (openLog restarts true)
  | done (restarts : Nat) (items : List FindingDict) (hstatus : job.status = .done)
      (hfindings : job.findings = some items) :
      JobLog job (openLog restarts true ++ terminalBlock items job.usage)
  | failed (restarts : Nat) (message : Str) (hstatus : job.status = .failed)
      (hfindings : job.findings = none) (hmessage : job.errorMessage = some message) :
      JobLog job (openLog restarts true ++ [.status .failed (some message)])

theorem openLog_claim (restarts : Nat) :
    openLog restarts false ++ [.status .running none] = openLog restarts true := by
  simp [openLog]

theorem openLog_requeue (restarts : Nat) :
    openLog restarts true ++ [.status .queued none] = openLog (restarts + 1) false := by
  simp [openLog, List.replicate_succ']

/-! ## One transaction on a job -/

def ReviewJob.finished (job : ReviewJob) (limited : List Finding) : ReviewJob :=
  { job with findings := some (limited.map Finding.modelDump), status := .done }

def ReviewJob.failedWith (job : ReviewJob) (message : Str) : ReviewJob :=
  { job with status := .failed, errorCode := some (lit "internal"), errorMessage := some message }

/-- What one transaction does to the row of a job, with the events it appends. -/
inductive Advance (job : ReviewJob) : ReviewJob → List EventBody → Prop where
  | claim (h : job.status = .queued) :
      Advance job { job with status := .running } [.status .running none]
  | requeue (h : job.status = .running) :
      Advance job { job with status := .queued } [.status .queued none]
  | finish (h : job.status = .running) (limited : List Finding) :
      Advance job (job.finished limited) (terminalBlock (limited.map Finding.modelDump) job.usage)
  | fail (h : job.status = .running) (message : Str) :
      Advance job (job.failedWith message) [.status .failed (some message)]

theorem JobLog.created {job : ReviewJob} (hstatus : job.status = .queued)
    (hfindings : job.findings = none) : JobLog job [.status .queued none] :=
  .queued 0 hstatus hfindings

theorem JobLog.head?_eq {job : ReviewJob} {log : List EventBody} (h : JobLog job log) :
    log.head? = some (.status .queued none) := by
  cases h <;> rfl

theorem JobLog.of_queued {job : ReviewJob} {log : List EventBody} (h : JobLog job log)
    (hq : job.status = .queued) : job.findings = none ∧ ∃ restarts, log = openLog restarts false := by
  cases h with
  | queued restarts _ hfindings => exact ⟨hfindings, restarts, rfl⟩
  | running _ hstatus => exact absurd (hq.symm.trans hstatus) (by decide)
  | done _ _ hstatus => exact absurd (hq.symm.trans hstatus) (by decide)
  | failed _ _ hstatus => exact absurd (hq.symm.trans hstatus) (by decide)

theorem JobLog.of_running {job : ReviewJob} {log : List EventBody} (h : JobLog job log)
    (hr : job.status = .running) : job.findings = none ∧ ∃ restarts, log = openLog restarts true := by
  cases h with
  | queued _ hstatus => exact absurd (hr.symm.trans hstatus) (by decide)
  | running restarts _ hfindings => exact ⟨hfindings, restarts, rfl⟩
  | done _ _ hstatus => exact absurd (hr.symm.trans hstatus) (by decide)
  | failed _ _ hstatus => exact absurd (hr.symm.trans hstatus) (by decide)

theorem JobLog.advance {job job' : ReviewJob} {log bodies : List EventBody} (hlog : JobLog job log)
    (h : Advance job job' bodies) : JobLog job' (log ++ bodies) := by
  cases h with
  | claim hq =>
    obtain ⟨hfindings, restarts, rfl⟩ := hlog.of_queued hq
    rw [openLog_claim]
    exact .running restarts rfl hfindings
  | requeue hr =>
    obtain ⟨hfindings, restarts, rfl⟩ := hlog.of_running hr
    rw [openLog_requeue]
    exact .queued (restarts + 1) rfl hfindings
  | finish hr limited =>
    obtain ⟨-, restarts, rfl⟩ := hlog.of_running hr
    exact .done restarts _ rfl rfl
  | fail hr message =>
    obtain ⟨hfindings, restarts, rfl⟩ := hlog.of_running hr
    exact .failed restarts message rfl hfindings rfl

/-- The fields a job keeps from its creation on. -/
structure SameJob (job job' : ReviewJob) : Prop where
  id : job'.id = job.id
  diff : job'.diff = job.diff
  provider : job'.provider = job.provider
  maxFindings : job'.maxFindings = job.maxFindings
  requestHash : job'.requestHash = job.requestHash
  inputBytes : job'.inputBytes = job.inputBytes
  chunks : job'.chunks = job.chunks
  cacheHit : job'.cacheHit = job.cacheHit
  createdAt : job'.createdAt = job.createdAt

theorem SameJob.refl (job : ReviewJob) : SameJob job job :=
  ⟨rfl, rfl, rfl, rfl, rfl, rfl, rfl, rfl, rfl⟩

theorem SameJob.trans {job job' job'' : ReviewJob} (h : SameJob job job') (h' : SameJob job' job'') :
    SameJob job job'' where
  id := h'.id.trans h.id
  diff := h'.diff.trans h.diff
  provider := h'.provider.trans h.provider
  maxFindings := h'.maxFindings.trans h.maxFindings
  requestHash := h'.requestHash.trans h.requestHash
  inputBytes := h'.inputBytes.trans h.inputBytes
  chunks := h'.chunks.trans h.chunks
  cacheHit := h'.cacheHit.trans h.cacheHit
  createdAt := h'.createdAt.trans h.createdAt

theorem Advance.same {job job' : ReviewJob} {bodies : List EventBody} (h : Advance job job' bodies) :
    SameJob job job' := by
  cases h <;> exact ⟨rfl, rfl, rfl, rfl, rfl, rfl, rfl, rfl, rfl⟩

/-- A job that ended is advanced no more. -/
theorem Advance.not_ended {job job' : ReviewJob} {bodies : List EventBody}
    (h : Advance job job' bodies) : job.status = .queued ∨ job.status = .running := by
  cases h with
  | claim h => exact .inl h
  | requeue h => exact .inr h
  | finish h => exact .inr h
  | fail h => exact .inr h

/-- The last status event of a log. -/
def lastStatus (log : List EventBody) : Option JobStatusValue :=
  (log.filterMap fun
    | .status status _ => some status
    | _ => none).getLast?

theorem JobLog.lastStatus_eq {job : ReviewJob} {log : List EventBody} (h : JobLog job log) :
    lastStatus log = some job.status := by
  cases h with
  | queued restarts hstatus =>
    rw [hstatus]
    cases restarts with
    | zero => rfl
    | succ n =>
      rw [← openLog_requeue]
      simp [lastStatus]
  | running restarts hstatus =>
    rw [hstatus, ← openLog_claim]
    simp [lastStatus]
  | done restarts items hstatus =>
    rw [hstatus]
    simp [lastStatus, terminalBlock]
  | failed restarts message hstatus =>
    rw [hstatus]
    simp [lastStatus]

end DiffReview
