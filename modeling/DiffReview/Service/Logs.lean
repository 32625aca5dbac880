import DiffReview.Service.RequestHash
import DiffReview.Service.Refinement
import DiffReview.Spec.Stream

/-!
# DiffReview — event logs over whole runs

Every reachable state has, for each job, a log numbered `1..n` of the form `JobLog`
prescribes; once it holds a terminal event the job and its log stay as they are.
-/

namespace DiffReview

open Py Transition

theorem terminal_openLog {restarts : Nat} {claimed : Bool} {body : EventBody}
    (h : body ∈ openLog restarts claimed) : body.terminal = false := by
  rcases List.mem_cons.mp h with rfl | h
  · rfl
  rcases List.mem_append.mp h with h | h
  · obtain ⟨pair, hpair, h⟩ := List.mem_flatten.mp h
    rw [List.eq_of_mem_replicate hpair] at h
    rcases List.mem_pair.mp h with rfl | rfl <;> rfl
  · cases claimed with
    | true =>
      rw [List.mem_singleton.mp h]
      rfl
    | false => cases h

/-- A job has ended exactly when its log has a terminal event. -/
theorem JobLog.terminal_iff {job : ReviewJob} {log : List EventBody} (h : JobLog job log) :
    (∃ body ∈ log, body.terminal = true) ↔ job.status = .done ∨ job.status = .failed := by
  have hopen : ∀ {restarts claimed}, ¬ ∃ body ∈ openLog restarts claimed, body.terminal = true := by
    rintro restarts claimed ⟨body, hbody, hterm⟩
    rw [terminal_openLog hbody] at hterm
    cases hterm
  cases h with
  | queued restarts hstatus => exact iff_of_false hopen (by rw [hstatus]; decide)
  | running restarts hstatus => exact iff_of_false hopen (by rw [hstatus]; decide)
  | done restarts items hstatus =>
    refine iff_of_true ⟨.done items.length job.usage, ?_, rfl⟩ (.inl hstatus)
    simp [terminalBlock]
  | failed restarts message hstatus =>
    refine iff_of_true ⟨.status .failed (some message), ?_, rfl⟩ (.inr hstatus)
    simp

theorem Writes.job_ended {env : Env} {acts : List Action} {db db' : Tables}
    (h : Writes env acts db db') {id : Str} {job : ReviewJob}
    (hjob : db.jobs.get? id = some job) (hended : job.status = .done ∨ job.status = .failed) :
    db'.jobs.get? id = some job ∧ eventsOf db'.events id = eventsOf db.events id := by
  induction h with
  | refl => exact ⟨hjob, rfl⟩
  | tail _ hwrite ih =>
    obtain ⟨hjob', hevents⟩ := hwrite.job_ended ih.1 hended
    exact ⟨hjob', hevents.trans ih.2⟩

/-- The log of a job in any reachable state: its numbering, its form, its last status, and
its end, after which no run changes the job or its log. -/
theorem job_log_lifecycle {env : Env} {acts : List Action} {s : State} {id : Str} {job : ReviewJob}
    (hrun : Run (step env) State.init acts s) (hjob : s.db.jobs.get? id = some job) :
    (eventsOf s.db.events id).map (·.sequence)
        = List.range' 1 (eventsOf s.db.events id).length ∧
      JobLog job (logOf s.db.events id) ∧
      lastStatus (logOf s.db.events id) = some job.status ∧
      ((∃ body ∈ logOf s.db.events id, body.terminal = true) →
        ∀ acts' s', Run (step env) s acts' s' → s'.db.jobs.get? id = some job ∧
          eventsOf s'.db.events id = eventsOf s.db.events id) := by
  obtain ⟨hledger, -⟩ := run_invariants hrun
  have hlog := hledger.logged.log hjob
  refine ⟨hledger.logged.numbered hjob, hlog, hlog.lastStatus_eq, fun hterm acts' s' hrun' => ?_⟩
  exact (run_writes hrun hrun').job_ended hjob (hlog.terminal_iff.mp hterm)

/-- A mock review from its submission to its end. -/
def sampleRun : List Action :=
  [.submit (sampleBody .mock) none (lit "a") 0, .claim 0 (lit "a"),
    .review 0 (lit "a") fun _ => .ok [], .store 0]

set_option maxRecDepth 20000 in
theorem sampleRun_isSome :
    (sampleRun.foldlM (step (sampleEnv none)) State.init).isSome = true := by decide

def sampleState : State := (sampleRun.foldlM (step (sampleEnv none)) State.init).get sampleRun_isSome

set_option maxRecDepth 20000 in
theorem sampleJob_isSome : (sampleState.db.jobs.get? (lit "a")).isSome = true := by decide

def sampleJob : ReviewJob := (sampleState.db.jobs.get? (lit "a")).get sampleJob_isSome

theorem job_log_lifecycle_sample :
    (eventsOf sampleState.db.events (lit "a")).map (·.sequence)
        = List.range' 1 (eventsOf sampleState.db.events (lit "a")).length ∧
      JobLog sampleJob (logOf sampleState.db.events (lit "a")) ∧
      lastStatus (logOf sampleState.db.events (lit "a")) = some sampleJob.status ∧
      ((∃ body ∈ logOf sampleState.db.events (lit "a"), body.terminal = true) →
        ∀ acts' s', Run (step (sampleEnv none)) sampleState acts' s' →
          s'.db.jobs.get? (lit "a") = some sampleJob ∧
          eventsOf s'.db.events (lit "a") = eventsOf sampleState.db.events (lit "a")) :=
  job_log_lifecycle (Run.get sampleRun_isSome) (Option.some_get sampleJob_isSome).symm

end DiffReview
