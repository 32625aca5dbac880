import DiffReview.Service.Calls
import DiffReview.Service.Progress
import DiffReview.Service.RequestHash

/-!
# DiffReview — first come, first served

`_claim_job` takes the oldest queued job. The events keep the order in which that happened: at
each claim, of a new job or of one that a restart has queued again, no older job was waiting
(`no_overtaking`).
-/

namespace DiffReview

open Py Transition

variable {env : Env} {acts : List Action} {s s' : State} {db db' : Tables}

/-! ## Rows and events of a step -/

/-- A step that is no submission keeps the jobs and the columns of their requests. -/
theorem step_same_job {a : Action} (hrun : Run (step env) State.init acts s)
    (hstep : step env s a = some s') (hsubmit : ∀ rawBody key jobId now, a ≠ .submit rawBody key jobId now)
    {id : Str} {job : ReviewJob} (hjob : s'.db.jobs.get? id = some job) :
    ∃ old, s.db.jobs.get? id = some old ∧ SameJob old job := by
  -- the row was there, with the columns that no transaction of a worker changes
  have hids := step_sameIds hstep hsubmit
  have hmem : id ∈ s.db.jobs.keys := hids.jobs ▸ Table.mem_keys_of_get? hjob
  cases hold : s.db.jobs.get? id with
  | none => exact absurd hmem (Table.get?_eq_none_iff.mp hold)
  | some old =>
    have hwrites := run_writes hrun (Run.cons_iff.mpr ⟨s', hstep, Run.nil⟩)
    obtain ⟨job', hjob', hsame⟩ := hwrites.same_job hold
    cases hjob.symm.trans hjob'
    exact ⟨old, rfl, hsame⟩

/-- Each row is new, or stands for an old one of the same age. -/
def RowsAged (db db' : Tables) : Prop :=
  ∀ job ∈ db'.jobs.rows, db.jobs.get? job.id = none ∨
    ∃ old ∈ db.jobs.rows, old.id = job.id ∧ old.createdAt = job.createdAt

theorem RowsAged.refl (db : Tables) : RowsAged db db := fun job hjob => .inr ⟨job, hjob, rfl, rfl⟩

/-- Events are only added, and none of them is a claim. -/
def Quiet (db db' : Tables) : Prop :=
  ∃ added, db'.events = db.events ++ added ∧ ∀ e ∈ added, e.body ≠ .status .running none

theorem Quiet.refl (db : Tables) : Quiet db db :=
  ⟨[], (List.append_nil _).symm, fun _ h => absurd h List.not_mem_nil⟩

theorem Quiet.trans {db₁ db₂ db₃ : Tables} (h : Quiet db₁ db₂) (h' : Quiet db₂ db₃) :
    Quiet db₁ db₃ := by
  obtain ⟨added, hevents, hquiet⟩ := h
  obtain ⟨added', hevents', hquiet'⟩ := h'
  refine ⟨added ++ added', ?_, List.forall_mem_append.mpr ⟨hquiet, hquiet'⟩⟩
  rw [hevents', hevents, List.append_assoc]

theorem quiet_appendEvents (id : Str) (bodies : List EventBody)
    (hevents : db'.events = appendEvents db.events id bodies)
    (hbodies : ∀ b ∈ bodies, b ≠ .status .running none) : Quiet db db' := by
  obtain ⟨added, happend, hmap, -⟩ := appendEvents_eq_append db.events id bodies
  refine ⟨added, hevents.trans happend, fun e he => hbodies e.body ?_⟩
  rw [← hmap]
  exact List.mem_map_of_mem he

theorem recoverAbandonedJobs_quiet (db : Tables) (jobs : List ReviewJob) :
    Quiet db (recoverAbandonedJobs db jobs) := by
  induction jobs generalizing db with
  | nil => exact .refl db
  | cons job jobs ih =>
    have hone : Quiet db (requeueJob db job) := by
      refine quiet_appendEvents job.id [.status .queued none] rfl ?_
      intro b hb
      rw [List.mem_singleton.mp hb]
      decide
    exact hone.trans (ih _)

/-- A worker that ends its job appends no claim. -/
theorem Progress.quiet (h : Progress env acts db db') {job : ReviewJob}
    (hjobs : db'.jobs = db.jobs.replace job) (hended : job.status = .done ∨ job.status = .failed) :
    Quiet db db' := by
  -- a claim would have left the job running, and not ended
  have hstart : ∀ {j : ReviewJob}, db.jobs.get? j.id = some j → j.status = .queued →
      db'.jobs = db.jobs.replace { j with status := .running } → False := by
    intro j hj hqueued hjobs'
    have hmem : j.id ∈ db.jobs.keys := Table.mem_keys_of_get? hj
    have hrunning : db'.jobs.get? j.id = some { j with status := .running } := by
      rw [hjobs']
      exact Table.get?_replace_self hmem
    rw [hjobs] at hrunning
    by_cases hid : j.id = job.id
    · rw [hid, Table.get?_replace_self (hid ▸ hmem)] at hrunning
      have hstatus : job.status = .running := congrArg ReviewJob.status (Option.some.inj hrunning)
      rcases hended with h | h
      · cases h.symm.trans hstatus
      · cases h.symm.trans hstatus
    · rw [Table.get?_replace_ne _ _ hid, hj] at hrunning
      rw [Option.some.inj hrunning] at hqueued
      cases hqueued
  have hblock : ∀ (items : List FindingDict) (usage : UsageDict),
      ∀ b ∈ terminalBlock items usage, b ≠ .status .running none := by
    intro items usage b hb
    rcases List.mem_append.mp hb with hb | hb
    · obtain ⟨item, -, rfl⟩ := List.mem_map.mp hb
      exact fun heq => EventBody.noConfusion heq
    · rcases List.mem_cons.mp hb with rfl | hb
      · decide
      · rw [List.mem_singleton.mp hb]
        exact fun heq => EventBody.noConfusion heq
  have hfailed : ∀ message : Str, ∀ b ∈ [EventBody.status .failed (some message)],
      b ≠ .status .running none := by
    intro message b hb
    rw [List.mem_singleton.mp hb]
    simp
  cases h with
  | @start j hj hqueued => exact (hstart hj hqueued rfl).elim
  | @requeue j hj hrunning =>
    refine quiet_appendEvents j.id [.status .queued none] rfl fun b hb => ?_
    rw [List.mem_singleton.mp hb]
    decide
  | store _ _ _ _ _ _ _ => exact quiet_appendEvents _ _ rfl (hblock _ _)
  | copy _ _ _ _ _ _ => exact quiet_appendEvents _ _ rfl (hblock _ _)
  | failSource _ _ _ _ _ _ _ => exact quiet_appendEvents _ _ rfl (hfailed _)
  | failHit _ _ _ _ _ _ => exact quiet_appendEvents _ _ rfl (hfailed _)

/-! ## Claims -/

/-- After these events the job is queued. -/
def Queued (events : List JobEvent) (id : Str) : Prop :=
  lastStatus (logOf events id) = some .queued

/-- Whenever a job was claimed, no older one was queued. -/
def NoOvertaking (db : Tables) : Prop :=
  ∀ older ∈ db.jobs.rows, ∀ claimed ∈ db.jobs.rows, older.createdAt < claimed.createdAt →
    ∀ pre sequence post,
      db.events = pre ++ ⟨claimed.id, sequence, .status .running none⟩ :: post → ¬ Queued pre older.id

/-- A step that appends events keeps the order if the claims among them do. -/
theorem NoOvertaking.append (h : NoOvertaking db) (hlogged : Logged db) (hrows : RowsAged db db')
    {added : List JobEvent} (hevents : db'.events = db.events ++ added)
    (hadded : ∀ older ∈ db'.jobs.rows, ∀ claimed ∈ db'.jobs.rows,
      older.createdAt < claimed.createdAt → ∀ pre sequence post,
        added = pre ++ ⟨claimed.id, sequence, .status .running none⟩ :: post →
          ¬ Queued (db.events ++ pre) older.id) : NoOvertaking db' := by
  intro older holder claimed hclaimed hage pre sequence post hsplit
  rw [hevents, List.append_eq_append_iff] at hsplit
  -- the claim is among the new events, or among the old ones
  rcases hsplit with ⟨new, rfl, hnew⟩ | ⟨rest, hold, hrest⟩
  · exact hadded older holder claimed hclaimed hage new sequence post hnew
  cases rest with
  | nil =>
    rw [List.append_nil] at hold
    rw [← hold, ← List.append_nil db.events]
    exact hadded older holder claimed hclaimed hage [] sequence post hrest.symm
  | cons e rest =>
    obtain ⟨rfl, -⟩ := List.cons.inj hrest
    have hevent : (⟨claimed.id, sequence, .status .running none⟩ : JobEvent) ∈ db.events := by
      rw [hold]
      exact List.mem_append_right _ List.mem_cons_self
    rcases hrows claimed hclaimed with hnone | ⟨oldClaimed, holdClaimed, hclaimedId, hclaimedAge⟩
    · -- a job that was not there had no events
      have hempty := hlogged.known hnone
      exact absurd (List.mem_filter.mpr ⟨hevent, decide_eq_true rfl⟩) (hempty ▸ List.not_mem_nil)
    rcases hrows older holder with hnone | ⟨oldOlder, holdOlder, holderId, holderAge⟩
    · have hempty : eventsOf pre older.id = [] := by
        have hall := hlogged.known hnone
        rw [hold, eventsOf, List.filter_append] at hall
        exact (List.append_eq_nil_iff.mp hall).1
      intro hqueued
      rw [Queued, logOf, hempty] at hqueued
      cases hqueued
    · rw [← hclaimedId] at hold
      rw [← holderId]
      refine h oldOlder holdOlder oldClaimed holdClaimed ?_ pre sequence rest hold
      rwa [holderAge, hclaimedAge]

/-- A step without a claim keeps the order. -/
theorem NoOvertaking.quiet (h : NoOvertaking db) (hlogged : Logged db) (hrows : RowsAged db db')
    (hquiet : Quiet db db') : NoOvertaking db' := by
  obtain ⟨added, hevents, hbodies⟩ := hquiet
  refine h.append hlogged hrows hevents ?_
  intro older _ claimed _ _ pre sequence post hsplit
  have hmem : (⟨claimed.id, sequence, .status .running none⟩ : JobEvent) ∈ added := by
    rw [hsplit]
    exact List.mem_append_right _ List.mem_cons_self
  exact absurd rfl (hbodies _ hmem)

/-! ## Runs -/

theorem RowsAged.of_same (h : ∀ job ∈ db'.jobs.rows, ∃ old, db.jobs.get? job.id = some old ∧
    SameJob old job) : RowsAged db db' := by
  intro job hjob
  obtain ⟨old, hold, hsame⟩ := h job hjob
  exact .inr ⟨old, (Table.get?_eq_some_iff.mp hold).1, hsame.id.symm, hsame.createdAt.symm⟩

/-- The claim of the oldest queued job. -/
theorem NoOvertaking.claim (h : NoOvertaking db) (hlogged : Logged db) {job : ReviewJob}
    (hjob : db.jobs.get? job.id = some job) (hclaim : Claimable db job) :
    NoOvertaking (db.advance { job with status := .running } [.status .running none]) := by
  have hsame := (Advance.claim hclaim.1).same
  have hmem := (Table.get?_eq_some_iff.mp hjob).1
  have hrows : RowsAged db
      (db.advance { job with status := .running } [.status .running none]) := by
    intro j hj
    rcases mem_rows_advance _ hjob hsame hj with rfl | ⟨hj, -⟩
    · exact .inr ⟨job, hmem, rfl, rfl⟩
    · exact .inr ⟨j, hj, rfl, rfl⟩
  refine h.append hlogged hrows rfl ?_
  intro older holder claimed hclaimed hage pre sequence post hsplit
  -- the claim is the only event of the step
  cases pre with
  | cons e pre => exact absurd (List.cons.inj hsplit).2.symm (by simp)
  | nil =>
    have hid : job.id = claimed.id := congrArg JobEvent.jobId (List.cons.inj hsplit).1
    have hclaimedAge : claimed.createdAt = job.createdAt := by
      rcases mem_rows_advance _ hjob hsame hclaimed with rfl | ⟨-, hne⟩
      · rfl
      · exact absurd hid.symm hne
    rcases mem_rows_advance _ hjob hsame holder with rfl | ⟨holder, -⟩
    · exact absurd (hclaimedAge ▸ hage) (lt_irrefl _)
    · intro hqueued
      rw [Queued, List.append_nil, (hlogged.log (Table.get?_of_mem holder)).lastStatus_eq] at hqueued
      -- an older queued job would have been claimed instead
      have hle := hclaim.2 older holder (Option.some.inj hqueued)
      omega

/-- In every run, restarts included, a claim takes the oldest job there is to claim: no older
one was queued when it was made. -/
theorem no_overtaking (hrun : Run (step env) State.init acts s) : NoOvertaking s.db := by
  refine hrun.invariant_trace (P := fun _ s => NoOvertaking s.db)
    (fun older holder => absurd holder List.not_mem_nil) ?_
  intro acts t a t' hrun hprev hstep
  obtain ⟨hledger, hhold⟩ := run_invariants hrun
  have heffect := step_effect hledger hhold hstep
  cases heffect with
  | still => exact hprev
  | move _ _ _ => exact hprev
  | kill => exact hprev
  | claim hup hidle hlt hjob hclaim => exact hprev.claim hledger.logged hjob hclaim
  | @insert _ _ _ _ _ _ db' hup hparse hkey hinsert =>
    obtain ⟨jobId, hit, now, hjobs, hevents⟩ := (insertJob_insert env hinsert).jobs_eq
    refine hprev.quiet hledger.logged ?_ (quiet_appendEvents jobId _ hevents ?_)
    · intro job hjob
      have hjob' : job ∈ db'.jobs.rows := hjob
      rw [Table.rows_insert? hjobs, List.mem_append, List.mem_singleton] at hjob'
      rcases hjob' with hold | rfl
      · exact .inr ⟨job, hold, rfl, rfl⟩
      · exact .inl (Table.get?_of_insert? hjobs)
    · intro b hb
      rw [List.mem_singleton.mp hb]
      decide
  | @finish _ _ job job' bodies _ hheld hprogress hadv hended hjobs =>
    refine hprev.quiet hledger.logged ?_ (hprogress.quiet hjobs hended)
    intro j hj
    have hrows : j ∈ (t.db.advance job' bodies).jobs.rows := by
      show j ∈ (t.db.jobs.replace job').rows
      rw [← hjobs]
      exact hj
    obtain ⟨hjob, -, -⟩ := hhold.held hheld
    rcases mem_rows_advance _ hjob hadv.same hrows with rfl | ⟨hold, -⟩
    · exact .inr ⟨job, (Table.get?_eq_some_iff.mp hjob).1, hadv.same.id.symm, hadv.same.createdAt.symm⟩
    · exact .inr ⟨j, hold, rfl, rfl⟩
  | recover hdown hperm =>
    refine hprev.quiet hledger.logged ?_ (recoverAbandonedJobs_quiet _ _)
    refine .of_same fun job hjob => ?_
    exact step_same_job hrun hstep (fun _ _ _ _ heq => Action.noConfusion heq) (Table.get?_of_mem hjob)

/-- Two jobs; the process is killed while a worker has the first. -/
def killedRun : List Action :=
  [.submit (sampleBody .mock) none (lit "a") 0, .submit (sampleBody .llm) none (lit "b") 1,
    .claim 0 (lit "a"), .kill]

set_option maxRecDepth 20000 in
theorem killedRun_isSome : (killedRun.foldlM (step (sampleEnv none)) State.init).isSome = true := by
  decide

def killedState : State := Option.get _ killedRun_isSome

/-- The next process queues the first job again, and a third one comes. -/
def orderRun : List Action :=
  killedRun ++ [.recover (runningJobs killedState.db), .claim 0 (lit "a"), .claim 1 (lit "b"),
    .submit (sampleBody .mock) none (lit "c") 2]

set_option maxRecDepth 20000 in
theorem orderRun_isSome : (orderRun.foldlM (step (sampleEnv none)) State.init).isSome = true := by
  decide

def orderState : State := Option.get _ orderRun_isSome

set_option maxRecDepth 20000 in
theorem no_overtaking_sample :
    orderState.db.events.map (fun e => (e.jobId, e.body)) =
        [(lit "a", .status .queued none), (lit "b", .status .queued none),
          (lit "a", .status .running none), (lit "a", .status .queued none),
          (lit "a", .status .running none), (lit "b", .status .running none),
          (lit "c", .status .queued none)] ∧
      NoOvertaking orderState.db :=
  ⟨by decide, no_overtaking (Run.get orderRun_isSome)⟩

end DiffReview
