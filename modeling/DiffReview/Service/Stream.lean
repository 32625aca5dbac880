import DiffReview.Service.Logs

/-!
# DiffReview — what a live stream delivers

Until it ends, a stream has delivered the part of the job's log between its start and its
cursor (`StreamInv`). It ends with the terminal event exactly when the job's failure does
not fall between a read that found nothing and the refresh that follows it
(`stream_complete_iff`).
-/

namespace DiffReview

open Py Transition

/-! ## Reading a numbered log -/

/-- The part of a log that the position `1..n` of its sequences leaves. -/
theorem filter_sequence_eq_drop {log : List JobEvent} {first : Nat}
    (h : log.map (·.sequence) = List.range' first log.length) (k : Nat) :
    log.filter (fun e => k < e.sequence) = log.drop (k + 1 - first) := by
  induction log generalizing first with
  | nil => simp
  | cons e log ih =>
    rw [List.length_cons, List.range'_succ, List.map_cons] at h
    obtain ⟨hfirst, hrest⟩ := List.cons.inj h
    rw [List.filter_cons, ih hrest, hfirst]
    by_cases hk : k < first
    · rw [if_pos (by simpa using hk), show k + 1 - (first + 1) = 0 from by omega,
        show k + 1 - first = 0 from by omega, List.drop_zero, List.drop_zero]
    · rw [if_neg (by simpa using hk), show k + 1 - first = k + 1 - (first + 1) + 1 from by omega,
        List.drop_succ_cons]

theorem listEventsAfter_eq_drop {events : List JobEvent} {jobId : Str} (h : Numbered events jobId)
    (k : Nat) : listEventsAfter events jobId k = (eventsOf events jobId).drop k := by
  have hfilter := filter_sequence_eq_drop h k
  rw [Nat.add_sub_cancel] at hfilter
  have hsorted : ((eventsOf events jobId).drop k).Pairwise fun a b => a.sequence ≤ b.sequence := by
    have hle : ((eventsOf events jobId).map (·.sequence)).Pairwise (· ≤ ·) := by
      rw [h]
      have hlt : (List.range' 1 (eventsOf events jobId).length).Pairwise (· < ·) :=
        List.pairwise_lt_range'
      exact hlt.imp le_of_lt
    exact (List.pairwise_map.mp hle).sublist (List.drop_sublist _ _)
  rw [listEventsAfter, hfilter]
  exact hsorted.insertionSort_eq

/-- A terminal event is the last of its log. -/
theorem JobLog.terminal_last {job : ReviewJob} {log : List EventBody} (h : JobLog job log)
    {init : List EventBody} {last : EventBody} (hlog : log = init ++ [last]) :
    ∀ body ∈ init, body.terminal = false := by
  have hopen : ∀ {restarts claimed} (pre : List EventBody) {tail : List EventBody},
      openLog restarts claimed ++ tail = init ++ [last] → tail = pre ++ [last] →
      (∀ body ∈ pre, body.terminal = false) → ∀ body ∈ init, body.terminal = false := by
    intro restarts claimed pre tail heq htail hpre body hbody
    rw [htail, ← List.append_assoc] at heq
    rw [← (List.append_inj' heq rfl).1] at hbody
    rcases List.mem_append.mp hbody with hbody | hbody
    · exact terminal_openLog hbody
    · exact hpre body hbody
  cases h with
  | queued restarts _ _ =>
    intro body hbody
    exact terminal_openLog (hlog ▸ List.mem_append_left _ hbody)
  | running restarts _ _ =>
    intro body hbody
    exact terminal_openLog (hlog ▸ List.mem_append_left _ hbody)
  | done restarts items _ _ =>
    have hblock : terminalBlock items job.usage
        = (items.map EventBody.finding ++ [.status .done none]) ++ [.done items.length job.usage] := by
      simp [terminalBlock]
    have hlast : last = .done items.length job.usage := by
      rw [hblock, ← List.append_assoc] at hlog
      exact (List.cons.inj (List.append_inj' hlog rfl).2).1.symm
    refine hopen _ hlog (hlast ▸ hblock) fun body hbody => ?_
    rcases List.mem_append.mp hbody with hbody | hbody
    · obtain ⟨item, -, rfl⟩ := List.mem_map.mp hbody
      rfl
    · rw [List.mem_singleton.mp hbody]
      rfl
  | failed restarts message _ _ _ =>
    have hlast : last = .status .failed (some message) :=
      (List.cons.inj (List.append_inj' hlog rfl).2).1.symm
    exact hopen [] hlog (by rw [hlast]; rfl) (by simp)

/-- The loop of one read sends everything when only the last event can be terminal. -/
theorem Stream.send_eq {st : Stream} {init : List JobEvent} {last : JobEvent}
    (h : ∀ e ∈ init, e.body.terminal = false) :
    st.send (init ++ [last]) = { st with
      sequence := last.sequence
      emitted := st.emitted ++ (init ++ [last])
      position := if last.body.terminal then .returned else st.position } := by
  induction init generalizing st with
  | nil =>
    rw [List.nil_append, Stream.send]
    split <;> simp [Stream.send, *]
  | cons e init ih =>
    obtain ⟨he, hinit⟩ := List.forall_mem_cons.mp h
    rw [List.cons_append, Stream.send, he]
    simp only [Bool.false_eq_true, if_false, ih hinit, List.append_assoc, List.singleton_append]

/-! ## The invariant of a stream -/

theorem Writes.eventsOf_append {env : Env} {acts : List Action} {db db' : Tables}
    (h : Writes env acts db db') (id : Str) :
    ∃ added, eventsOf db'.events id = eventsOf db.events id ++ added := by
  induction h with
  | refl => exact ⟨[], (List.append_nil _).symm⟩
  | @tail b c _ hwrite ih =>
    obtain ⟨added, hadded⟩ := ih
    have hgrow : ∃ new, c.events = b.events ++ new := by
      rcases hwrite.jobs_cases with ⟨_, _, jobId, _, _, -, -, hevents⟩ | ⟨_, j, bodies, -, -, -, hevents⟩
      · obtain ⟨new, hnew, -⟩ := appendEvents_eq_append b.events jobId [.status .queued none]
        exact ⟨new, hevents.trans hnew⟩
      · obtain ⟨new, hnew, -⟩ := appendEvents_eq_append b.events j.id bodies
        exact ⟨new, hevents.trans hnew⟩
    obtain ⟨new, hnew⟩ := hgrow
    refine ⟨added ++ eventsOf new id, ?_⟩
    rw [hnew, ← List.append_assoc, ← hadded]
    exact List.filter_append _ _

theorem Writes.get?_isSome {env : Env} {acts : List Action} {db db' : Tables}
    (h : Writes env acts db db') {id : Str} {job : ReviewJob} (hjob : db.jobs.get? id = some job) :
    ∃ job', db'.jobs.get? id = some job' := by
  induction h with
  | refl => exact ⟨job, hjob⟩
  | tail _ hwrite ih =>
    obtain ⟨job', hjob'⟩ := ih
    rcases hwrite.jobs_cases with ⟨_, _, _, _, _, -, hjobs, -⟩ | ⟨j, j', bodies, hj, hadv, hjobs, -⟩
    · exact ⟨job', Table.get?_insert?_of_get? hjobs hjob'⟩
    · have hrows := Tables.get?_advance bodies hj hadv.same id
      rw [hjobs]
      refine ⟨if id = j.id then j' else job', hrows.trans ?_⟩
      split <;> simp [hjob']

/-- What a stream opened at `n` has delivered: the log from there to its cursor. -/
structure StreamInv (n : Nat) (log : List JobEvent) (st : Stream) : Prop where
  le : n ≤ st.sequence
  bound : st.sequence = n ∨ st.sequence ≤ log.length
  emitted : st.emitted = (log.take st.sequence).drop n
  unfinished : st.position ≠ .returned → ∀ e ∈ st.emitted, e.body.terminal = false

theorem StreamInv.opened (id : Str) (n : Nat) (log : List JobEvent) :
    StreamInv n log (Stream.opened id n) where
  le := le_rfl
  bound := .inl rfl
  emitted := by simp [Stream.opened]
  unfinished _ := by simp [Stream.opened]

section Steps

variable {n : Nat} {log : List JobEvent} {st : Stream}

theorem StreamInv.grow (h : StreamInv n log st) (added : List JobEvent) :
    StreamInv n (log ++ added) st := by
  refine ⟨h.le, ?_, ?_, h.unfinished⟩
  · rcases h.bound with hb | hb
    · exact .inl hb
    · refine .inr ?_
      rw [List.length_append]
      exact hb.trans (Nat.le_add_right _ _)
  · rw [h.emitted]
    rcases h.bound with hb | hb
    · -- nothing has been delivered yet
      rw [hb, List.drop_eq_nil_of_le (List.length_take_le _ _),
        List.drop_eq_nil_of_le (List.length_take_le _ _)]
    · rw [List.take_append_of_le_length hb]

/-- The last event of a numbered log carries its length. -/
theorem sequence_of_last {init : List JobEvent} {last : JobEvent}
    (h : (init ++ [last]).map (·.sequence) = List.range' 1 (init ++ [last]).length) :
    last.sequence = (init ++ [last]).length := by
  rw [List.length_append, List.length_singleton, List.range'_1_concat, List.map_append] at h
  have hlast : last.sequence = 1 + init.length := (List.cons.inj (List.append_inj' h rfl).2).1
  rw [hlast, List.length_append, List.length_singleton, Nat.add_comm]

/-- The events of one read are sent to the end, and end the stream when the last of them
is terminal. -/
theorem StreamInv.send (h : StreamInv n log st)
    (hnum : log.map (·.sequence) = List.range' 1 log.length)
    (hlast : ∀ init last, log = init ++ [last] → ∀ e ∈ init, e.body.terminal = false)
    (hopen : st.position ≠ .returned) {init : List JobEvent} {last : JobEvent}
    (hdrop : log.drop st.sequence = init ++ [last]) :
    StreamInv n log (st.send (init ++ [last])) ∧
      (last.body.terminal = false ∧ (st.send (init ++ [last])).position = st.position ∨
        (st.send (init ++ [last])).position = .returned ∧
          ∃ e ∈ (st.send (init ++ [last])).emitted, e.body.terminal = true) := by
  have hsplit : log = (log.take st.sequence ++ init) ++ [last] := by
    rw [List.append_assoc, ← hdrop, List.take_append_drop]
  have hinit : ∀ e ∈ init, e.body.terminal = false := fun e he =>
    hlast _ _ hsplit e (List.mem_append_right _ he)
  have hlt : st.sequence < log.length := by
    by_contra hge
    rw [List.drop_eq_nil_of_le (by omega)] at hdrop
    simp at hdrop
  have hseq : last.sequence = log.length := by
    rw [hsplit] at hnum ⊢
    exact sequence_of_last hnum
  have hle := h.le
  have hemitted : st.emitted ++ (init ++ [last]) = (log.take last.sequence).drop n := by
    have htake : n ≤ (log.take st.sequence).length := by
      rw [List.length_take]
      omega
    rw [hseq, List.take_length, h.emitted, ← hdrop, ← List.drop_append_of_le_length htake,
      List.take_append_drop]
  rw [Stream.send_eq hinit]
  refine ⟨⟨?_, .inr hseq.le, hemitted, fun hne e he => ?_⟩, ?_⟩
  · change n ≤ last.sequence
    omega
  · rcases List.mem_append.mp he with he | he
    · exact h.unfinished hopen e he
    rcases List.mem_append.mp he with he | he
    · exact hinit e he
    · rw [List.mem_singleton.mp he]
      by_contra hterm
      exact hne (if_pos (by simpa using hterm))
  · cases hterm : last.body.terminal with
    | true => exact .inr ⟨rfl, last, by simp, hterm⟩
    | false => exact .inl ⟨rfl, by simp⟩

theorem StreamInv.moved (h : StreamInv n log st) {position : StreamPosition}
    (hopen : st.position ≠ .returned) : StreamInv n log { st with position := position } :=
  ⟨h.le, h.bound, h.emitted, fun _ => h.unfinished hopen⟩

end Steps

/-! ## Runs with a stream open -/

/-- The service steps of a run. -/
def serviceSteps (acts : List WatchedAction) : List Action :=
  acts.filterMap fun
    | .service a => some a
    | _ => none

theorem serviceSteps_append (acts more : List WatchedAction) :
    serviceSteps (acts ++ more) = serviceSteps acts ++ serviceSteps more := List.filterMap_append

def JobFailed (db : Tables) (id : Str) : Prop :=
  ∃ job, db.jobs.get? id = some job ∧ job.status = .failed

/-- Some step of the run commits the failure of the job while the stream stands between a
read that found nothing and the refresh that follows it. -/
def FailsInGap (env : Env) (x₀ : Watched) (acts : List WatchedAction) : Prop :=
  ∃ pre a post x x', acts = pre ++ .service a :: post ∧ Run (watchedStep env) x₀ pre x ∧
    x.stream.position = .refreshing true ∧ watchedStep env x (.service a) = some x' ∧
    ¬ JobFailed x.state.db x.stream.jobId ∧ JobFailed x'.state.db x'.stream.jobId

theorem FailsInGap.append {env : Env} {x₀ : Watched} {acts : List WatchedAction}
    (h : FailsInGap env x₀ acts) (more : List WatchedAction) : FailsInGap env x₀ (acts ++ more) := by
  obtain ⟨pre, a, post, x, x', rfl, hrest⟩ := h
  exact ⟨pre, a, post ++ more, x, x', by rw [List.append_assoc, List.cons_append], hrest⟩

section Runs

variable {env : Env} {before : List Action} {s₀ : State} {acts : List WatchedAction} {x x' : Watched}

theorem watchedStep_service {a : Action} (h : watchedStep env x (.service a) = some x') :
    step env x.state a = some x'.state ∧ x'.stream = x.stream := by
  obtain ⟨s, hs, rfl⟩ := Option.map_eq_some_iff.mp h
  exact ⟨hs, rfl⟩

theorem watchedStep_read (h : watchedStep env x .read = some x') :
    x.stream.position = .reading ∧ x' = { x with stream := x.stream.read x.state.db } := by
  simp only [watchedStep] at h
  split at h
  · next hpos => exact ⟨hpos, (Option.some.inj h).symm⟩
  · cases h

theorem watchedStep_refresh {clientGone : Bool} (h : watchedStep env x (.refresh clientGone) = some x') :
    ∃ noEvents, x.stream.position = .refreshing noEvents ∧ x'.state = x.state ∧
      ∃ job, x.state.db.jobs.get? x.stream.jobId = some job ∧
        (job.status = .failed ∧ noEvents = true ∧
            x'.stream = { x.stream with position := .returned } ∨
          ¬ (job.status = .failed ∧ noEvents = true) ∧ ∃ position,
            position ≠ .returned ∧ position ≠ .refreshing true ∧
            x'.stream = { x.stream with position := position }) := by
  simp only [watchedStep] at h
  split at h
  · next noEvents hpos =>
    obtain ⟨st, hst, rfl⟩ := Option.map_eq_some_iff.mp h
    obtain ⟨job, hjob, rfl⟩ := Option.map_eq_some_iff.mp hst
    refine ⟨noEvents, hpos, rfl, job, hjob, ?_⟩
    split
    · next hboth =>
      simp only [Bool.and_eq_true, decide_eq_true_eq] at hboth
      exact .inl ⟨hboth.1, hboth.2, rfl⟩
    · next hnot =>
      simp only [Bool.and_eq_true, decide_eq_true_eq] at hnot
      refine .inr ⟨hnot, ?_⟩
      split
      · exact ⟨.disconnected, by simp, by simp, rfl⟩
      · exact ⟨.reading, by simp, by simp, rfl⟩
  · cases h

/-- The service steps of a run with a stream are a run of the service. -/
theorem run_serviceSteps (h : Run (watchedStep env) x acts x') :
    Run (step env) x.state (serviceSteps acts) x'.state := by
  refine h.invariant_trace
    (P := fun acts t => Run (step env) x.state (serviceSteps acts) t.state) .nil ?_
  intro acts t a t' _ hrun ht
  rw [serviceSteps_append]
  cases a with
  | service a => exact Run.snoc_iff.mpr ⟨t.state, hrun, (watchedStep_service ht).1⟩
  | read =>
    rw [(watchedStep_read ht).2, show serviceSteps [.read] = [] from rfl, List.append_nil]
    exact hrun
  | refresh clientGone =>
    obtain ⟨-, -, hstate, -⟩ := watchedStep_refresh ht
    rw [hstate, show serviceSteps [.refresh clientGone] = [] from rfl, List.append_nil]
    exact hrun

end Runs

/-! ## The terminal event of a log -/

theorem Logged.terminal_last {db : Tables} (hlog : Logged db) {id : Str} {job : ReviewJob}
    (hjob : db.jobs.get? id = some job) {init : List JobEvent} {last : JobEvent}
    (hsplit : eventsOf db.events id = init ++ [last]) : ∀ e ∈ init, e.body.terminal = false := by
  intro e he
  have hbodies : logOf db.events id = init.map (·.body) ++ [last.body] := by
    rw [logOf, hsplit, List.map_append, List.map_singleton]
  exact (hlog.log hjob).terminal_last hbodies _ (List.mem_map_of_mem he)

theorem Logged.exists_terminal {db : Tables} (hlog : Logged db) {id : Str} (h : JobFailed db id) :
    ∃ init last, eventsOf db.events id = init ++ [last] ∧ last.body.terminal = true := by
  obtain ⟨job, hjob, hstatus⟩ := h
  obtain ⟨body, hbody, hterm⟩ := (hlog.log hjob).terminal_iff.mpr (.inr hstatus)
  obtain ⟨e, he, rfl⟩ := List.mem_map.mp hbody
  rcases List.eq_nil_or_concat (eventsOf db.events id) with hnil | ⟨init, last, hsplit⟩
  · rw [hnil] at he
    cases he
  · rw [List.concat_eq_append] at hsplit
    refine ⟨init, last, hsplit, ?_⟩
    rw [hsplit] at he
    rcases List.mem_append.mp he with he | he
    · rw [hlog.terminal_last hjob hsplit e he] at hterm
      cases hterm
    · rw [← List.mem_singleton.mp he]
      exact hterm

/-! ## The invariant of a run -/

/-- The start lies before the terminal event of the log, if there is one. -/
def StartsBefore (n : Nat) (log : List JobEvent) : Prop :=
  ∀ e ∈ log, e.body.terminal = true → n < e.sequence

structure WatchInv (env : Env) (x₀ : Watched) (id : Str) (n : Nat) (acts : List WatchedAction)
    (x : Watched) : Prop where
  jobId : x.stream.jobId = id
  known : ∃ job, x.state.db.jobs.get? id = some job
  inv : StreamInv n (eventsOf x.state.db.events id) x.stream
  gap : StartsBefore n (eventsOf x.state.db.events id) → x.stream.position = .refreshing true →
    JobFailed x.state.db id → FailsInGap env x₀ acts
  ended : StartsBefore n (eventsOf x.state.db.events id) → x.stream.position = .returned →
    (∃ e ∈ x.stream.emitted, e.body.terminal = true) ∨ FailsInGap env x₀ acts
  missed : FailsInGap env x₀ acts → JobFailed x.state.db id ∧
    (x.stream.position = .refreshing true ∨ x.stream.position = .returned) ∧
    ∀ e ∈ x.stream.emitted, e.body.terminal = false

section Invariant

variable {env : Env} {before : List Action} {acts : List WatchedAction} {x₀ x x' : Watched}
  {id : Str} {n : Nat}

/-- A step that is not the failure in a gap has the gap before it. -/
theorem FailsInGap.of_snoc {a : WatchedAction} (h : FailsInGap env x₀ (acts ++ [a]))
    (hrun : Run (watchedStep env) x₀ acts x) (hstep : watchedStep env x a = some x') :
    FailsInGap env x₀ acts ∨ x.stream.position = .refreshing true ∧
      (∃ b, a = .service b) ∧ JobFailed x'.state.db x'.stream.jobId := by
  obtain ⟨pre, b, post, y, y', hacts, hpre, hpos, hb, hnot, hfailed⟩ := h
  rcases List.eq_nil_or_concat post with rfl | ⟨init, last, rfl⟩
  · obtain ⟨rfl, hlast⟩ := List.append_inj' hacts rfl
    obtain rfl := (List.cons.inj hlast).1
    obtain rfl : y = x := Option.some.inj (hpre.symm.trans hrun)
    obtain rfl : y' = x' := Option.some.inj (hb.symm.trans hstep)
    exact .inr ⟨hpos, ⟨b, rfl⟩, hfailed⟩
  · rw [List.concat_eq_append, ← List.cons_append, ← List.append_assoc] at hacts
    obtain ⟨rfl, -⟩ := List.append_inj' hacts rfl
    exact .inl ⟨pre, b, init, y, y', rfl, hpre, hpos, hb, hnot, hfailed⟩

theorem WatchInv.service (h : WatchInv env x₀ id n acts x)
    (hreach : Run (step env) State.init before x.state) (hrun : Run (watchedStep env) x₀ acts x)
    {a : Action} (hstep : watchedStep env x (.service a) = some x') :
    WatchInv env x₀ id n (acts ++ [.service a]) x' := by
  obtain ⟨hs, hstream⟩ := watchedStep_service hstep
  obtain ⟨hledger, hhold⟩ := run_invariants hreach
  have hwrites := (step_effect hledger hhold hs).writes
  obtain ⟨added, hgrow⟩ := hwrites.eventsOf_append id
  have hstarts : StartsBefore n (eventsOf x'.state.db.events id) →
      StartsBefore n (eventsOf x.state.db.events id) := fun hall e he =>
    hall e (hgrow ▸ List.mem_append_left _ he)
  have hkeep : JobFailed x.state.db id → JobFailed x'.state.db id := by
    rintro ⟨job, hjob, hstatus⟩
    exact ⟨job, (hwrites.job_ended hjob (.inr hstatus)).1, hstatus⟩
  refine ⟨hstream ▸ h.jobId, ?_, ?_, fun hn hpos hfailed => ?_, fun hn hpos => ?_, fun hgap => ?_⟩
  · obtain ⟨job, hjob⟩ := h.known
    exact hwrites.get?_isSome hjob
  · rw [hgrow, hstream]
    exact h.inv.grow added
  · rw [hstream] at hpos
    by_cases hold : JobFailed x.state.db id
    · exact (h.gap (hstarts hn) hpos hold).append _
    · refine ⟨acts, a, [], x, x', rfl, hrun, hpos, hstep, ?_, ?_⟩
      · rw [h.jobId]
        exact hold
      · rw [hstream, h.jobId]
        exact hfailed
  · rw [hstream] at hpos ⊢
    exact (h.ended (hstarts hn) hpos).imp_right fun hgap => hgap.append _
  · rw [hstream]
    rcases hgap.of_snoc hrun hstep with hgap | ⟨hpos, -, hfailed⟩
    · obtain ⟨hfailed, hpos, hnone⟩ := h.missed hgap
      exact ⟨hkeep hfailed, hpos, hnone⟩
    · rw [hstream, h.jobId] at hfailed
      exact ⟨hfailed, .inl hpos, h.inv.unfinished (by rw [hpos]; nofun)⟩

theorem WatchInv.read (h : WatchInv env x₀ id n acts x)
    (hreach : Run (step env) State.init before x.state) (hrun : Run (watchedStep env) x₀ acts x)
    (hstep : watchedStep env x .read = some x') : WatchInv env x₀ id n (acts ++ [.read]) x' := by
  obtain ⟨hpos, rfl⟩ := watchedStep_read hstep
  obtain ⟨hledger, -⟩ := run_invariants hreach
  obtain ⟨job, hjob⟩ := h.known
  have hlog := hledger.logged
  have hopen : x.stream.position ≠ .returned := by rw [hpos]; nofun
  have hnone := h.inv.unfinished hopen
  -- a gap would have left the stream refreshing
  have hnogap : ¬ FailsInGap env x₀ (acts ++ [.read]) := by
    intro hgap
    rcases hgap.of_snoc hrun hstep with hgap | ⟨hpos', -⟩
    · obtain ⟨-, hpos' | hpos', -⟩ := h.missed hgap <;> rw [hpos] at hpos' <;> cases hpos'
    · rw [hpos] at hpos'
      cases hpos'
  obtain ⟨unread, hunread⟩ : ∃ unread,
      (eventsOf x.state.db.events id).drop x.stream.sequence = unread := ⟨_, rfl⟩
  have hafter : listEventsAfter x.state.db.events x.stream.jobId x.stream.sequence = unread := by
    rw [h.jobId, listEventsAfter_eq_drop (hlog.numbered hjob), hunread]
  have hread : x.stream.read x.state.db =
      { x.stream with position := .refreshing unread.isEmpty }.send unread := by
    simp only [Stream.read, hafter]
  have hjobId : ∀ (st : Stream) (es : List JobEvent), (st.send es).jobId = st.jobId := by
    intro st es
    induction es generalizing st with
    | nil => rfl
    | cons e es ih =>
      rw [Stream.send]
      split
      · rfl
      · exact ih _
  rcases List.eq_nil_or_concat unread with rfl | ⟨init, last, rfl⟩
  · rw [hread]
    refine ⟨h.jobId, ⟨job, hjob⟩, h.inv.moved hopen, fun hn _ hfailed => ?_, nofun,
      fun hgap => absurd hgap hnogap⟩
    -- the terminal event would have been delivered
    obtain ⟨pre, e, hsplit, hterm⟩ := hlog.exists_terminal hfailed
    have hseq : e.sequence = (eventsOf x.state.db.events id).length := by
      rw [hsplit]
      exact sequence_of_last (hsplit ▸ hlog.numbered hjob)
    have hlt : n < e.sequence := hn e (by rw [hsplit]; simp) hterm
    have hle : (eventsOf x.state.db.events id).length ≤ x.stream.sequence :=
      List.drop_eq_nil_iff.mp hunread
    have hemitted : e ∈ x.stream.emitted := by
      rw [h.inv.emitted, List.take_of_length_le hle, hsplit, List.drop_append_of_le_length]
      · simp
      · rw [hsplit, List.length_append, List.length_singleton] at hseq
        omega
    rw [hnone e hemitted] at hterm
    cases hterm
  · rw [List.concat_eq_append] at hunread hread
    have hlast : ∀ init last, eventsOf x.state.db.events id = init ++ [last] →
        ∀ e ∈ init, e.body.terminal = false := fun _ _ hsplit => hlog.terminal_last hjob hsplit
    rw [show (init ++ [last]).isEmpty = false from by simp] at hread
    have hsent := (h.inv.moved hopen).send (hlog.numbered hjob) hlast
      (show StreamPosition.refreshing false ≠ .returned from nofun) hunread
    rw [hread]
    refine ⟨(hjobId _ _).trans h.jobId, ⟨job, hjob⟩, hsent.1, fun _ hpos' _ => ?_, fun _ hpos' => ?_,
      fun hgap => absurd hgap hnogap⟩
    · rcases hsent.2 with ⟨-, hsame⟩ | ⟨hret, -⟩
      · rw [hsame] at hpos'
        cases hpos'
      · rw [hret] at hpos'
        cases hpos'
    · rcases hsent.2 with ⟨-, hsame⟩ | ⟨-, hterm⟩
      · rw [hsame] at hpos'
        cases hpos'
      · exact .inl hterm

theorem WatchInv.refresh (h : WatchInv env x₀ id n acts x) (hrun : Run (watchedStep env) x₀ acts x)
    {clientGone : Bool} (hstep : watchedStep env x (.refresh clientGone) = some x') :
    WatchInv env x₀ id n (acts ++ [.refresh clientGone]) x' := by
  obtain ⟨noEvents, hpos, hstate, job, hjob, hcases⟩ := watchedStep_refresh hstep
  have hopen : x.stream.position ≠ .returned := by rw [hpos]; nofun
  have hgapOf : FailsInGap env x₀ (acts ++ [.refresh clientGone]) → FailsInGap env x₀ acts := by
    intro hgap
    rcases hgap.of_snoc hrun hstep with hgap | ⟨-, ⟨b, hb⟩, -⟩
    · exact hgap
    · cases hb
  rw [h.jobId] at hjob
  rcases hcases with ⟨hfailed, rfl, hst⟩ | ⟨hnot, position, hne, hne', hst⟩
  · have hjobFailed : JobFailed x.state.db id := ⟨job, hjob, hfailed⟩
    refine ⟨?_, hstate ▸ h.known, ?_, ?_, ?_, ?_⟩ <;> simp only [hst, hstate]
    · exact h.jobId
    · exact h.inv.moved hopen
    · nofun
    · exact fun hn _ => .inr ((h.gap hn hpos hjobFailed).append _)
    · intro hgap
      exact ⟨hjobFailed, .inr trivial, (h.missed (hgapOf hgap)).2.2⟩
  · refine ⟨?_, hstate ▸ h.known, ?_, ?_, ?_, ?_⟩ <;> simp only [hst, hstate]
    · exact h.jobId
    · exact h.inv.moved hopen
    · exact fun _ hpos' => absurd hpos' hne'
    · exact fun _ hpos' => absurd hpos' hne
    · intro hgap
      -- after a gap the job is failed and nothing was read
      obtain ⟨⟨j, hj, hfailed⟩, hpos' | hpos', -⟩ := h.missed (hgapOf hgap)
      · rw [hpos] at hpos'
        cases hjob.symm.trans hj
        cases hpos'
        exact absurd ⟨hfailed, rfl⟩ hnot
      · exact absurd hpos' hopen

theorem run_watchInv {s₀ : State} {job : ReviewJob}
    (hreach : Run (step env) State.init before s₀) (hjob : s₀.db.jobs.get? id = some job)
    (hrun : Run (watchedStep env) ⟨s₀, Stream.opened id n⟩ acts x) :
    WatchInv env ⟨s₀, Stream.opened id n⟩ id n acts x := by
  refine hrun.invariant_trace ⟨rfl, ⟨job, hjob⟩, .opened id n _, nofun, nofun, fun hgap => ?_⟩ ?_
  · obtain ⟨pre, a, post, -, -, hnil, -⟩ := hgap
    simp at hnil
  · intro acts t a t' hpre hinv ht
    have hreach' : Run (step env) State.init (before ++ serviceSteps acts) t.state :=
      Run.append_iff.mpr ⟨s₀, hreach, run_serviceSteps hpre⟩
    cases a with
    | service a => exact hinv.service hreach' hpre ht
    | read => exact hinv.read hreach' hpre ht
    | refresh clientGone => exact hinv.refresh hpre ht

end Invariant

/-! ## Whole streams -/

/-- The stream has delivered the events after `n` up to the event `e`, in order. -/
def StreamComplete (n : Nat) (e : JobEvent) (st : Stream) : Prop :=
  st.emitted.map (·.sequence) = List.range' (n + 1) (e.sequence - n) ∧
    st.emitted.getLast? = some e

theorem streamComplete_of_terminal {log : List JobEvent} {n : Nat} {st : Stream} {init : List JobEvent}
    {e : JobEvent} (hinv : StreamInv n log st) (hnum : log.map (·.sequence) = List.range' 1 log.length)
    (hsplit : log = init ++ [e]) (hn : n < e.sequence) (hmem : e ∈ st.emitted) :
    StreamComplete n e st := by
  have hseq : e.sequence = log.length := by
    rw [hsplit] at hnum ⊢
    exact sequence_of_last hnum
  -- the last event lies below the cursor, so the whole log does
  have hle : log.length ≤ st.sequence := by
    by_contra hlt
    rw [hinv.emitted] at hmem
    have htake : e.sequence ∈ (log.map (·.sequence)).take st.sequence := by
      rw [← List.map_take]
      exact List.mem_map_of_mem (List.mem_of_mem_drop hmem)
    rw [hnum, List.take_range'_of_length_ge (by omega)] at htake
    have hbounds := List.mem_range'_1.mp htake
    omega
  have hemitted : st.emitted = log.drop n := by
    rw [hinv.emitted, List.take_of_length_le hle]
  have hlength : n ≤ init.length := by
    rw [hseq, hsplit, List.length_append, List.length_singleton] at hn
    omega
  constructor
  · rw [hemitted, List.map_drop, hnum, List.drop_range', hseq, Nat.mul_one, Nat.add_comm]
  · rw [hemitted, hsplit, List.drop_append_of_le_length hlength]
    exact List.getLast?_concat

/-- A stream that returns has delivered everything up to the terminal event exactly when
the failure of its job never falls between an empty read and the refresh after it. -/
theorem stream_complete_iff {env : Env} {before : List Action} {s₀ : State} {id : Str}
    {job : ReviewJob} {n : Nat} {acts : List WatchedAction} {x : Watched} {e : JobEvent}
    (hreach : Run (step env) State.init before s₀) (hjob : s₀.db.jobs.get? id = some job)
    (hrun : Run (watchedStep env) ⟨s₀, Stream.opened id n⟩ acts x)
    (hreturned : x.stream.position = .returned)
    (he : e ∈ eventsOf x.state.db.events id) (hterm : e.body.terminal = true)
    (hn : n < e.sequence) :
    StreamComplete n e x.stream ↔ ¬ FailsInGap env ⟨s₀, Stream.opened id n⟩ acts := by
  have hinv := run_watchInv hreach hjob hrun
  obtain ⟨job', hjob'⟩ := hinv.known
  have hlog := (run_invariants
    (Run.append_iff.mpr ⟨s₀, hreach, run_serviceSteps hrun⟩)).1.logged
  obtain ⟨init, last, hsplit⟩ : ∃ init last, eventsOf x.state.db.events id = init ++ [last] :=
    ⟨_, _, (List.dropLast_append_getLast (List.ne_nil_of_mem he)).symm⟩
  have honly : ∀ e' ∈ eventsOf x.state.db.events id, e'.body.terminal = true → e' = last := by
    intro e' he' hterm'
    rw [hsplit] at he'
    rcases List.mem_append.mp he' with he' | he'
    · rw [hlog.terminal_last hjob' hsplit e' he'] at hterm'
      cases hterm'
    · exact List.mem_singleton.mp he'
  obtain rfl := honly e he hterm
  have hstarts : StartsBefore n (eventsOf x.state.db.events id) := fun e' he' hterm' =>
    (honly e' he' hterm') ▸ hn
  constructor
  · rintro ⟨-, hlast⟩ hgap
    have hnone := (hinv.missed hgap).2.2 e (List.mem_of_getLast? hlast)
    rw [hnone] at hterm
    cases hterm
  · intro hnogap
    rcases hinv.ended hstarts hreturned with ⟨e', hmem, hterm'⟩ | hgap
    · have hlogged : e' ∈ eventsOf x.state.db.events id := by
        rw [hinv.inv.emitted] at hmem
        exact List.mem_of_mem_take (List.mem_of_mem_drop hmem)
      obtain rfl := honly e' hlogged hterm'
      exact streamComplete_of_terminal hinv.inv (hlog.numbered hjob') hsplit hn hmem
    · exact absurd hgap hnogap

/-- The job of `sampleRun`, streamed from its start when it has ended. -/
def sampleWatch : Watched := ⟨sampleState, Stream.opened (lit "a") 0⟩

set_option maxRecDepth 20000 in
theorem sampleWatch_isSome :
    (([.read] : List WatchedAction).foldlM (watchedStep (sampleEnv none)) sampleWatch).isSome
      = true := by decide

def sampleWatched : Watched := Option.get _ sampleWatch_isSome

set_option maxRecDepth 20000 in
theorem stream_complete_iff_sample : ∃ e ∈ eventsOf sampleWatched.state.db.events (lit "a"),
    e.body.terminal = true ∧ (StreamComplete 0 e sampleWatched.stream ↔
      ¬ FailsInGap (sampleEnv none) sampleWatch [.read]) := by
  have hreturned : sampleWatched.stream.position = .returned := by decide
  have hterm : ∃ e ∈ eventsOf sampleWatched.state.db.events (lit "a"),
      e.body.terminal = true ∧ 0 < e.sequence := by decide
  obtain ⟨e, he, hterm, hpos⟩ := hterm
  exact ⟨e, he, hterm, stream_complete_iff (Run.get sampleRun_isSome)
    (Option.some_get sampleJob_isSome).symm (Run.get sampleWatch_isSome) hreturned he hterm hpos⟩

/-! ## A stream that misses the failure -/

/-- An `llm` job is queued, its stream is opened. -/
def gapBefore : List Action := [.submit (sampleBody .llm) none (lit "a") 0]

/-- Its request raises; the stream finds nothing new, and the failure is committed before
the job row is refreshed. -/
def gapRun : List WatchedAction :=
  [.service (.claim 0 (lit "a")), .read, .refresh false,
    .service (.review 0 (lit "a") fun _ => .error (lit "503")), .read, .service (.fail 0),
    .refresh false]

set_option maxRecDepth 20000 in
theorem gapBefore_isSome :
    (gapBefore.foldlM (step (sampleEnv (some (lit "key")))) State.init).isSome = true := by decide

def gapStart : Watched :=
  ⟨(gapBefore.foldlM (step (sampleEnv (some (lit "key")))) State.init).get gapBefore_isSome,
    Stream.opened (lit "a") 0⟩

set_option maxRecDepth 20000 in
theorem gapRun_isSome :
    (gapRun.foldlM (watchedStep (sampleEnv (some (lit "key")))) gapStart).isSome = true := by decide

def gapEnd : Watched := Option.get _ gapRun_isSome

set_option maxRecDepth 20000 in
/-- The stream returns by itself, with events 1 and 2 and without the failed event 3. -/
theorem stream_misses_failure :
    Run (step (sampleEnv (some (lit "key")))) State.init gapBefore gapStart.state ∧
      Run (watchedStep (sampleEnv (some (lit "key")))) gapStart gapRun gapEnd ∧
      gapEnd.stream.position = .returned ∧
      ∃ e ∈ eventsOf gapEnd.state.db.events (lit "a"), e.body.terminal = true ∧ 0 < e.sequence ∧
        gapEnd.stream.emitted.map (·.sequence) = [1, 2] ∧ ¬ StreamComplete 0 e gapEnd.stream := by
  have hreturned : gapEnd.stream.position = .returned := by decide
  have hemitted : gapEnd.stream.emitted.map (·.sequence) = [1, 2] := by decide
  have hterm : ∃ e ∈ eventsOf gapEnd.state.db.events (lit "a"),
      e.body.terminal = true ∧ e.sequence = 3 := by decide
  obtain ⟨e, he, hterm, hseq⟩ := hterm
  refine ⟨Run.get gapBefore_isSome, Run.get gapRun_isSome, hreturned, e, he, hterm,
    by omega, hemitted, fun hcomplete => ?_⟩
  have hsequences := hcomplete.1
  rw [hemitted, hseq] at hsequences
  exact absurd hsequences (by decide)

end DiffReview
