import DiffReview.Service.Stream

/-!
# DiffReview — replaying a finished stream

A stream opened on a job that has ended. Its log does not change any more, so what the
stream emits is settled; whether it ends by itself is not: behind the terminal event of a
`done` job the loop polls until the client leaves (`replay_ends_iff`).
-/

namespace DiffReview

open Py Transition

/-- The turns of the stream among the actions of a run. -/
def streamTurns (acts : List WatchedAction) : Nat :=
  acts.countP fun
    | .service _ => false
    | _ => true

theorem streamTurns_append (acts more : List WatchedAction) :
    streamTurns (acts ++ more) = streamTurns acts + streamTurns more := List.countP_append

/-- However the service goes on, and with the client connected all the time, a stream opened
at `n` can always take its next turn until it has returned, it returns within two turns,
one read and one check behind a read without events, and it has then emitted exactly the
events after `n`. -/
def ReplayEnds (env : Env) (s : State) (id : Str) (n : Nat) : Prop :=
  ∀ acts x, Run (watchedStep env) ⟨s, Stream.opened id n⟩ acts x →
    (∀ a ∈ acts, a ≠ WatchedAction.refresh true) →
    x.stream.position = .returned ∧
        x.stream.emitted = (eventsOf s.db.events id).filter (fun e => n < e.sequence) ∨
      streamTurns acts < 2 ∧ ((watchedStep env x .read).isSome = true ∨
        (watchedStep env x (.refresh false)).isSome = true)

/-- A job that ended, with its log. -/
structure Ended (db : Tables) (id : Str) (job : ReviewJob) (init : List JobEvent) (last : JobEvent) :
    Prop where
  row : db.jobs.get? id = some job
  status : job.status = .done ∨ job.status = .failed
  log : eventsOf db.events id = init ++ [last]
  numbered : Numbered db.events id
  init_open : ∀ e ∈ init, e.body.terminal = false
  terminal : last.body.terminal = true

section Replay

variable {env : Env} {before : List Action} {s : State} {id : Str} {job : ReviewJob}

/-- In a reachable state the terminal event of a job is the last one of its log. -/
theorem ended_of_reachable (hreach : Run (step env) State.init before s)
    (hjob : s.db.jobs.get? id = some job) {e : JobEvent} (he : e ∈ eventsOf s.db.events id)
    (hterm : e.body.terminal = true) : ∃ init, Ended s.db id job init e := by
  obtain ⟨hledger, -⟩ := run_invariants hreach
  have hstatus := (hledger.logged.log hjob).terminal_iff.mp
    ⟨e.body, List.mem_map_of_mem he, hterm⟩
  rcases List.eq_nil_or_concat (eventsOf s.db.events id) with hnil | ⟨init, last, hsplit⟩
  · rw [hnil] at he
    cases he
  · rw [List.concat_eq_append] at hsplit
    have hopen := hledger.logged.terminal_last hjob hsplit
    rw [hsplit] at he
    rcases List.mem_append.mp he with he | he
    · rw [hopen e he] at hterm
      cases hterm
    · cases List.mem_singleton.mp he
      exact ⟨init, hjob, hstatus, hsplit, hledger.logged.numbered hjob, hopen, hterm⟩

section Log

variable {db : Tables} {init : List JobEvent} {last : JobEvent} (h : Ended db id job init last)
include h

theorem Ended.sequence_eq : last.sequence = (init ++ [last]).length := by
  have hnumbered := h.numbered
  rw [Numbered, h.log] at hnumbered
  exact sequence_of_last hnumbered

/-- A read at or behind the terminal event finds nothing. -/
theorem Ended.read_behind {n : Nat} (hn : last.sequence ≤ n) :
    (Stream.opened id n).read db = { Stream.opened id n with position := .refreshing true } := by
  have hnone : listEventsAfter db.events id n = [] := by
    rw [listEventsAfter_eq_drop h.numbered, h.log, List.drop_eq_nil_iff, ← h.sequence_eq]
    exact hn
  unfold Stream.read
  rw [show (Stream.opened id n).jobId = id from rfl, show (Stream.opened id n).sequence = n from rfl,
    hnone]
  rfl

/-- A read before it finds the rest of the log and returns. -/
theorem Ended.read_before {n : Nat} (hn : n < last.sequence) :
    ((Stream.opened id n).read db).position = .returned ∧
      ((Stream.opened id n).read db).emitted = (eventsOf db.events id).drop n := by
  have hlength := h.sequence_eq
  rw [List.length_append, List.length_singleton] at hlength
  have hdrop : listEventsAfter db.events id n = init.drop n ++ [last] := by
    rw [listEventsAfter_eq_drop h.numbered, h.log, List.drop_append_of_le_length (by omega)]
  have hopen : ∀ e ∈ init.drop n, e.body.terminal = false :=
    fun e he => h.init_open e (List.mem_of_mem_drop he)
  have hread : (Stream.opened id n).read db
      = ({ Stream.opened id n with
          position := .refreshing (init.drop n ++ [last]).isEmpty } : Stream).send
        (init.drop n ++ [last]) := by
    unfold Stream.read
    rw [show (Stream.opened id n).jobId = id from rfl,
      show (Stream.opened id n).sequence = n from rfl, hdrop]
    rfl
  rw [hread, Stream.send_eq hopen, ← hdrop, ← listEventsAfter_eq_drop h.numbered]
  exact ⟨if_pos h.terminal, List.nil_append _⟩

end Log

/-- Where a stream on a job that ended can be, after how many of its turns. -/
inductive ReplayStage (log : List JobEvent) (last : JobEvent) (id : Str) (n : Nat) :
    Nat → Stream → Prop where
  | opened : ReplayStage log last id n 0 (Stream.opened id n)
  | behind (hn : last.sequence ≤ n) :
      ReplayStage log last id n 1 { Stream.opened id n with position := .refreshing true }
  | returned {turns : Nat} {st : Stream} (hpos : st.position = .returned)
      (hemitted : st.emitted = log.drop n) : ReplayStage log last id n turns st

variable {n : Nat} {acts : List WatchedAction} {x : Watched} {init : List JobEvent} {last : JobEvent}

/-- The service does not touch a job that ended. -/
theorem Ended.run (hreach : Run (step env) State.init before s) (h : Ended s.db id job init last)
    (hrun : Run (watchedStep env) ⟨s, Stream.opened id n⟩ acts x) :
    Ended x.state.db id job init last := by
  have hservice := run_serviceSteps hrun
  obtain ⟨hjob, hevents⟩ := (run_writes hreach hservice).job_ended h.row h.status
  refine ⟨hjob, h.status, hevents.trans h.log, ?_, h.init_open, h.terminal⟩
  rw [Numbered, hevents]
  exact h.numbered

/-- The stages of a replay that is to end: the step lemma is the case analysis over the
actions, the run lemma the induction along the run. -/
theorem run_replayStage (hreach : Run (step env) State.init before s)
    (h : Ended s.db id job init last) (hends : job.status = .failed ∨ n < last.sequence)
    (hrun : Run (watchedStep env) ⟨s, Stream.opened id n⟩ acts x)
    (hconnected : ∀ a ∈ acts, a ≠ WatchedAction.refresh true) :
    ReplayStage (eventsOf s.db.events id) last id n (streamTurns acts) x.stream := by
  refine hrun.invariant_trace (P := fun acts x => (∀ a ∈ acts, a ≠ WatchedAction.refresh true) →
    ReplayStage (eventsOf s.db.events id) last id n (streamTurns acts) x.stream)
    (fun _ => .opened) ?_ hconnected
  intro acts x a x' hrun ih hstep hconnected
  obtain ⟨hinit, ha⟩ := List.forall_mem_append.mp hconnected
  have hstage := ih hinit
  have hended := h.run hreach hrun
  have hlog : eventsOf x.state.db.events id = eventsOf s.db.events id := hended.log.trans h.log.symm
  rw [streamTurns_append]
  cases a with
  | service a =>
    obtain ⟨-, hstream⟩ := watchedStep_service hstep
    rw [hstream]
    exact hstage
  | read =>
    obtain ⟨hpos, rfl⟩ := watchedStep_read hstep
    generalize hturns : streamTurns acts = turns at hstage
    generalize hst : x.stream = st at hstage hpos ⊢
    cases hstage with
    | opened =>
      rcases Nat.lt_or_ge n last.sequence with hlt | hle
      · obtain ⟨hreturned, hemitted⟩ := hended.read_before hlt
        exact .returned hreturned (hemitted.trans (by rw [hlog]))
      · show ReplayStage _ last id n 1 ((Stream.opened id n).read x.state.db)
        rw [hended.read_behind hle]
        exact .behind hle
    | behind hn => cases hpos
    | returned hreturned => rw [hreturned] at hpos; cases hpos
  | refresh clientGone =>
    obtain ⟨noEvents, hpos, -, job', hjob', hcases⟩ := watchedStep_refresh hstep
    generalize hturns : streamTurns acts = turns at hstage
    generalize hst : x.stream = st at hstage hpos hjob' hcases ⊢
    cases hstage with
    | opened => cases hpos
    | behind hn =>
      -- only a failed job lets a stream without events return
      have hfailed : job.status = .failed := hends.resolve_right (not_lt.mpr hn)
      cases hpos
      cases hended.row.symm.trans hjob'
      rcases hcases with ⟨-, -, hstream⟩ | ⟨hnot, -⟩
      · rw [hstream]
        refine .returned rfl ?_
        rw [h.log, List.drop_eq_nil_iff.mpr (h.sequence_eq ▸ hn)]
        rfl
      · exact absurd ⟨hfailed, rfl⟩ hnot
    | returned hreturned => rw [hreturned] at hpos; cases hpos

theorem replay_ends (hreach : Run (step env) State.init before s) (h : Ended s.db id job init last)
    (hends : job.status = .failed ∨ n < last.sequence) : ReplayEnds env s id n := by
  intro acts x hrun hconnected
  have hstage := run_replayStage hreach h hends hrun hconnected
  have hended := h.run hreach hrun
  generalize hturns : streamTurns acts = turns at hstage ⊢
  generalize hst : x.stream = st at hstage ⊢
  cases hstage with
  | opened =>
    refine .inr ⟨by decide, .inl ?_⟩
    simp only [watchedStep, hst]
    rfl
  | behind hn =>
    refine .inr ⟨by decide, .inr ?_⟩
    have hjob : x.state.db.jobs.get? id = some job := hended.row
    simp only [watchedStep, hst, Stream.opened, Stream.refresh, hjob]
    rfl
  | returned hpos hemitted =>
    have hnumbered := h.numbered
    refine .inl ⟨hpos, hemitted.trans ?_⟩
    rw [filter_sequence_eq_drop hnumbered n, Nat.add_sub_cancel]

/-- Behind the terminal event of a `done` job a poll leads back to where it started. -/
theorem replay_polls (h : Ended s.db id job init last) (hdone : job.status = .done)
    (hn : last.sequence ≤ n) : Run (watchedStep env) ⟨s, Stream.opened id n⟩
      [.read, .refresh false] ⟨s, Stream.opened id n⟩ := by
  have hread : watchedStep env ⟨s, Stream.opened id n⟩ .read
      = some ⟨s, { Stream.opened id n with position := .refreshing true }⟩ := by
    rw [← h.read_behind hn]
    rfl
  have hjob : s.db.jobs.get? id = some job := h.row
  refine Run.cons_iff.mpr ⟨_, hread, Run.cons_iff.mpr ⟨_, ?_, Run.nil⟩⟩
  simp only [watchedStep, Stream.opened, Stream.refresh, hjob, hdone, Option.map_some]
  rfl

end Replay

end DiffReview
