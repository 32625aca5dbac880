import DiffReview.Service.Polling
import DiffReview.Service.Replay

/-!
# DiffReview — a client that reconnects

A client that loses the connection opens the stream again behind the last event it has got. It
gets the events of the log in order, each once, through any number of connections and restarts,
and what it has got at the end is what every poll answers (`reads_exactly`).
-/

namespace DiffReview

open Py Raise Transition

/-! ## The client -/

/-- The `Last-Event-ID` of a client: the id of the last event it has got, if any. `none` where
`str` raises, which has kept that event from being sent. -/
def lastEventId (received : List JobEvent) : Option (Option Str) :=
  match received.getLast? with
  | none => some none
  | some event => (strInt event.sequence).map some

/-- The service with a stream open, and what the client has got over earlier connections. -/
structure Reader where
  watched : Watched
  received : List JobEvent

def Reader.events (x : Reader) : List JobEvent := x.received ++ x.watched.stream.emitted

inductive ReaderAction where
  | server (a : WatchedAction)
  /-- The connection is lost: of the events sent over it the client has got the first `got`. -/
  | reconnect (got : Nat)

def readerStep (env : Env) (x : Reader) : ReaderAction → Option Reader
  | .server a => (watchedStep env x.watched a).map fun watched => { x with watched := watched }
  | .reconnect got =>
    let received := x.received ++ x.watched.stream.emitted.take got
    match x.watched.state.db.jobs.get? x.watched.stream.jobId with
    | some job => (lastEventId received).map fun header =>
        ⟨⟨x.watched.state, Stream.opened job.id (startSequence header)⟩, received⟩
    -- answered with 404
    | none => none

def Reader.opened (s : State) (id : Str) : Reader := ⟨⟨s, Stream.opened id 0⟩, []⟩

/-- A client that has got the start of a log is answered with the rest of it. -/
theorem startSequence_lastEventId {received log : List JobEvent} (hstart : received <+: log)
    (hnum : log.map (·.sequence) = List.range' 1 log.length) {header : Option Str}
    (h : lastEventId received = some header) : startSequence header = received.length := by
  have hreceived : received.map (·.sequence) = List.range' 1 received.length := by
    obtain ⟨rest, rfl⟩ := hstart
    rw [List.map_append] at hnum
    obtain ⟨k, -, hk, -⟩ := List.range'_eq_append_iff.mp hnum.symm
    have hlength := congrArg List.length hk
    rw [List.length_map, List.length_range'] at hlength
    rw [hk, hlength]
  unfold lastEventId at h
  cases hlast : received.getLast? with
  | none =>
    rw [hlast] at h
    cases h
    rw [List.getLast?_eq_none_iff.mp hlast]
    decide
  | some event =>
    -- the last of the first events has their number
    rw [hlast] at h
    obtain ⟨text, htext, rfl⟩ := Option.map_eq_some_iff.mp h
    obtain ⟨init, rfl⟩ := List.getLast?_eq_some_iff.mp hlast
    rw [← sequence_of_last hreceived]
    have hint := intOf_strInt htext
    cases text with
    | nil => exact absurd (eq_decimal_of_strInt htext).symm (decimal_ne_nil _)
    | cons c cs =>
      unfold startSequence
      simp only [hint, Int.toNat_natCast]

/-! ## Runs of the client -/

section Reading

variable {env : Env} {before : List Action} {s₀ : State} {id : Str} {acts : List ReaderAction}
  {x x' : Reader}

/-- The open stream has been opened behind what the client had got, which was the start of the
log then. -/
structure ReaderInv (env : Env) (id : Str) (x : Reader) : Prop where
  connection : ∃ before s₁ job acts, Run (step env) State.init before s₁ ∧
    s₁.db.jobs.get? id = some job ∧
    Run (watchedStep env) ⟨s₁, Stream.opened id x.received.length⟩ acts x.watched
  received : x.received <+: eventsOf x.watched.state.db.events id

theorem ReaderInv.exists_before (h : ReaderInv env id x) :
    ∃ before, Run (step env) State.init before x.watched.state := by
  obtain ⟨before, s₁, job, acts, hreach, -, hrun⟩ := h.connection
  exact ⟨before ++ serviceSteps acts, Run.append_iff.mpr ⟨s₁, hreach, run_serviceSteps hrun⟩⟩

theorem ReaderInv.jobId (h : ReaderInv env id x) : x.watched.stream.jobId = id := by
  obtain ⟨before, s₁, job, acts, hreach, hjob, hrun⟩ := h.connection
  exact (run_watchInv hreach hjob hrun).jobId

theorem ReaderInv.known (h : ReaderInv env id x) :
    ∃ job, x.watched.state.db.jobs.get? id = some job := by
  obtain ⟨before, s₁, job, acts, hreach, hjob, hrun⟩ := h.connection
  exact (run_watchInv hreach hjob hrun).known

/-- What has been sent over the open connection continues what the client had got. -/
theorem ReaderInv.events_eq (h : ReaderInv env id x) :
    x.events = (eventsOf x.watched.state.db.events id).take x.watched.stream.sequence := by
  obtain ⟨before, s₁, job, acts, hreach, hjob, hrun⟩ := h.connection
  -- the run of the open connection alone
  have hinv := (run_watchInv hreach hjob hrun).inv
  have hreceived := List.prefix_iff_eq_take.mp h.received
  have htake := List.take_append_drop x.received.length
    ((eventsOf x.watched.state.db.events id).take x.watched.stream.sequence)
  rw [List.take_take, min_eq_left hinv.le, ← hreceived, ← hinv.emitted] at htake
  exact htake

theorem ReaderInv.events_isPrefix (h : ReaderInv env id x) :
    x.events <+: eventsOf x.watched.state.db.events id :=
  h.events_eq ▸ List.take_prefix _ _

theorem ReaderInv.server (h : ReaderInv env id x) {a : WatchedAction} {watched : Watched}
    (hstep : watchedStep env x.watched a = some watched) :
    ReaderInv env id { x with watched := watched } := by
  obtain ⟨before, hreach⟩ := h.exists_before
  have hgrow : eventsOf x.watched.state.db.events id <+: eventsOf watched.state.db.events id := by
    have hservice := run_serviceSteps (Run.cons_iff.mpr ⟨watched, hstep, Run.nil⟩)
    obtain ⟨added, hadded⟩ := (run_writes hreach hservice).eventsOf_append id
    exact ⟨added, hadded.symm⟩
  obtain ⟨before₁, s₁, job, acts, hreach₁, hjob, hrun⟩ := h.connection
  exact ⟨⟨before₁, s₁, job, acts ++ [a], hreach₁, hjob, Run.snoc_iff.mpr ⟨_, hrun, hstep⟩⟩,
    h.received.trans hgrow⟩

/-- The header names the last event that the client has got. -/
theorem ReaderInv.reconnect (h : ReaderInv env id x) {got : Nat}
    (hstep : readerStep env x (.reconnect got) = some x') :
    x' = ⟨⟨x.watched.state, Stream.opened id (x.received ++ x.watched.stream.emitted.take got).length⟩,
        x.received ++ x.watched.stream.emitted.take got⟩ ∧
      ReaderInv env id x' := by
  obtain ⟨before, hreach⟩ := h.exists_before
  obtain ⟨hledger, -⟩ := run_invariants hreach
  obtain ⟨job, hjob⟩ := h.known
  have hstart : x.received ++ x.watched.stream.emitted.take got
      <+: eventsOf x.watched.state.db.events id := by
    refine List.IsPrefix.trans ?_ h.events_isPrefix
    exact (List.prefix_append_right_inj _).mpr (List.take_prefix _ _)
  simp only [readerStep, h.jobId, hjob] at hstep
  obtain ⟨header, hheader, rfl⟩ := Option.map_eq_some_iff.mp hstep
  rw [startSequence_lastEventId hstart (hledger.logged.numbered hjob) hheader,
    show job.id = id from Table.key_of_get? hjob]
  exact ⟨rfl, ⟨before, _, job, [], hreach, hjob, Run.nil⟩, hstart⟩

theorem run_readerInv {job : ReviewJob} (hreach : Run (step env) State.init before s₀)
    (hjob : s₀.db.jobs.get? id = some job) (hrun : Run (readerStep env) (Reader.opened s₀ id) acts x) :
    ReaderInv env id x := by
  refine hrun.invariant_trace (P := fun _ y => ReaderInv env id y)
    ⟨⟨before, s₀, job, [], hreach, hjob, Run.nil⟩, List.nil_prefix⟩ ?_
  intro acts y a y' _ hinv hstep
  cases a with
  | server a =>
    obtain ⟨watched, hwatched, rfl⟩ := Option.map_eq_some_iff.mp hstep
    exact hinv.server hwatched
  | reconnect got => exact (hinv.reconnect hstep).2

/-- A read leaves nothing of the log unsent. -/
theorem ReaderInv.read (h : ReaderInv env id x)
    (hstep : readerStep env x (.server .read) = some x') :
    x'.events = eventsOf x'.watched.state.db.events id := by
  obtain ⟨watched, hwatched, rfl⟩ := Option.map_eq_some_iff.mp hstep
  have hevents := (h.server hwatched).events_eq
  obtain ⟨before, hreach⟩ := h.exists_before
  obtain ⟨hledger, -⟩ := run_invariants hreach
  obtain ⟨job, hjob⟩ := h.known
  have hnum := hledger.logged.numbered hjob
  obtain ⟨-, rfl⟩ := watchedStep_read hwatched
  refine hevents.trans (List.take_of_length_le ?_)
  show _ ≤ (x.watched.stream.read x.watched.state.db).sequence
  simp only [Stream.read, h.jobId, listEventsAfter_eq_drop hnum]
  rcases List.eq_nil_or_concat ((eventsOf x.watched.state.db.events id).drop x.watched.stream.sequence)
    with hnil | ⟨init, last, hdrop⟩
  · rw [hnil]
    exact List.drop_eq_nil_iff.mp hnil
  · -- the last unsent event is the last one of the log
    rw [List.concat_eq_append] at hdrop
    have hsplit := List.take_append_drop x.watched.stream.sequence
      (eventsOf x.watched.state.db.events id)
    rw [hdrop, ← List.append_assoc] at hsplit
    have hopen := hledger.logged.terminal_last hjob hsplit.symm
    rw [hdrop, Stream.send_eq fun e he => hopen e (List.mem_append_right _ he), ← hsplit]
    rw [Numbered, ← hsplit] at hnum
    exact (sequence_of_last hnum).ge

/-- What a client gets that always reconnects behind the last event it has. -/
structure ReadsExactly (env : Env) (id : Str) (x : Reader) : Prop where
  /-- The start of the log, each event once. -/
  inOrder : x.events <+: eventsOf x.watched.state.db.events id
  /-- All of it, after each read. -/
  upToDate : ∀ x', readerStep env x (.server .read) = some x' →
    x'.events = eventsOf x'.watched.state.db.events id
  /-- With a terminal event it has all there will be, and shows what every poll will answer. -/
  final : ∀ e ∈ x.events, e.body.terminal = true →
    x.events = eventsOf x.watched.state.db.events id ∧
      ∃ response, response.view = ClientView.ofLog (x.events.map (·.body)) ∧
        ∀ acts s, Run (step env) x.watched.state acts s → getReview s.db id = .ok response

theorem reads_exactly {job : ReviewJob} (hreach : Run (step env) State.init before s₀)
    (hjob : s₀.db.jobs.get? id = some job) (hrun : Run (readerStep env) (Reader.opened s₀ id) acts x) :
    ReadsExactly env id x := by
  have hinv := run_readerInv hreach hjob hrun
  refine ⟨hinv.events_isPrefix, fun x' hstep => hinv.read hstep, fun e he hterm => ?_⟩
  obtain ⟨before', hreach'⟩ := hinv.exists_before
  obtain ⟨row, hrow⟩ := hinv.known
  obtain ⟨hledger, -⟩ := run_invariants hreach'
  obtain ⟨init, hended⟩ := ended_of_reachable hreach' hrow (hinv.events_isPrefix.subset he) hterm
  have hall : x.events = eventsOf x.watched.state.db.events id := by
    have hstart := hinv.events_isPrefix
    rw [hended.log] at hstart ⊢
    rcases List.prefix_concat_iff.mp hstart with hall | hstart
    · exact hall
    · -- the events before the terminal one are not terminal
      rw [hended.init_open e (hstart.subset he)] at hterm
      cases hterm
  obtain ⟨full, hfull⟩ := hledger.exists_shown hrow
  have hchunks := (hledger.submitted hrow).accepted.chunks_pos
  have hview := hledger.view_eq hrow (run_failureRecorded hreach' hrow) hfull hchunks
  refine ⟨hall, _, hview.trans ?_, fun later s hlater => ?_⟩
  · rw [hall]
    rfl
  · -- nothing changes the row of an ended job
    obtain ⟨hkept, -⟩ := (run_writes hreach' hlater).job_ended hrow hended.status
    rw [getReview_of_get? hkept, jobResponse_eq hchunks hfull]
    rfl

end Reading

/-- The client of `gapRun`, which has got two of the three events, opens the stream again. -/
def gapReader : List ReaderAction :=
  gapRun.map .server ++ [.reconnect 2, .server .read]

set_option maxRecDepth 20000 in
theorem gapReader_isSome :
    (gapReader.foldlM (readerStep (sampleEnv (some (lit "key")))) (.opened gapStart.state (lit "a"))).isSome
      = true := by decide

def gapReaderEnd : Reader := Option.get _ gapReader_isSome

set_option maxRecDepth 20000 in
theorem gapJob_isSome : (gapStart.state.db.jobs.get? (lit "a")).isSome = true := by decide

set_option maxRecDepth 20000 in
/-- It gets the event that the first stream has missed. -/
theorem reads_exactly_sample : gapReaderEnd.events.map (·.sequence) = [1, 2, 3] ∧
    ReadsExactly (sampleEnv (some (lit "key"))) (lit "a") gapReaderEnd :=
  ⟨by decide, reads_exactly (Run.get gapBefore_isSome) (Option.some_get gapJob_isSome).symm
    (Run.get gapReader_isSome)⟩

end DiffReview
