import DiffReview.Spec.System

/-!
# DiffReview — the live stream

`stream_review` of `app/api/reviews.py`, next to the running service. The generator reads
the events and the job row in two transactions, between which, and between whose turns,
the service takes any steps.
-/

namespace DiffReview

open Py Transition

/-- The events that end the stream: `done`, and the status `failed`. -/
def EventBody.terminal : EventBody → Bool
  | .done _ _ => true
  | .status .failed _ => true
  | _ => false

/-- Where the generator is: before `list_events_after`, before `session.refresh` (with
`not events` of its last read), or ended, by itself or because the client has left. -/
inductive StreamPosition where
  | reading
  | refreshing (noEvents : Bool)
  | returned
  | disconnected
deriving DecidableEq, Repr

/-- `max(0, int(last_event_id or "0"))`, and 0 where `int` raises. -/
def startSequence (lastEventId : Option Str) : Nat :=
  let header := match lastEventId with
    | none | some [] => lit "0"
    | some header => header
  match intOf header with
  | some n => n.toNat
  | none => 0

structure Stream where
  jobId : Str
  sequence : Nat
  emitted : List JobEvent
  position : StreamPosition

def Stream.opened (jobId : Str) (sequence : Nat) : Stream := ⟨jobId, sequence, [], .reading⟩

/-- The loop that yields the events of one read. -/
def Stream.send (st : Stream) : List JobEvent → Stream
  | [] => st
  | event :: events =>
    let st := { st with sequence := event.sequence, emitted := st.emitted ++ [event] }
    if event.body.terminal then { st with position := .returned } else st.send events

def Stream.read (st : Stream) (db : Tables) : Stream :=
  let events := listEventsAfter db.events st.jobId st.sequence
  { st with position := .refreshing events.isEmpty }.send events

/-- The checks after a read; `none` is the error of a row that is gone. -/
def Stream.refresh (st : Stream) (db : Tables) (noEvents clientGone : Bool) : Option Stream :=
  (db.jobs.get? st.jobId).map fun job =>
    if job.status = .failed && noEvents then { st with position := .returned }
    else if clientGone then { st with position := .disconnected }
    else { st with position := .reading }

/-- The service with one stream open. -/
structure Watched where
  state : State
  stream : Stream

inductive WatchedAction where
  | service (a : Action)
  | read
  | refresh (clientGone : Bool)

def watchedStep (env : Env) (x : Watched) : WatchedAction → Option Watched
  | .service a => (step env x.state a).map fun s => { x with state := s }
  | .read => match x.stream.position with
    | .reading => some { x with stream := x.stream.read x.state.db }
    | _ => none
  | .refresh clientGone => match x.stream.position with
    | .refreshing noEvents =>
      (x.stream.refresh x.state.db noEvents clientGone).map fun st => { x with stream := st }
    | _ => none

end DiffReview
