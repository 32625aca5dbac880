import DiffReview.Spec.System

/-!
# DiffReview — transient database failures

One lifetime of the process on a database that may fail. Any transaction of a worker may
raise at any statement and is then rolled back whole. What the worker does next is the
`except` clause around it: that of `_process_job` for the transactions of the cache wait and
of the provider path, and that of `worker_loop` for `_claim_job` and for the transaction
of the `except` branch itself.
-/

namespace DiffReview

open Py Transition

/-- A process that has just started: `recover_abandoned_jobs` has left no running job. -/
structure Started (s : State) : Prop where
  up : s.up = true
  idle : ∀ w, s.workers w = .idle
  settled : runningJobs s.db = []

inductive FaultyAction where
  /-- A step of the service whose transaction goes through. -/
  | succeeds (a : Action)
  /-- The transaction of worker `w` raises `exc`. -/
  | raises (w : Nat) (exc : PyError)

/-- Where a worker is after its transaction has raised; `none` when it has none open. -/
def Worker.raised (exc : PyError) : Worker → Option Worker
  | .idle => some .idle
  | .waiting job => some (.failing job exc)
  | .reviewing _ => none
  | .storing job _ => some (.failing job exc)
  -- `worker_loop` logs the exception of the handler and goes on
  | .failing _ _ => some .idle

def faultyStep (env : Env) (s : State) : FaultyAction → Option State
  -- the process is neither stopped nor started again
  | .succeeds .kill => none
  | .succeeds (.recover _) => none
  | .succeeds a => step env s a
  | .raises w exc => ((s.workers w).raised exc).map (s.setWorker w)

end DiffReview
