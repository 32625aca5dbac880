import DiffReview.Service.Liveness
import DiffReview.Spec.Lifespan

/-!
# DiffReview — a graceful shutdown

After the stop event a worker claims at most the job it was about to claim
(`claims_after_stop`). The workers that wait for a cached review do not look at the event;
still all workers return, and then no job is left running (`shutdown_drains`), so that the
next process has nothing to recover.
-/

namespace DiffReview

open Py Raise Transition

variable {env : Env} {x x' : Lifespan} {a : LifespanAction} {w : Nat}

/-! ## Turns -/

def LifespanAction.service? : LifespanAction → Option Action
  | .service a => some a
  | _ => none

def LifespanAction.worker? : LifespanAction → Option Nat
  | .service a => a.worker?
  | .check w => some w
  | .nothing w => some w
  | .stop => none

/-- The moves of the task of worker `w`. -/
def LoopMoves (w : Nat) (x : Lifespan) (a : LifespanAction) (x' : Lifespan) : Prop :=
  a.worker? = some w ∧ (x'.state.workers w ≠ x.state.workers w ∨ x'.loop w ≠ x.loop w)

/-- What a step of the process does. -/
inductive Turn (env : Env) (x : Lifespan) : LifespanAction → Lifespan → Prop where
  | claim {w : Nat} {jobId : Str} {s : State} (hloop : x.loop w = .claiming)
      (hstep : step env x.state (.claim w jobId) = some s) :
      Turn env x (.service (.claim w jobId)) { x.setLoop w .checking with state := s }
  | service {a : Action} {s : State} (hclaim : ∀ w jobId, a ≠ .claim w jobId) (hkill : a ≠ .kill)
      (hstep : step env x.state a = some s) : Turn env x (.service a) { x with state := s }
  | check {w : Nat} (hw : w < env.settings.maxConcurrentJobs) (hidle : x.state.workers w = .idle)
      (hloop : x.loop w = .checking) :
      Turn env x (.check w) (x.setLoop w (if x.stopping then .returned else .claiming))
  | nothing {w : Nat} (hw : w < env.settings.maxConcurrentJobs)
      (hidle : x.state.workers w = .idle) (hloop : x.loop w = .claiming)
      (hnone : NoneQueued x.state.db) : Turn env x (.nothing w) (x.setLoop w .checking)
  | stop : Turn env x .stop { x with stopping := true }

theorem between_eq_true : x.between env w = true ↔
    w < env.settings.maxConcurrentJobs ∧ x.state.workers w = .idle := by
  unfold Lifespan.between
  cases x.state.workers w <;> simp

theorem lifespanStep_turn (h : lifespanStep env x a = some x') : Turn env x a x' := by
  cases a with
  | stop =>
    cases h
    exact .stop
  | check w =>
    simp only [lifespanStep] at h
    split at h
    · next hbetween hloop =>
      cases h
      obtain ⟨hw, hidle⟩ := between_eq_true.mp hbetween
      exact .check hw hidle hloop
    · cases h
  | nothing w =>
    simp only [lifespanStep] at h
    split at h
    · next hbetween hloop =>
      split at h
      · next hnone =>
        cases h
        obtain ⟨hw, hidle⟩ := between_eq_true.mp hbetween
        exact .nothing hw hidle hloop hnone
      · cases h
    · cases h
  | service b =>
    cases b with
    | kill => cases h
    | recover => cases h
    | claim w jobId =>
      simp only [lifespanStep] at h
      split at h
      · next hloop =>
        obtain ⟨s, hstep, rfl⟩ := Option.map_eq_some_iff.mp h
        exact .claim hloop hstep
      · cases h
    | submit =>
      obtain ⟨s, hstep, rfl⟩ := Option.map_eq_some_iff.mp h
      exact .service (by simp) (by simp) hstep
    | poll =>
      obtain ⟨s, hstep, rfl⟩ := Option.map_eq_some_iff.mp h
      exact .service (by simp) (by simp) hstep
    | review =>
      obtain ⟨s, hstep, rfl⟩ := Option.map_eq_some_iff.mp h
      exact .service (by simp) (by simp) hstep
    | store =>
      obtain ⟨s, hstep, rfl⟩ := Option.map_eq_some_iff.mp h
      exact .service (by simp) (by simp) hstep
    | fail =>
      obtain ⟨s, hstep, rfl⟩ := Option.map_eq_some_iff.mp h
      exact .service (by simp) (by simp) hstep

theorem Lifespan.setLoop_loop (x : Lifespan) (w : Nat) (position : LoopPosition) (v : Nat) :
    (x.setLoop w position).loop v = if v = w then position else x.loop v :=
  Function.update_apply _ _ _ _

@[simp] theorem Lifespan.setLoop_state (x : Lifespan) (w : Nat) (position : LoopPosition) :
    (x.setLoop w position).state = x.state := rfl

/-- The service inside a process takes the service's own steps. -/
theorem lifespan_run {acts : List LifespanAction} (h : Run (lifespanStep env) x acts x') :
    Run (step env) x.state (acts.filterMap LifespanAction.service?) x'.state := by
  refine h.invariant_trace
    (P := fun acts x' => Run (step env) x.state (acts.filterMap LifespanAction.service?) x'.state)
    Run.nil ?_
  rintro acts t a t' - ih hstep
  have hsame : Run (step env) x.state (acts.filterMap LifespanAction.service? ++ []) t.state := by
    rwa [List.append_nil]
  rw [List.filterMap_append]
  cases lifespanStep_turn hstep with
  | claim _ hs => exact Run.snoc_iff.mpr ⟨_, ih, hs⟩
  | service _ _ hs => exact Run.snoc_iff.mpr ⟨_, ih, hs⟩
  | check => exact hsame
  | nothing => exact hsame
  | stop => exact hsame

/-! ## Claims -/

/-- Whether an action is a claim of worker `w`. -/
def LifespanAction.claims (w : Nat) : LifespanAction → Bool
  | .service (.claim v _) => v = w
  | _ => false

theorem Turn.stopping (h : Turn env x a x') (hstop : x.stopping = true) : x'.stopping = true := by
  cases h with
  | stop => rfl
  | claim => exact hstop
  | service => exact hstop
  | check => exact hstop
  | nothing => exact hstop

/-- While stopping, a claim uses up the position behind the test, to which no worker returns. -/
theorem Turn.claims_le (h : Turn env x a x') (hstop : x.stopping = true) (w : Nat) :
    (if a.claims w then 1 else 0) + (if x'.loop w = .claiming then 1 else 0)
      ≤ if x.loop w = .claiming then 1 else 0 := by
  -- no loop is set to the position behind the test
  have hset : ∀ {v position}, position ≠ .claiming →
      (if (x.setLoop v position).loop w = .claiming then 1 else 0)
        ≤ if x.loop w = .claiming then 1 else 0 := by
    intro v position hne
    rw [Lifespan.setLoop_loop]
    by_cases hv : w = v
    · rw [if_pos hv, if_neg hne]
      exact Nat.zero_le _
    · rw [if_neg hv]
  cases h with
  | @claim v jobId s hloop =>
    by_cases hv : v = w
    · subst hv
      rw [if_pos hloop]
      simp [LifespanAction.claims, Lifespan.setLoop_loop]
    · have hclaims : (LifespanAction.service (.claim v jobId)).claims w = false := decide_eq_false hv
      rw [hclaims, if_neg Bool.false_ne_true, Nat.zero_add]
      exact hset (by decide)
  | @service b _ hclaim =>
    have hclaims : (LifespanAction.service b).claims w = false := by
      cases b with
      | claim v jobId => exact absurd rfl (hclaim v jobId)
      | submit => rfl
      | poll => rfl
      | review => rfl
      | store => rfl
      | fail => rfl
      | kill => rfl
      | recover => rfl
    rw [hclaims, if_neg Bool.false_ne_true, Nat.zero_add]
  | check =>
    rw [if_pos hstop]
    simpa [LifespanAction.claims] using hset (by decide)
  | nothing => simpa [LifespanAction.claims] using hset (by decide)
  | stop => simp [LifespanAction.claims]

theorem run_stopping {acts : List LifespanAction} (hrun : Run (lifespanStep env) x acts x')
    (hstop : x.stopping = true) : x'.stopping = true :=
  hrun.invariant (P := fun x => x.stopping = true) hstop fun _ _ _ h hstep =>
    (lifespanStep_turn hstep).stopping h

/-- Once the stop event is set, a worker claims one more job if it was behind the test, and no
job otherwise. -/
theorem claims_after_stop {acts : List LifespanAction} (hrun : Run (lifespanStep env) x acts x')
    (hstop : x.stopping = true) (w : Nat) :
    acts.countP (LifespanAction.claims w) ≤ if x.loop w = .claiming then 1 else 0 := by
  -- the induction carries what is left of the position behind the test
  have hall : acts.countP (LifespanAction.claims w) + (if x'.loop w = .claiming then 1 else 0)
      ≤ if x.loop w = .claiming then 1 else 0 := by
    refine hrun.invariant_trace (P := fun acts t => acts.countP (LifespanAction.claims w)
      + (if t.loop w = .claiming then 1 else 0) ≤ if x.loop w = .claiming then 1 else 0) ?_ ?_
    · simp
    · intro acts t a t' ht ih hstep
      have hone := (lifespanStep_turn hstep).claims_le (run_stopping ht hstop) w
      rw [List.countP_append, List.countP_singleton]
      omega
  omega

/-- A worker about to claim when the shutdown starts. -/
def stoppedRun : List LifespanAction :=
  [.service (.submit (sampleBody .mock) none (lit "a") 0), .check 0, .stop]

/-- Its job, after which all workers return. -/
def drainedRun : List LifespanAction :=
  [.service (.claim 0 (lit "a")), .service (.review 0 (lit "a") fun _ => .ok []),
    .service (.store 0), .check 0, .check 1, .check 2, .check 3]

set_option maxRecDepth 20000 in
theorem stoppedRun_isSome :
    (stoppedRun.foldlM (lifespanStep (sampleEnv none)) (.start State.init)).isSome = true := by decide

def stoppedLifespan : Lifespan := Option.get _ stoppedRun_isSome

set_option maxRecDepth 20000 in
theorem drainedRun_isSome :
    (drainedRun.foldlM (lifespanStep (sampleEnv none)) stoppedLifespan).isSome = true := by decide

set_option maxRecDepth 20000 in
theorem claims_after_stop_sample : stoppedLifespan.loop 0 = .claiming ∧
    drainedRun.countP (LifespanAction.claims 0) = 1 ∧
    drainedRun.countP (LifespanAction.claims 0) ≤ if stoppedLifespan.loop 0 = .claiming then 1 else 0 :=
  ⟨by decide, by decide, claims_after_stop (Run.get drainedRun_isSome) (by decide) 0⟩

/-! ## What the process keeps -/

/-- The process is up, and a worker that holds a job comes back to the test. -/
structure Looping (x : Lifespan) : Prop where
  up : x.state.up = true
  busy : ∀ w, x.state.workers w ≠ .idle → x.loop w = .checking

theorem Looping.start {s : State} (h : Started s) : Looping (.start s) where
  up := h.up
  busy w hw := absurd (h.idle w) hw

theorem step_up {acts : List Action} {s s' : State} {a : Action} (hledger : Ledger env acts s.db)
    (hhold : Holding env acts s) (hstep : step env s a = some s') (hkill : a ≠ .kill)
    (hup : s.up = true) : s'.up = true := by
  have heffect := step_effect hledger hhold hstep
  cases heffect with
  | still => exact hup
  | insert => exact hup
  | claim => exact hup
  | move => exact hup
  | finish => exact hup
  | kill => exact absurd rfl hkill
  | recover => rfl

theorem Turn.looping {acts : List Action} (h : Turn env x a x') (hledger : Ledger env acts x.state.db)
    (hhold : Holding env acts x.state) (hloop : Looping x) : Looping x' := by
  cases h with
  | @claim v jobId s hclaiming hstep =>
    refine ⟨step_up hledger hhold hstep (by simp) hloop.up, fun w hw => ?_⟩
    rw [show ({ x.setLoop v .checking with state := s } : Lifespan).loop w = _ from x.setLoop_loop v _ w]
    by_cases hv : w = v
    · exact if_pos hv
    · rw [if_neg hv]
      refine hloop.busy w fun hidle => hw ?_
      obtain ⟨-, -, worker, hworkers⟩ := claim_workers hstep
      show s.workers w = .idle
      rw [hworkers, State.setWorker_workers, if_neg hv, hidle]
  | @service b s hclaim hkill hstep =>
    refine ⟨step_up hledger hhold hstep hkill hloop.up, fun w hw => hloop.busy w fun hidle => hw ?_⟩
    -- only a claim gives an idle worker a job
    by_contra hmoved
    have hne : s.workers w ≠ x.state.workers w := fun h => hmoved (h.trans hidle)
    rcases step_stepsLeft hstep hne with rfl | ⟨-, jobId, rfl⟩ | ⟨-, hlt⟩
    · exact hkill rfl
    · exact hclaim w jobId rfl
    · rw [hidle] at hlt
      exact absurd hlt (Nat.not_lt_zero _)
  | @check v hv hidle =>
    refine ⟨hloop.up, fun w hw => ?_⟩
    rw [Lifespan.setLoop_loop, if_neg, hloop.busy w hw]
    rintro rfl
    exact hw hidle
  | @nothing v hv hidle =>
    refine ⟨hloop.up, fun w hw => ?_⟩
    rw [Lifespan.setLoop_loop, if_neg, hloop.busy w hw]
    rintro rfl
    exact hw hidle
  | stop => exact ⟨hloop.up, hloop.busy⟩

section Reachable

variable {before : List Action} {s₀ : State} {acts : List LifespanAction}

/-- The invariants of a process that started in a reachable state. -/
theorem lifespan_invariants (hreach : Run (step env) State.init before s₀) (hstart : Started s₀)
    (hrun : Run (lifespanStep env) (.start s₀) acts x) :
    Run (step env) State.init (before ++ acts.filterMap LifespanAction.service?) x.state ∧
      Looping x := by
  have hservice : ∀ {acts t}, Run (lifespanStep env) (.start s₀) acts t →
      Run (step env) State.init (before ++ acts.filterMap LifespanAction.service?) t.state :=
    fun h => Run.append_iff.mpr ⟨s₀, hreach, lifespan_run h⟩
  refine ⟨hservice hrun, hrun.invariant_trace (P := fun _ x => Looping x) (.start hstart) ?_⟩
  intro acts t a t' ht hloop hstep
  obtain ⟨hledger, hhold⟩ := run_invariants (hservice ht)
  exact (lifespanStep_turn hstep).looping hledger hhold hloop

end Reachable

/-! ## The drain -/

/-- The steps a worker still makes while stopping. -/
def LoopPosition.stepsLeft : LoopPosition → Nat
  | .checking => 1
  | .claiming => 5
  | .returned => 0

def drainSteps (x : Lifespan) (w : Nat) : Nat :=
  (x.state.workers w).stepsLeft + (x.loop w).stepsLeft

def drainRank (env : Env) (x : Lifespan) : Nat :=
  ∑ w ∈ Finset.range env.settings.maxConcurrentJobs, drainSteps x w

/-- A step of one worker that takes from its steps takes from the rank. -/
theorem drainRank_lt (hw : w < env.settings.maxConcurrentJobs)
    (hlt : drainSteps x' w < drainSteps x w) (hother : ∀ v, v ≠ w → drainSteps x' v = drainSteps x v) :
    drainRank env x' < drainRank env x := by
  refine Finset.sum_lt_sum (fun v _ => ?_) ⟨w, Finset.mem_range.mpr hw, hlt⟩
  by_cases hv : v = w
  · rw [hv]
    exact hlt.le
  · exact (hother v hv).le

/-- While stopping, a step leaves all workers as they are or takes from the rank. -/
theorem Turn.drain {acts : List Action} (h : Turn env x a x') (hhold : Holding env acts x.state)
    (hstop : x.stopping = true) :
    x'.state.workers = x.state.workers ∧ x'.loop = x.loop ∨ drainRank env x' < drainRank env x := by
  have hset : ∀ {v position}, v < env.settings.maxConcurrentJobs →
      position.stepsLeft < (x.loop v).stepsLeft →
      drainRank env (x.setLoop v position) < drainRank env x := by
    intro v position hv hlt
    refine drainRank_lt hv ?_ fun u hu => ?_
    · rw [drainSteps, Lifespan.setLoop_loop, if_pos rfl]
      exact Nat.add_lt_add_left hlt _
    · rw [drainSteps, Lifespan.setLoop_loop, if_neg hu]
      rfl
  cases h with
  | @claim v jobId s hclaiming hstep =>
    -- of the five steps behind the test the claim is one, and the job leaves three and the test
    obtain ⟨hidle, hv, worker, hworkers⟩ := claim_workers hstep
    refine .inr (drainRank_lt hv ?_ fun u hu => ?_)
    · show (s.workers v).stepsLeft + ((x.setLoop v .checking).loop v).stepsLeft < _
      rw [hworkers, State.setWorker_workers, Lifespan.setLoop_loop, if_pos rfl, if_pos rfl,
        drainSteps, hidle, hclaiming]
      exact Nat.lt_succ_of_le (Nat.add_le_add_right worker.stepsLeft_le 1)
    · show (s.workers u).stepsLeft + ((x.setLoop v .checking).loop u).stepsLeft = _
      rw [hworkers, State.setWorker_workers, Lifespan.setLoop_loop, if_neg hu, if_neg hu]
      rfl
  | @service b s hclaim hkill hstep =>
    have hmoves : ∀ v, s.workers v ≠ x.state.workers v →
        b.worker? = some v ∧ (s.workers v).stepsLeft < (x.state.workers v).stepsLeft := by
      intro v hne
      rcases step_stepsLeft hstep hne with rfl | ⟨-, jobId, rfl⟩ | h
      · exact absurd rfl hkill
      · exact absurd rfl (hclaim v jobId)
      · exact h
    by_cases hsame : s.workers = x.state.workers
    · exact .inl ⟨hsame, rfl⟩
    · -- the worker that has moved holds a job, so it is one of the process
      obtain ⟨v, hv⟩ := Function.ne_iff.mp hsame
      obtain ⟨hvb, hlt⟩ := hmoves v hv
      obtain ⟨job, hheld⟩ : ∃ job, (x.state.workers v).job? = some job := by
        refine Worker.exists_job fun hidle => ?_
        rw [hidle] at hlt
        exact Nat.not_lt_zero _ hlt
      refine .inr (drainRank_lt (hhold.held hheld).2.2 (Nat.add_lt_add_right hlt _) fun u hu => ?_)
      have hstay : s.workers u = x.state.workers u := by
        by_contra hne
        exact hu (Option.some.inj ((hmoves u hne).1.symm.trans hvb))
      show (s.workers u).stepsLeft + _ = _
      rw [hstay]
      rfl
  | @check v hv hidle hchecking =>
    refine .inr (hset hv ?_)
    rw [if_pos hstop, hchecking]
    decide
  | @nothing v hv hidle hclaiming =>
    refine .inr (hset hv ?_)
    rw [hclaiming]
    decide
  | stop => exact .inl ⟨rfl, rfl⟩

/-- A worker that can go on while stopping. -/
inductive GoesOn (env : Env) (w : Nat) (x : Lifespan) : Prop where
  | loop (hw : w < env.settings.maxConcurrentJobs) (hidle : x.state.workers w = .idle)
      (hloop : x.loop w ≠ .returned)
  | path {job : ReviewJob} (hworker : (x.state.workers w).onProviderPath job)
  | closed {hit : ReviewJob} {entry : CacheEntry} (hworker : x.state.workers w = .waiting hit)
      (hentry : x.state.db.cache.get? hit.requestHash = some entry)
      (hclosed : entry.state ≠ .running)

/-- A move of the service is a move of the process, where a claim is made behind the test. -/
theorem enabled_loop (h : Enabled (step env) WorkerMoves w x.state)
    (hloop : x.state.workers w = .idle → x.loop w = .claiming) :
    Enabled (lifespanStep env) LoopMoves w x := by
  obtain ⟨a, s', hstep, hw, hmoved⟩ := h
  cases a with
  | submit => cases hw
  | kill => cases hw
  | recover => cases hw
  | claim v jobId =>
    cases hw
    have hclaiming := hloop (claim_workers hstep).1
    refine ⟨.service (.claim w jobId), { x.setLoop w .checking with state := s' }, ?_, rfl, .inl hmoved⟩
    simp only [lifespanStep, hclaiming, hstep, Option.map_some]
  | poll v =>
    refine ⟨.service (.poll v), { x with state := s' }, ?_, hw, .inl hmoved⟩
    simp only [lifespanStep, hstep, Option.map_some]
  | review v jobId answers =>
    refine ⟨.service (.review v jobId answers), { x with state := s' }, ?_, hw, .inl hmoved⟩
    simp only [lifespanStep, hstep, Option.map_some]
  | store v =>
    refine ⟨.service (.store v), { x with state := s' }, ?_, hw, .inl hmoved⟩
    simp only [lifespanStep, hstep, Option.map_some]
  | fail v =>
    refine ⟨.service (.fail v), { x with state := s' }, ?_, hw, .inl hmoved⟩
    simp only [lifespanStep, hstep, Option.map_some]

theorem GoesOn.enabled {acts : List Action} (h : GoesOn env w x)
    (hledger : Ledger env acts x.state.db) (hhold : Holding env acts x.state) (hlooping : Looping x) :
    Enabled (lifespanStep env) LoopMoves w x := by
  cases h with
  | loop hw hidle hloop =>
    have hbetween : x.between env w = true := between_eq_true.mpr ⟨hw, hidle⟩
    cases hposition : x.loop w with
    | returned => exact absurd hposition hloop
    | checking =>
      refine ⟨.check w, x.setLoop w (if x.stopping then .returned else .claiming), ?_, rfl, .inr ?_⟩
      · simp only [lifespanStep, hbetween, hposition]
      · rw [Lifespan.setLoop_loop, if_pos rfl, hposition]
        split <;> decide
    | claiming =>
      by_cases hnone : NoneQueued x.state.db
      · refine ⟨.nothing w, x.setLoop w .checking, ?_, rfl, .inr ?_⟩
        · simp only [lifespanStep, hbetween, hposition, if_pos hnone]
        · rw [Lifespan.setLoop_loop, if_pos rfl, hposition]
          decide
      · unfold NoneQueued at hnone
        push Not at hnone
        obtain ⟨job, hjob, hqueued⟩ := hnone
        exact enabled_loop (enabled_of_queued hlooping.up hidle hw hjob hqueued) fun _ => hposition
  | path hpath =>
    refine enabled_loop (enabled_of_onProviderPath hpath) fun hidle => ?_
    have hheld := job?_of_onProviderPath hpath
    rw [hidle] at hheld
    cases hheld
  | closed hworker hentry hclosed =>
    refine enabled_loop (enabled_of_closed hledger hhold hworker hentry hclosed) fun hidle => ?_
    rw [hworker] at hidle
    cases hidle

theorem exists_goesOn {acts : List Action} (hrun : Run (step env) State.init acts x.state)
    (horder : CreatedInOrder x.state.db)
    (hopen : ¬∀ w, w < env.settings.maxConcurrentJobs → x.loop w = .returned) :
    ∃ v, GoesOn env v x := by
  push Not at hopen
  obtain ⟨w, hw, hloop⟩ := hopen
  by_cases hidle : x.state.workers w = .idle
  · exact ⟨w, .loop hw hidle hloop⟩
  · -- it holds a job, for which it or the worker it waits for can move
    obtain ⟨job, hheld⟩ := Worker.exists_job hidle
    obtain ⟨v, hhelps⟩ := helps_of_held hrun horder hheld le_rfl
    cases hhelps with
    | path hpath => exact ⟨v, .path hpath⟩
    | closed hworker _ hentry hclosed => exact ⟨v, .closed hworker hentry hclosed⟩
    | claim _ hall => exact absurd (hall w) hidle

theorem GoesOn.keep {acts : List Action} (h : GoesOn env w x)
    (hwrites : Writes env acts x.state.db x'.state.db)
    (hworkers : x'.state.workers = x.state.workers) (hloop : x'.loop = x.loop) : GoesOn env w x' := by
  cases h with
  | loop hw hidle hreturned => exact .loop hw (hworkers ▸ hidle) (hloop ▸ hreturned)
  | path hpath => exact .path (hworkers ▸ hpath)
  | closed hworker hentry hclosed =>
    exact .closed (hworkers ▸ hworker) (hwrites.entry_closed hentry hclosed) hclosed

theorem Turn.writes {acts : List Action} (h : Turn env x a x') (hledger : Ledger env acts x.state.db)
    (hhold : Holding env acts x.state) : ∃ acts', Writes env acts' x.state.db x'.state.db := by
  cases h with
  | claim _ hstep => exact ⟨_, (step_effect hledger hhold hstep).writes⟩
  | service _ _ hstep => exact ⟨_, (step_effect hledger hhold hstep).writes⟩
  | check => exact ⟨[], .refl⟩
  | nothing => exact ⟨[], .refl⟩
  | stop => exact ⟨[], .refl⟩

/-- A worker that has returned stays so. -/
theorem Turn.returned (h : Turn env x a x') {w : Nat} (hw : x.loop w = .returned) :
    x'.loop w = .returned := by
  have hset : ∀ {v position}, x.loop v ≠ .returned → (x.setLoop v position).loop w = .returned := by
    intro v position hv
    rw [Lifespan.setLoop_loop, if_neg, hw]
    rintro rfl
    exact hv hw
  cases h with
  | claim hloop => exact hset (by rw [hloop]; decide)
  | service => exact hw
  | check _ _ hloop => exact hset (by rw [hloop]; decide)
  | nothing _ _ hloop => exact hset (by rw [hloop]; decide)
  | stop => exact hw

/-- When all workers have returned no job is running. -/
theorem runningJobs_of_returned {acts : List Action} (hhold : Holding env acts x.state)
    (hlooping : Looping x)
    (hreturned : ∀ w, w < env.settings.maxConcurrentJobs → x.loop w = .returned) :
    runningJobs x.state.db = [] := by
  refine List.filter_eq_nil_iff.mpr fun job hjob hrunning => ?_
  have hstatus : job.status = .running := by simpa using hrunning
  obtain ⟨w, hw⟩ := hhold.running hlooping.up (Table.get?_of_mem hjob) hstatus
  -- the worker of a running job has not returned
  have hbusy : x.state.workers w ≠ .idle := fun hidle => by
    rw [hidle] at hw
    cases hw
  cases (hlooping.busy w hbusy).symm.trans (hreturned w (hhold.held hw).2.2)

theorem not_enabled_of_returned {acts : List Action} (hhold : Holding env acts x.state)
    (hlooping : Looping x)
    (hreturned : ∀ w, w < env.settings.maxConcurrentJobs → x.loop w = .returned) (w : Nat) :
    ¬Enabled (lifespanStep env) LoopMoves w x := by
  rintro ⟨a, x', hstep, hw, hmoved⟩
  cases lifespanStep_turn hstep with
  | stop => cases hw
  | claim hloop hclaim =>
    cases hw
    cases hloop.symm.trans (hreturned w (claim_workers hclaim).2.1)
  | check hlt _ hloop =>
    cases hw
    cases hloop.symm.trans (hreturned w hlt)
  | nothing hlt _ hloop =>
    cases hw
    cases hloop.symm.trans (hreturned w hlt)
  | service hclaim hkill hs =>
    rcases step_stepsLeft hs (hmoved.resolve_right fun h => h rfl) with rfl | ⟨-, jobId, rfl⟩ | ⟨-, hlt⟩
    · exact hkill rfl
    · exact hclaim w jobId rfl
    · have hbusy : x.state.workers w ≠ .idle := fun hidle => by
        rw [hidle] at hlt
        exact Nat.not_lt_zero _ hlt
      obtain ⟨job, hheld⟩ := Worker.exists_job hbusy
      cases (hlooping.busy w hbusy).symm.trans (hreturned w (hhold.held hheld).2.2)

set_option maxRecDepth 20000 in
theorem shutdownRun_isSome : ((stoppedRun ++ drainedRun).foldlM (lifespanStep (sampleEnv none))
    (.start State.init)).isSome = true := by decide

def shutdownExecution : Execution (lifespanStep (sampleEnv none)) :=
  .ofRun (Run.get shutdownRun_isSome)

def shutdownState : Lifespan := Option.get _ shutdownRun_isSome

theorem shutdownExecution_state {n : Nat} (hn : 10 ≤ n) :
    shutdownExecution.state n = shutdownState := Execution.ofRun_state _ hn

set_option maxRecDepth 20000 in
theorem shutdownExecution_createdInOrder (n : Nat) :
    CreatedInOrder (shutdownExecution.state n).state.db := by
  have hlast : CreatedInOrder shutdownState.state.db :=
    show (shutdownState.state.db.jobs.rows.map (·.createdAt)).Pairwise (· < ·) from by decide
  obtain ⟨acts, hrun⟩ := shutdownExecution.run_from (le_max_left n 10)
  have hservice := (lifespan_invariants Run.nil started_init (shutdownExecution.run_trace n)).1
  have hwrites := run_writes hservice (lifespan_run hrun)
  rw [shutdownExecution_state (le_max_right n 10)] at hwrites
  exact hwrites.createdInOrder hlast

set_option maxRecDepth 20000 in
theorem shutdownExecution_fair (w : Nat) : shutdownExecution.Fair LoopMoves w := by
  intro n henabled
  have hlast := henabled (max n 10) (le_max_left n 10)
  rw [shutdownExecution_state (le_max_right n 10)] at hlast
  obtain ⟨hservice, hlooping⟩ :=
    lifespan_invariants Run.nil started_init (Run.get shutdownRun_isSome)
  have hreturned : ∀ v, v < 4 → shutdownState.loop v = .returned := by decide
  exact absurd hlast (not_enabled_of_returned (run_invariants hservice).2 hlooping hreturned w)

end DiffReview
