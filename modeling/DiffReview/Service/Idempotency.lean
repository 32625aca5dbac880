import DiffReview.Service.Calls
import DiffReview.Service.RequestHash

/-!
# DiffReview — idempotency without a common lock

In any interleaving of the database steps of any number of calls, the calls that end in
202 under one key name one job (`idempotency_agreement`).
-/

namespace DiffReview

open Py Raise Transition

/-! ## The invariant of all calls -/

/-- Every call is sound, every record is that of a call that made a job, and no key has two
of them. -/
structure CallsInv (env : Env) (x : Calls) : Prop where
  sound : ∀ {c call}, x.call c = some call → call.state.Sound x.service.db
    (truthyKey call.idempotencyKey) (env.sha256 call.rawBody)
  recorded : ∀ {key r}, x.service.db.idempotency.get? key = some r → ∃ c call job,
    x.call c = some call ∧ truthyKey call.idempotencyKey = some key ∧ call.state = .created job
  single : ∀ {c c' call call' job job' key}, x.call c = some call → x.call c' = some call' →
    call.state = .created job → call'.state = .created job' →
    truthyKey call.idempotencyKey = some key → truthyKey call'.idempotencyKey = some key → c = c'

section Runs

variable {env : Env} {x x' : Calls} {c : Nat} {call : Call} {a : CallAction}

/-- A call that moves on keeps the invariant when it knows what it does, and makes a job
only under a key that had no record. -/
theorem CallsInv.set (h : CallsInv env x) {service : State}
    (hkeeps : Keeps x.service.db service.db)
    (hopen : ∀ old job, x.call c = some old → old.state ≠ .created job)
    (hsound : call.state.Sound service.db (truthyKey call.idempotencyKey) (env.sha256 call.rawBody))
    (hrecords : ∀ key r, service.db.idempotency.get? key = some r →
      x.service.db.idempotency.get? key = some r ∨
        truthyKey call.idempotencyKey = some key ∧ ∃ job, call.state = .created job)
    (hfresh : ∀ job key, call.state = .created job → truthyKey call.idempotencyKey = some key →
      x.service.db.idempotency.get? key = none) :
    CallsInv env (Calls.set { x with service := service } c call) := by
  -- a call that had made a job under the key would have a record there
  have hnew : ∀ {c' old job job' key}, x.call c' = some old → old.state = .created job →
      truthyKey old.idempotencyKey = some key → call.state = .created job' →
      truthyKey call.idempotencyKey = some key → False := by
    intro c' old job job' key hold hstate hkey hstate' hkey'
    have hanswered := h.sound hold
    rw [hstate] at hanswered
    obtain ⟨r, hr, -⟩ := Answered.record hanswered key hkey
    exact nomatch (hfresh job' key hstate' hkey').symm.trans hr
  refine ⟨fun {c' found} hfound => ?_, fun {key r} hr => ?_, ?_⟩
  · rcases Calls.call_set hfound with ⟨-, rfl⟩ | ⟨-, hfound⟩
    · exact hsound
    · exact (h.sound hfound).mono hkeeps
  · rcases hrecords key r hr with hr | ⟨hkey, job, hstate⟩
    · obtain ⟨c', old, job, hold, hkey, hstate⟩ := h.recorded hr
      have hne : c' ≠ c := by
        rintro rfl
        exact hopen old job hold hstate
      exact ⟨c', old, job, (Calls.call_set_ne hne).trans hold, hkey, hstate⟩
    · exact ⟨c, call, job, Calls.call_set_self, hkey, hstate⟩
  · intro c₁ c₂ call₁ call₂ job₁ job₂ key h₁ h₂ hstate₁ hstate₂ hkey₁ hkey₂
    rcases Calls.call_set h₁ with ⟨hc₁, hcall₁⟩ | ⟨-, hold₁⟩ <;>
      rcases Calls.call_set h₂ with ⟨hc₂, hcall₂⟩ | ⟨-, hold₂⟩
    · exact hc₁.trans hc₂.symm
    · exact (hnew hold₂ hstate₂ hkey₂ (hcall₁ ▸ hstate₁) (hcall₁ ▸ hkey₁)).elim
    · exact (hnew hold₁ hstate₁ hkey₁ (hcall₂ ▸ hstate₂) (hcall₂ ▸ hkey₂)).elim
    · exact h.single hold₁ hold₂ hstate₁ hstate₂ hkey₁ hkey₂

theorem CallsInv.step (h : CallsInv env x) (hstep : callStep env x a = some x') :
    CallsInv env x' := by
  cases a with
  | service b =>
    obtain ⟨hsame, hcall⟩ := callStep_service hstep
    refine ⟨fun {c call} hfound => ?_, fun {key r} hr => ?_, ?_⟩ <;> rw [hcall] at *
    · exact (h.sound hfound).mono hsame.keeps
    · exact h.recorded (hsame.idempotency ▸ hr)
    · exact h.single
  | arrive c rawBody key =>
    obtain ⟨hnone, rfl⟩ := callStep_arrive hstep
    have hnot : ∀ job, CallState.arrived env rawBody key ≠ .created job := by
      intro job
      unfold CallState.arrived
      split
      · nofun
      · split <;> nofun
    exact h.set ⟨id, id⟩ (fun old job hold => nomatch hnone.symm.trans hold)
      CallState.arrived_sound (fun _ _ hr => .inl hr) fun job _ hstate => absurd hstate (hnot job)
  | database c jobId now failure =>
    obtain ⟨rawBody, key, sub, await, hcall, hx'⟩ := callStep_database hstep
    have hopen : ∀ old job, x.call c = some old → old.state ≠ .created job := by
      intro old job hold
      cases hcall.symm.trans hold
      nofun
    obtain ⟨hhash, hawait⟩ := h.sound hcall
    rcases hx' with rfl | rfl
    · exact h.set ⟨id, id⟩ hopen trivial (fun _ _ hr => .inl hr) nofun
    · exact h.set await.write_keeps hopen (Await.next_sound hhash hawait)
        (fun k r hr => Await.write_record hawait hr)
        fun job k hstate hkey => Await.created_fresh hawait hstate hkey

/-- A step of the calls writes only when it makes a job. -/
theorem callStep_db (h : callStep env x a = some x') (ha : a.call? = some c) :
    x'.service.db = x.service.db ∨
      ∃ call job, x'.call c = some call ∧ call.state = .created job := by
  cases a with
  | service b => cases ha
  | arrive d rawBody key =>
    obtain ⟨-, rfl⟩ := callStep_arrive h
    exact .inl rfl
  | database d jobId now failure =>
    cases ha
    obtain ⟨rawBody, key, sub, await, -, rfl | rfl⟩ := callStep_database h
    · exact .inl rfl
    · rcases await.write_eq sub (truthyKey key) jobId now with hsame | ⟨rows, -, -, hnext⟩
      · exact .inl hsame
      · exact .inr ⟨_, rows.job, Calls.call_set_self, hnext⟩

/-- A call keeps its body and its key, and a call that has made a job is over. -/
theorem callStep_call (h : callStep env x a = some x') (hcall : x.call c = some call) :
    ∃ state, x'.call c = some { call with state := state } ∧
      ∀ job, call.state = .created job → state = call.state := by
  have hkeep : x'.call c = x.call c → ∃ state, x'.call c = some { call with state := state } ∧
      ∀ job, call.state = .created job → state = call.state := fun hsame =>
    ⟨call.state, hsame.trans hcall, fun _ _ => rfl⟩
  cases a with
  | service b => exact hkeep (congrFun (callStep_service h).2 c)
  | arrive d rawBody key =>
    obtain ⟨hnone, rfl⟩ := callStep_arrive h
    refine hkeep (Calls.call_set_ne ?_)
    rintro rfl
    cases hnone.symm.trans hcall
  | database d jobId now failure =>
    obtain ⟨rawBody, key, sub, await, hd, hx'⟩ := callStep_database h
    by_cases hc : c = d
    · subst hc
      cases hd.symm.trans hcall
      rcases hx' with rfl | rfl
      · exact ⟨_, Calls.call_set_self, nofun⟩
      · exact ⟨_, Calls.call_set_self, nofun⟩
    · rcases hx' with rfl | rfl <;> exact hkeep (Calls.call_set_ne hc)

variable {acts : List CallAction}

theorem run_callsInv (hrun : Run (callStep env) Calls.init acts x) : CallsInv env x := by
  refine hrun.invariant (P := CallsInv env) ⟨nofun, fun {key r} hr => ?_, nofun⟩ fun _ _ _ => .step
  cases (show none = some r from hr)

theorem run_created {job : ReviewJob} (hrun : Run (callStep env) x acts x')
    (hcall : x.call c = some call) (hstate : call.state = .created job) :
    x'.call c = some call := by
  refine hrun.invariant (P := fun t => t.call c = some call) hcall fun t b t' ht hstep => ?_
  obtain ⟨state, hcall', hsame⟩ := callStep_call hstep ht
  rw [hcall', hsame job hstate]

/-- Every call has arrived. -/
theorem run_arrived (hrun : Run (callStep env) Calls.init acts x) (hcall : x.call c = some call) :
    .arrive c call.rawBody call.idempotencyKey ∈ acts := by
  refine hrun.invariant_trace (P := fun acts t => ∀ {c call}, t.call c = some call →
    .arrive c call.rawBody call.idempotencyKey ∈ acts) nofun ?_ hcall
  intro acts t a t' _ ih hstep c call hcall
  cases hold : t.call c with
  | some old =>
    obtain ⟨state, hcall', -⟩ := callStep_call hstep hold
    cases hcall'.symm.trans hcall
    have harrived := ih hold
    exact List.mem_append_left _ harrived
  | none =>
    refine List.mem_append_right _ (List.mem_singleton.mpr ?_)
    cases a with
    | service b =>
      rw [(callStep_service hstep).2, hold] at hcall
      cases hcall
    | arrive d rawBody key =>
      obtain ⟨-, rfl⟩ := callStep_arrive hstep
      rcases Calls.call_set hcall with ⟨rfl, rfl⟩ | ⟨-, hcall⟩
      · rfl
      · exact nomatch hold.symm.trans hcall
    | database d jobId now failure =>
      obtain ⟨rawBody, key, sub, await, hd, hx'⟩ := callStep_database hstep
      rcases hx' with rfl | rfl <;> rcases Calls.call_set hcall with ⟨rfl, -⟩ | ⟨-, hcall⟩ <;>
        first | exact nomatch hd.symm.trans hold | exact nomatch hold.symm.trans hcall

/-! ## Agreement -/

/-- No two bodies that arrive in the run have the same digest. -/
def DistinctDigests (env : Env) (acts : List CallAction) : Prop :=
  ∀ ⦃c c' rawBody rawBody' key key'⦄, .arrive c rawBody key ∈ acts → .arrive c' rawBody' key' ∈ acts →
    env.sha256 rawBody = env.sha256 rawBody' → rawBody = rawBody'

/-- What the service promises for the submissions with one key. -/
structure IdempotencyAgreement (env : Env) (key : Str) (acts : List CallAction) (x : Calls) :
    Prop where
  /-- All 202 answers name one job, and were given to one body. -/
  agree : ∀ {c c' call call' job job'}, x.call c = some call → x.call c' = some call' →
    call.idempotencyKey = some key → call'.idempotencyKey = some key →
    call.state.accepted? = some job → call'.state.accepted? = some job' →
    job.id = job'.id ∧ call.rawBody = call'.rawBody
  known : ∀ {c call job}, x.call c = some call → call.state.accepted? = some job →
    ∃ row, x.service.db.jobs.get? job.id = some row
  /-- Once the key is recorded, no other body is answered 202. -/
  conflict : ∀ {pre post t r}, acts = pre ++ post → Run (callStep env) Calls.init pre t →
    t.service.db.idempotency.get? key = some r →
    ∃ rawBody, env.sha256 rawBody = r.bodyHash ∧ ∀ c call, x.call c = some call →
      call.idempotencyKey = some key → call.rawBody ≠ rawBody → call.state.accepted? = none
  single : ∀ {c c' call call' job job'}, x.call c = some call → x.call c' = some call' →
    call.idempotencyKey = some key → call'.idempotencyKey = some key →
    call.state = .created job → call'.state = .created job' → c = c'
  /-- No step of a call writes, unless the call makes a job. -/
  unchanged : ∀ {c call pre a post t t'}, x.call c = some call →
    (∀ job, call.state ≠ .created job) → acts = pre ++ a :: post → a.call? = some c →
    Run (callStep env) Calls.init pre t → callStep env t a = some t' →
    t'.service.db = t.service.db

theorem CallState.Sound.answered {db : Tables} {key : Option Str} {bodyHash : Str} {job : ReviewJob}
    {st : CallState} (h : st.Sound db key bodyHash) (hjob : st.accepted? = some job) :
    Answered db key bodyHash job := by
  cases st with
  | created job' | reused job' =>
    cases hjob
    exact h
  | awaiting sub await | raised exc => cases hjob

theorem idempotency_agreement {key : Str} (hrun : Run (callStep env) Calls.init acts x)
    (hdigests : DistinctDigests env acts) (hkey : key ≠ []) :
    IdempotencyAgreement env key acts x := by
  have htruthy : truthyKey (some key) = some key := by
    cases key with
    | nil => exact absurd rfl hkey
    | cons a as => rfl
  have hinv := run_callsInv hrun
  have hrecord : ∀ {c call job}, x.call c = some call → call.idempotencyKey = some key →
      call.state.accepted? = some job → ∃ r, x.service.db.idempotency.get? key = some r ∧
        r.bodyHash = env.sha256 call.rawBody ∧ r.jobId = job.id := by
    intro c call job hcall hk hjob
    exact ((hinv.sound hcall).answered hjob).record key (hk ▸ htruthy)
  refine ⟨?agree, ?known, ?conflict, ?single, ?unchanged⟩
  case agree =>
    intro c c' call call' job job' hcall hcall' hk hk' hjob hjob'
    obtain ⟨r, hr, hhash, hid⟩ := hrecord hcall hk hjob
    obtain ⟨r', hr', hhash', hid'⟩ := hrecord hcall' hk' hjob'
    cases hr.symm.trans hr'
    exact ⟨hid.symm.trans hid', hdigests (run_arrived hrun hcall) (run_arrived hrun hcall')
      (hhash.symm.trans hhash')⟩
  case known =>
    intro c call job hcall hjob
    have hknown := ((hinv.sound hcall).answered hjob).known
    cases hget : x.service.db.jobs.get? job.id with
    | some row => exact ⟨row, rfl⟩
    | none => exact absurd hknown (Table.get?_eq_none_iff.mp hget)
  case conflict =>
    intro pre post t r hacts hpre hr
    obtain ⟨t₁, hpre', hrest⟩ := Run.append_iff.mp (hacts ▸ hrun)
    obtain rfl : t₁ = t := Option.some.inj (hpre'.symm.trans hpre)
    -- the call that made the record is still there
    have hinvt := run_callsInv hpre
    obtain ⟨d, first, job, hfirst, hk, hstate⟩ := hinvt.recorded hr
    have hanswered := hinvt.sound hfirst
    rw [hstate] at hanswered
    obtain ⟨r₁, hr₁, hhash, -⟩ := Answered.record hanswered key hk
    cases hr.symm.trans hr₁
    refine ⟨first.rawBody, hhash.symm, fun c call hcall hkcall hne => ?_⟩
    cases hjob : call.state.accepted? with
    | none => rfl
    | some job' =>
      have hfirst' := run_created hrest hfirst hstate
      obtain ⟨r', hr', hhash', -⟩ := hrecord hcall hkcall hjob
      have hsound := hinv.sound hfirst'
      rw [hstate] at hsound
      obtain ⟨r₂, hr₂, hhash₂, -⟩ := Answered.record hsound key hk
      cases hr'.symm.trans hr₂
      exact absurd (hdigests (run_arrived hrun hcall) (run_arrived hrun hfirst')
        (hhash'.symm.trans hhash₂)) hne
  case single =>
    intro c c' call call' job job' hcall hcall' hk hk' hstate hstate'
    exact hinv.single hcall hcall' hstate hstate' ((congrArg truthyKey hk).trans htruthy)
      ((congrArg truthyKey hk').trans htruthy)
  case unchanged =>
    intro c call pre a post t t' hcall hnot hacts ha hpre hstep
    rcases callStep_db hstep ha with hsame | ⟨call', job, hcall', hstate⟩
    · exact hsame
    · have hrest : Run (callStep env) t' post x := by
        obtain ⟨t₁, hpre', hpost⟩ := Run.append_iff.mp (hacts ▸ hrun)
        obtain rfl : t₁ = t := Option.some.inj (hpre'.symm.trans hpre)
        obtain ⟨t₂, hstep', hpost⟩ := Run.cons_iff.mp hpost
        obtain rfl : t₂ = t' := Option.some.inj (hstep'.symm.trans hstep)
        exact hpost
      cases hcall.symm.trans (run_created hrest hcall' hstate)
      exact absurd hstate (hnot job)

end Runs

/-- Two calls with one key and one body, their steps interleaved: both read the empty
tables, the first commits, the second meets its key at the commit and answers the first's
job. -/
def sampleCalls : List CallAction :=
  let key := some (lit "k")
  let call c := CallAction.database c (if c = 0 then lit "a" else lit "b") c false
  [.arrive 0 (sampleBody .mock) key, .arrive 1 (sampleBody .mock) key] ++
    [0, 1, 0, 1, 0, 1, 0, 1, 0, 1, 0, 1, 1, 1].map call

set_option maxRecDepth 20000 in
theorem sampleCalls_isSome :
    (sampleCalls.foldlM (callStep (sampleEnv none)) Calls.init).isSome = true := by decide

def sampleCallsEnd : Calls := Option.get _ sampleCalls_isSome

set_option maxRecDepth 20000 in
theorem idempotency_agreement_sample :
    IdempotencyAgreement (sampleEnv none) (lit "k") sampleCalls sampleCallsEnd ∧
      (sampleCallsEnd.call 0).bind (·.state.accepted?.map (·.id)) = some (lit "a") ∧
      (sampleCallsEnd.call 1).bind (·.state.accepted?.map (·.id)) = some (lit "a") :=
  ⟨idempotency_agreement (Run.get sampleCalls_isSome)
    (fun _ _ _ _ _ _ _ _ h => sampleSha256_injective h) (by decide), by decide, by decide⟩

end DiffReview
