import DiffReview.Service.Workers

/-!
# DiffReview — the service refines the ledger

`Effect` is what a step of the service does when its ledger and its workers are in order,
and `step_effect` the one case analysis over the actions that proves it. Each effect is a
sequence of writes and leaves the workers in order, so a run keeps both invariants
(`run_invariants`) and is a sequence of writes (`run_writes`).
-/

namespace DiffReview

open Py Raise Transition

variable {env : Env} {acts acts' : List Action} {s s' : State}

/-! ## Steps -/

inductive Effect (env : Env) (acts : List Action) (s : State) : Action → State → Prop where
  /-- A submission that makes no job, or a poll of an open entry. -/
  | still {a : Action} : Effect env acts s a s
  | insert {rawBody : List UInt8} {key : Option Str} {jobId : Str} {now : Nat}
      {sub : ParsedSubmission} {job : ReviewJob} {db' : Tables} (hup : s.up = true)
      (hparse : parseSubmission env rawBody = .ok sub)
      (hkey : (truthyKey key).bind s.db.idempotency.get? = none)
      (hinsert : insertJob s.db sub (truthyKey key) jobId now = some (job, db')) :
      Effect env acts s (.submit rawBody key jobId now) { s with db := db' }
  | claim {w : Nat} {job : ReviewJob} {worker : Worker} (hup : s.up = true)
      (hidle : s.workers w = .idle) (hlt : w < env.settings.maxConcurrentJobs)
      (hjob : s.db.jobs.get? job.id = some job) (hclaim : Claimable s.db job)
      (hworker : worker.job? = some { job with status := .running })
      (hstage : Stage env acts s.db worker) :
      Effect env acts s (.claim w job.id) { s.setWorker w worker with
        db := s.db.advance { job with status := .running } [.status .running none] }
  /-- A worker goes on with its job without a transaction. -/
  | move {a : Action} {w : Nat} {job : ReviewJob} {worker : Worker}
      (hheld : (s.workers w).job? = some job) (hworker : worker.job? = some job)
      (hstage : Stage env acts s.db worker) : Effect env acts s a (s.setWorker w worker)
  /-- A worker ends its job and lets go of it. -/
  | finish {a : Action} {w : Nat} {job job' : ReviewJob} {bodies : List EventBody} {db' : Tables}
      (hheld : (s.workers w).job? = some job) (hprogress : Progress env acts s.db db')
      (hadv : Advance job job' bodies) (hended : job'.status = .done ∨ job'.status = .failed)
      (hjobs : db'.jobs = s.db.jobs.replace job') :
      Effect env acts s a { s.setWorker w .idle with db := db' }
  | kill : Effect env acts s .kill ⟨s.db, false, fun _ => .idle⟩
  | recover {jobs : List ReviewJob} (hdown : s.up = false) (hperm : jobs.Perm (runningJobs s.db)) :
      Effect env acts s (.recover jobs)
        { s with db := recoverAbandonedJobs s.db jobs, up := true }

theorem submit_effect {rawBody : List UInt8} {key : Option Str} {jobId : Str} {now : Nat}
    (h : step env s (.submit rawBody key jobId now) = some s') :
    Effect env acts s (.submit rawBody key jobId now) s' := by
  simp only [step] at h
  split at h
  · next hup =>
    split at h
    · next job db hsub =>
      cases h
      obtain ⟨sub, hparse, rfl | ⟨hkey, hinsert⟩⟩ := submit_cases hsub
      · exact .still
      · exact .insert hup hparse hkey hinsert
    · cases h
      exact .still
  · cases h

theorem claim_effect {w : Nat} {jobId : Str} (h : step env s (.claim w jobId) = some s') :
    Effect env acts s (.claim w jobId) s' := by
  simp only [step] at h
  split at h
  · next hup =>
    unfold claim at h
    split at h
    · next job hidle hget =>
      split at h
      · next hclaim =>
        obtain rfl : job.id = jobId := Table.key_of_get? hget
        cases h
        refine .claim hup hidle hclaim.1 hget hclaim.2 ?_ ?_
        · split <;> rfl
        · split
          · next hhit => exact .waiting hhit
          · next hsource => exact .reviewing (by simpa using hsource)
      · cases h
    · cases h
  · cases h

theorem poll_effect (hledger : Ledger env acts s.db) (hhold : Holding env acts s) {w : Nat}
    (h : step env s (.poll w) = some s') : Effect env acts s (.poll w) s' := by
  simp only [step] at h
  split at h
  · next job hworker =>
    have hheld : (s.workers w).job? = some job := by rw [hworker]; rfl
    obtain ⟨hjob, hrunning, -⟩ := hhold.held hheld
    obtain ⟨entry, hentry, -⟩ := hledger.coherent.entry hjob
    obtain ⟨src, hsrc, howns⟩ := hledger.coherent.owner hentry
    have hchunks := (hledger.submitted hjob).accepted.chunks_pos
    have hhit : job.cacheHit = true := by
      have hstage := hhold.stage w
      rw [hworker] at hstage
      cases hstage with
      | waiting hhit => exact hhit
    cases h
    simp only [poll, hjob, hentry]
    by_cases hdone : entry.state = .done
    · obtain ⟨full, -, hfull, -⟩ := howns.done (howns.status_of_done hdone)
      rw [finishFromCache_done hchunks hhit hdone hfull]
      exact .finish hheld (.copy hjob hrunning hhit hentry hdone hfull) (.finish hrunning _)
        (.inl rfl) rfl
    · rw [finishFromCache_open hdone]
      by_cases hfailed : entry.state = .failed
      · rw [if_pos hfailed]
        exact .move hheld rfl (.failingHit _ hhit hentry hfailed)
      · rw [if_neg hfailed]
        exact .still
  · cases h

theorem review_effect (hhold : Holding env acts s) {w : Nat} {jobId : Str} {answers : Answers}
    (h : step env s (.review w jobId answers) = some s') :
    Effect env (acts ++ [.review w jobId answers]) s (.review w jobId answers) s' := by
  simp only [step] at h
  split at h
  · next job hworker =>
    have hheld : (s.workers w).job? = some job := by rw [hworker]; rfl
    have hsource : job.cacheHit = false := by
      have hstage := hhold.stage w
      rw [hworker] at hstage
      cases hstage with
      | reviewing hsource => exact hsource
    split at h
    · next hid =>
      subst hid
      have hreviewed : Reviewed env (acts ++ [.review w job.id answers]) job
          (reviewDiff env job.diff job.provider answers) := ⟨w, answers, by simp, rfl⟩
      split at h
      · next full hfull =>
        cases h
        exact .move hheld rfl (.storing hsource (hfull ▸ hreviewed))
      · next exc hexc =>
        cases h
        exact .move hheld rfl (.failingSource hsource (hexc ▸ hreviewed))
    · cases h
  · cases h

/-- A source job that is running has its entry open. -/
theorem Ledger.open_entry (hledger : Ledger env acts s.db) {job : ReviewJob}
    (hjob : s.db.jobs.get? job.id = some job) (hrunning : job.status = .running)
    (hsource : job.cacheHit = false) : ∃ entry, s.db.cache.get? job.requestHash = some entry ∧
      entry.sourceJobId = job.id ∧ entry.state = .running := by
  obtain ⟨entry, hentry, hdep⟩ := hledger.coherent.entry hjob
  obtain ⟨src, hsrc, howns⟩ := hledger.coherent.owner hentry
  have howner := hdep.source hsource
  rw [howner, hjob] at hsrc
  cases hsrc
  refine ⟨entry, hentry, howner, ?_⟩
  rw [howns.state, hrunning]
  rfl

theorem store_effect (hledger : Ledger env acts s.db) (hhold : Holding env acts s) {w : Nat}
    (h : step env s (.store w) = some s') : Effect env acts s (.store w) s' := by
  simp only [step] at h
  split at h
  · next job full hworker =>
    have hheld : (s.workers w).job? = some job := by rw [hworker]; rfl
    obtain ⟨hjob, hrunning, -⟩ := hhold.held hheld
    have hstage := hhold.stage w
    rw [hworker] at hstage
    cases hstage with
    | storing hsource hfull =>
      obtain ⟨entry, hentry, howner, hopen⟩ := hledger.open_entry hjob hrunning hsource
      rw [storeReview_eq hjob hentry (hledger.submitted hjob).accepted.chunks_pos] at h
      cases h
      exact .finish hheld (.store hjob hrunning hsource hentry howner hopen hfull)
        (.finish hrunning _) (.inl rfl) rfl
  · cases h

theorem fail_effect (hledger : Ledger env acts s.db) (hhold : Holding env acts s) {w : Nat}
    (h : step env s (.fail w) = some s') : Effect env acts s (.fail w) s' := by
  simp only [step] at h
  split at h
  · next job exc hworker =>
    have hheld : (s.workers w).job? = some job := by rw [hworker]; rfl
    obtain ⟨hjob, hrunning, -⟩ := hhold.held hheld
    cases h
    have hstage := hhold.stage w
    rw [hworker] at hstage
    cases hstage with
    | failingSource hsource hexc =>
      obtain ⟨entry, hentry, howner, hopen⟩ := hledger.open_entry hjob hrunning hsource
      rw [failJob_source hjob hentry howner]
      exact .finish hheld (.failSource hjob hrunning hsource hentry howner hopen hexc)
        (.fail hrunning _) (.inr rfl) rfl
    | @failingHit _ entry _ hhit hentry hfailed =>
      obtain ⟨src, hsrc, howns⟩ := hledger.coherent.owner hentry
      have howner : entry.sourceJobId ≠ job.id := fun heq => by
        rw [heq, hjob] at hsrc
        cases hsrc
        exact nomatch howns.cacheHit.symm.trans hhit
      rw [failJob_hit hjob hentry howner]
      exact .finish hheld (.failHit exc hjob hrunning hhit hentry hfailed) (.fail hrunning _)
        (.inr rfl) rfl
  · cases h

/-- What a step does in a state whose ledger and workers are in order. -/
theorem step_effect {a : Action} (hledger : Ledger env acts s.db) (hhold : Holding env acts s)
    (h : step env s a = some s') : Effect env (acts ++ [a]) s a s' := by
  have hacts : ∀ b ∈ acts, b ∈ acts ++ [a] := fun b hb => List.mem_append_left _ hb
  have hledger' := hledger.mono hacts
  have hhold' := hhold.mono hacts
  cases a with
  | submit => exact submit_effect h
  | claim => exact claim_effect h
  | poll => exact poll_effect hledger' hhold' h
  | review => exact review_effect hhold h
  | store => exact store_effect hledger' hhold' h
  | fail => exact fail_effect hledger' hhold' h
  | kill =>
    cases h
    exact .kill
  | recover jobs =>
    simp only [step] at h
    split at h
    · next hrec =>
      cases h
      simp only [Bool.and_eq_true, Bool.not_eq_true', decide_eq_true_eq] at hrec
      exact .recover hrec.1 hrec.2
    · cases h

/-! ## What every step keeps -/

theorem Effect.writes {a : Action} (h : Effect env acts s a s') : Writes env acts s.db s'.db := by
  cases h with
  | still => exact .refl
  | insert _ hparse _ hinsert => exact .single (.insert hparse (insertJob_insert env hinsert))
  | claim _ _ _ hjob hclaim => exact .single (.progress (.start hjob hclaim.1))
  | move => exact .refl
  | finish _ hprogress => exact .single (.progress hprogress)
  | kill => exact .refl
  | recover _ hperm =>
    obtain ⟨hnd, hmem⟩ := perm_runningJobs hperm
    exact Relation.ReflTransGen.mono (fun _ _ hp => .progress hp) _ _
      (recoverAbandonedJobs_progress hnd fun job hj => (hmem job).mp hj)

/-- The process start leaves no row running. -/
theorem recoverAbandonedJobs_not_running {db : Tables} {jobs : List ReviewJob}
    (hperm : jobs.Perm (runningJobs db)) {id : Str} {job : ReviewJob}
    (hget : (recoverAbandonedJobs db jobs).jobs.get? id = some job) : job.status ≠ .running := by
  obtain ⟨hnd, hmem⟩ := perm_runningJobs hperm
  rw [get?_recoverAbandonedJobs hnd (fun job hj => ((hmem job).mp hj).1) id] at hget
  obtain ⟨old, hold, heq⟩ := Option.map_eq_some_iff.mp hget
  by_cases hrunning : old ∈ jobs
  · rw [if_pos hrunning] at heq
    rw [← heq]
    nofun
  · rw [if_neg hrunning] at heq
    subst heq
    exact fun hr => hrunning ((hmem old).mpr ⟨Table.key_of_get? hold ▸ hold, hr⟩)

theorem Effect.holding {a : Action} (h : Effect env acts s a s') (hhold : Holding env acts s) :
    Holding env acts s' := by
  have hclosed : ∀ {hash entry}, s.db.cache.get? hash = some entry → entry.state ≠ .running →
      s'.db.cache.get? hash = some entry := h.writes.entry_closed
  cases h with
  | still => exact hhold
  | insert hup hparse hkey hinsert =>
    obtain ⟨jobId, hit, now, hjobs, -⟩ := (insertJob_insert env hinsert).jobs_eq
    exact hhold.submitted rfl hjobs hclosed
  | claim hup hidle hlt hjob hclaim hworker hstage =>
    have hrows := Tables.get?_advance [.status .running none] hjob
      (Advance.claim hclaim.1).same
    refine hhold.take hidle hlt hup hworker rfl (fun {j} hj => ?_) hrows hclosed
      (hstage.mono (fun _ ha => ha) hclosed)
    rw [show j = _ from Option.some.inj (hj.symm.trans hjob), hclaim.1]
    decide
  | move hheld hworker hstage =>
    exact hhold.move (hworker.trans hheld.symm) (by rw [hheld]; nofun) hstage
  | @finish _ _ _ job' _ _ hheld hprogress hadv hended hjobs =>
    obtain ⟨hjob, -, -⟩ := hhold.held hheld
    have hrows := Tables.get?_advance [] hjob hadv.same
    refine hhold.release job' hheld ?_ (fun id => ?_) hclosed
    · rcases hended with h | h <;> rw [h] <;> decide
    · rw [hjobs]
      exact hrows id
  | kill => exact ⟨fun _ _ => rfl, nofun, nofun, nofun, fun _ => .idle⟩
  | recover hdown hperm =>
    have hidle := hhold.down hdown
    refine ⟨nofun, fun {w job} hw => ?_, fun {w _ _ _} hw => ?_, fun _ {id job} hget hrunning => ?_,
      fun w => ?_⟩
    · rw [hidle] at hw
      cases hw
    · rw [hidle] at hw
      cases hw
    · exact absurd hrunning (recoverAbandonedJobs_not_running hperm hget)
    · rw [hidle]
      exact .idle

/-- The invariants of every reachable state. -/
theorem run_invariants (h : Run (step env) State.init acts s) :
    Ledger env acts s.db ∧ Holding env acts s := by
  refine h.invariant_trace (P := fun acts s => Ledger env acts s.db ∧ Holding env acts s)
    ⟨.empty env [], .init env⟩ ?_
  rintro acts t a t' - ⟨hledger, hhold⟩ ht
  have hacts : ∀ b ∈ acts, b ∈ acts ++ [a] := fun b hb => List.mem_append_left _ hb
  have heffect := step_effect hledger hhold ht
  exact ⟨heffect.writes.ledger (hledger.mono hacts), heffect.holding (hhold.mono hacts)⟩

/-- A run from a reachable state is a sequence of writes. -/
theorem run_writes {acts' : List Action} (h : Run (step env) State.init acts s)
    (h' : Run (step env) s acts' s') : Writes env (acts ++ acts') s.db s'.db := by
  refine h'.invariant_trace (P := fun acts' t => Writes env (acts ++ acts') s.db t.db) .refl ?_
  intro done t a t' hrun hwrites ht
  have hreach : Run (step env) State.init (acts ++ done) t := Run.append_iff.mpr ⟨s, h, hrun⟩
  obtain ⟨hledger, hhold⟩ := run_invariants hreach
  have hstep := (step_effect hledger hhold ht).writes
  rw [List.append_assoc] at hstep
  have hmono : ∀ b ∈ acts ++ done, b ∈ acts ++ (done ++ [a]) := by
    intro b hb
    rw [← List.append_assoc]
    exact List.mem_append_left _ hb
  exact Relation.ReflTransGen.trans
    (Relation.ReflTransGen.mono (fun _ _ hw => hw.mono hmono) _ _ hwrites) hstep

end DiffReview
