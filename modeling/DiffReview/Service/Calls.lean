import DiffReview.Service.Transactions
import DiffReview.Spec.Calls

/-!
# DiffReview — one submission among others

Records are written once and never change; what a call has learnt from them stays true
while others take their steps (`CallState.Sound`). A call that runs alone is
`createOrReuseJob` (`call_alone`).
-/

namespace DiffReview

open Py Raise Transition

/-! ## What stays in the tables -/

/-- Every record and every job of `db` is in `db'`, the record as it was. -/
structure Keeps (db db' : Tables) : Prop where
  record : ∀ {key r}, db.idempotency.get? key = some r → db'.idempotency.get? key = some r
  job : ∀ {id}, id ∈ db.jobs.keys → id ∈ db'.jobs.keys

/-- The transactions of the workers add no job and no record. -/
structure SameIds (db db' : Tables) : Prop where
  idempotency : db'.idempotency = db.idempotency
  jobs : db'.jobs.keys = db.jobs.keys

theorem SameIds.keeps {db db' : Tables} (h : SameIds db db') : Keeps db db' :=
  ⟨fun hr => h.idempotency ▸ hr, fun hid => h.jobs ▸ hid⟩

theorem SameIds.refl (db : Tables) : SameIds db db := ⟨rfl, rfl⟩

section Workers

variable {env : Env} {db db' : Tables} {job : ReviewJob}

theorem claimJob_sameIds : SameIds db (claimJob db job).2 := ⟨rfl, Table.keys_replace _ _⟩

theorem finishJob_sameIds {limited : List Finding} {cacheHit : Bool}
    (h : finishJob db job limited cacheHit = .ok db') : SameIds db db' := by
  obtain ⟨usage, -, h⟩ := bind_eq_ok.mp h
  cases h
  exact ⟨rfl, Table.keys_replace _ _⟩

theorem finishFromCache_sameIds {cache : CacheEntry}
    (h : finishFromCache db job cache = .ok (some db')) : SameIds db db' := by
  unfold finishFromCache at h
  split at h
  · obtain ⟨findings, -, h⟩ := bind_eq_ok.mp h
    obtain ⟨finished, hfinished, h⟩ := bind_eq_ok.mp h
    cases h
    exact finishJob_sameIds hfinished
  · cases h

theorem storeReview_sameIds {orderedFull : List Finding}
    (h : storeReview db job orderedFull = .ok db') : SameIds db db' := by
  unfold storeReview at h
  split at h
  · obtain ⟨finished, hfinished, h⟩ := bind_eq_ok.mp h
    cases h
    have hsame := finishJob_sameIds hfinished
    exact ⟨hsame.idempotency, hsame.jobs⟩
  · cases h

theorem failJob_sameIds {exc : PyError} : SameIds db (failJob env db job exc) := by
  unfold failJob
  split <;> split <;> try split
  all_goals exact ⟨rfl, by simp⟩

theorem recoverAbandonedJobs_sameIds {jobs : List ReviewJob} :
    SameIds db (recoverAbandonedJobs db jobs) := by
  induction jobs generalizing db with
  | nil => exact .refl db
  | cons job jobs ih =>
    have hrest : SameIds (requeueJob db job) (recoverAbandonedJobs (requeueJob db job) jobs) := ih
    exact ⟨hrest.idempotency, hrest.jobs.trans (Table.keys_replace _ _)⟩

theorem poll_sameIds {s : State} {w : Nat} : SameIds s.db (poll s w job).db := by
  unfold poll
  split
  · split
    · exact .refl _
    · next hfinish => exact finishFromCache_sameIds hfinish
    · split <;> exact .refl _
  · exact .refl _

theorem step_sameIds {s s' : State} {a : Action} (h : step env s a = some s')
    (ha : ∀ rawBody key jobId now, a ≠ .submit rawBody key jobId now) : SameIds s.db s'.db := by
  cases a with
  | submit rawBody key jobId now => exact absurd rfl (ha rawBody key jobId now)
  | claim w jobId =>
    simp only [step, claim] at h
    split at h
    · split at h
      · split at h
        · cases h
          exact claimJob_sameIds
        · cases h
      · cases h
    · cases h
  | poll w =>
    simp only [step] at h
    split at h
    · cases h
      exact poll_sameIds
    · cases h
  | review w jobId answers =>
    simp only [step] at h
    split at h
    · split at h
      · split at h <;> cases h <;> exact .refl _
      · cases h
    · cases h
  | store w =>
    simp only [step] at h
    split at h
    · split at h
      · next hstore =>
        cases h
        exact storeReview_sameIds hstore
      · cases h
        exact .refl _
    · cases h
  | fail w =>
    simp only [step] at h
    split at h
    · cases h
      exact failJob_sameIds
    · cases h
  | kill =>
    cases h
    exact .refl _
  | recover jobs =>
    simp only [step] at h
    split at h
    · cases h
      exact recoverAbandonedJobs_sameIds
    · cases h

end Workers

/-! ## The insertion -/

@[simp] theorem insertOptional?_none {κ ρ : Type} {key : ρ → κ} [DecidableEq κ] (t : Table key) :
    insertOptional? t none = some t := rfl

@[simp] theorem insertEvent?_none (events : List JobEvent) : insertEvent? events none = some events :=
  rfl

/-- The rows of a committed transaction are all there, under keys that were free. -/
theorem Added.insert?_eq_some {rows : Added} {db db' : Tables} (h : rows.insert? db = some db') :
    db.jobs.insert? rows.job = some db'.jobs ∧
      insertOptional? db.idempotency rows.record = some db'.idempotency := by
  unfold Added.insert? at h
  obtain ⟨jobs, hjobs, h⟩ := Option.bind_eq_some_iff.mp h
  obtain ⟨cache, -, h⟩ := Option.bind_eq_some_iff.mp h
  obtain ⟨idempotency, hidempotency, h⟩ := Option.bind_eq_some_iff.mp h
  obtain ⟨events, -, h⟩ := Option.bind_eq_some_iff.mp h
  cases h
  exact ⟨hjobs, hidempotency⟩

section Insertion

variable {rows : Added} {db db' : Tables} (h : rows.insert? db = some db')
include h

theorem Added.job_known : rows.job.id ∈ db'.jobs.keys := by
  rw [Table.keys_insert? (Added.insert?_eq_some h).1]
  exact List.mem_append_right _ (List.mem_singleton_self _)

theorem Added.get?_record {r : IdempotencyRecord} (hrecord : rows.record = some r) (key : Str) :
    db.idempotency.get? r.key = none ∧
      db'.idempotency.get? key = if key = r.key then some r else db.idempotency.get? key := by
  have hinsert := (Added.insert?_eq_some h).2
  rw [hrecord] at hinsert
  exact ⟨Table.get?_of_insert? hinsert, Table.get?_insert? hinsert key⟩

theorem Added.keeps : Keeps db db' := by
  obtain ⟨hjobs, hidempotency⟩ := Added.insert?_eq_some h
  refine ⟨fun {key r} hr => ?_, fun {id} hid => ?_⟩
  · cases hrecord : rows.record with
    | none =>
      rw [hrecord, insertOptional?_none] at hidempotency
      rw [← Option.some.inj hidempotency]
      exact hr
    | some r' =>
      rw [hrecord] at hidempotency
      exact Table.get?_insert?_of_get? hidempotency hr
  · rw [Table.keys_insert? hjobs]
    exact List.mem_append_left _ hid

end Insertion

/-! ## What a call knows -/

/-- The record of the key of a submission, with its body. -/
def Recorded (db : Tables) (key : Option Str) (bodyHash : Str) (r : IdempotencyRecord) : Prop :=
  ∃ k, key = some k ∧ db.idempotency.get? k = some r ∧ r.bodyHash = bodyHash

/-- A 202 with `job`: the job exists and the record of the key, if there is one, names it. -/
structure Answered (db : Tables) (key : Option Str) (bodyHash : Str) (job : ReviewJob) : Prop where
  known : job.id ∈ db.jobs.keys
  record : ∀ k, key = some k →
    ∃ r, db.idempotency.get? k = some r ∧ r.bodyHash = bodyHash ∧ r.jobId = job.id

def Added.KeyedBy (rows : Added) (key : Option Str) (bodyHash : Str) : Prop :=
  rows.record = key.map fun k => ⟨k, bodyHash, rows.job.id⟩

def Await.Sound (db : Tables) (key : Option Str) (bodyHash : Str) : Await → Prop
  | .getRecord k | .getRecordAgain k => key = some k
  | .getJob existing | .getJobAgain existing => Recorded db key bodyHash existing
  | .getEntry | .flushJob _ => True
  | .selectSequence rows | .flushEvent rows | .commit rows => rows.KeyedBy key bodyHash

def CallState.Sound (db : Tables) (key : Option Str) (bodyHash : Str) : CallState → Prop
  | .awaiting sub await => sub.rawBodyHash = bodyHash ∧ await.Sound db key bodyHash
  | .created job | .reused job => Answered db key bodyHash job
  | .raised _ => True

section Sound

variable {env : Env} {db db' : Tables} {key : Option Str} {bodyHash : Str}

theorem Recorded.mono (hkeeps : Keeps db db') {r : IdempotencyRecord}
    (h : Recorded db key bodyHash r) : Recorded db' key bodyHash r := by
  obtain ⟨k, hk, hr, hhash⟩ := h
  exact ⟨k, hk, hkeeps.record hr, hhash⟩

theorem CallState.Sound.mono (hkeeps : Keeps db db') {st : CallState}
    (h : st.Sound db key bodyHash) : st.Sound db' key bodyHash := by
  have hanswered : ∀ {job}, Answered db key bodyHash job → Answered db' key bodyHash job := by
    intro job h
    refine ⟨hkeeps.job h.known, fun k hk => ?_⟩
    obtain ⟨r, hr, hrest⟩ := h.record k hk
    exact ⟨r, hkeeps.record hr, hrest⟩
  cases st with
  | awaiting sub await =>
    refine ⟨h.1, ?_⟩
    cases await with
    | getJob existing => exact Recorded.mono hkeeps h.2
    | getJobAgain existing => exact Recorded.mono hkeeps h.2
    | _ => exact h.2
  | created job => exact hanswered h
  | reused job => exact hanswered h
  | raised exc => trivial

theorem CallState.arrived_sound {rawBody : List UInt8} {idempotencyKey : Option Str} :
    (CallState.arrived env rawBody idempotencyKey).Sound db (truthyKey idempotencyKey)
      (env.sha256 rawBody) := by
  unfold CallState.arrived
  cases hparse : parseSubmission env rawBody with
  | error exc => trivial
  | ok sub =>
    have hhash := (parseSubmission_eq_ok hparse).1
    cases hkey : truthyKey idempotencyKey with
    | some k => exact ⟨hhash, rfl⟩
    | none => exact ⟨hhash, trivial⟩

theorem flushed_sound {rows : Added} {next : CallState} (h : next.Sound db key bodyHash) :
    (flushed db rows next).Sound db key bodyHash := by
  unfold flushed
  split
  · exact h
  · trivial

/-- The job of a record is there, so a call that finds the record answers with it. -/
theorem Recorded.answered {r : IdempotencyRecord} {job : ReviewJob}
    (h : Recorded db key bodyHash r) (hjob : db.jobs.get? r.jobId = some job) :
    Answered db key bodyHash job := by
  obtain ⟨k, hk, hr, hhash⟩ := h
  have hid : job.id = r.jobId := Table.key_of_get? hjob
  refine ⟨hid ▸ Table.mem_keys_of_get? hjob, fun k' hk' => ⟨r, ?_, hhash, hid.symm⟩⟩
  cases hk.symm.trans hk'
  exact hr

theorem Added.answered {rows : Added} (hrows : rows.KeyedBy key bodyHash)
    (h : rows.insert? db = some db') : Answered db' key bodyHash rows.job := by
  refine ⟨Added.job_known h, fun k hk => ?_⟩
  rw [Added.KeyedBy, hk, Option.map_some] at hrows
  refine ⟨⟨k, bodyHash, rows.job.id⟩, ?_, rfl, rfl⟩
  rw [(Added.get?_record h hrows k).2, if_pos rfl]

/-- One step of a call keeps what it knows, in the tables the step leaves. -/
theorem Await.next_sound {sub : ParsedSubmission} {await : Await} {jobId : Str} {now : Nat}
    (hhash : sub.rawBodyHash = bodyHash) (h : await.Sound db key bodyHash) :
    (await.next db sub key jobId now).Sound (await.write db) key bodyHash := by
  subst hhash
  cases await with
  | getRecord k =>
    simp only [Await.next, Await.write]
    split
    · exact ⟨rfl, trivial⟩
    · next existing hexisting =>
      split
      · trivial
      · next hbody => exact ⟨rfl, k, h, hexisting, not_not.mp hbody⟩
  | getJob existing =>
    simp only [Await.next, Await.write]
    split
    · trivial
    · next job hjob => exact h.answered hjob
  | getEntry => exact ⟨rfl, trivial⟩
  | flushJob job => exact flushed_sound ⟨rfl, rfl⟩
  | selectSequence rows => exact flushed_sound ⟨rfl, h⟩
  | flushEvent rows => exact flushed_sound ⟨rfl, h⟩
  | commit rows =>
    simp only [Await.next, Await.write]
    split
    · next db' hinsert =>
      rw [hinsert]
      exact Added.answered h hinsert
    · split
      · exact ⟨rfl, rfl⟩
      · trivial
  | getRecordAgain k =>
    simp only [Await.next, Await.write]
    split
    · trivial
    · next existing hexisting =>
      split
      · next hbody => exact ⟨rfl, k, h, hexisting, hbody⟩
      · trivial
  | getJobAgain existing =>
    simp only [Await.next, Await.write]
    split
    · trivial
    · next job hjob => exact h.answered hjob

theorem Await.write_keeps (await : Await) : Keeps db (await.write db) := by
  cases await with
  | commit rows =>
    cases hinsert : rows.insert? db with
    | some db' =>
      rw [Await.write, hinsert]
      exact Added.keeps hinsert
    | none =>
      rw [Await.write, hinsert]
      exact ⟨id, id⟩
  | _ => exact ⟨id, id⟩

/-- Only a commit makes a job, -/
theorem Await.commit_of_created {sub : ParsedSubmission} {await : Await} {jobId : Str} {now : Nat}
    {job : ReviewJob} (h : await.next db sub key jobId now = .created job) :
    ∃ rows, await = .commit rows ∧ rows.insert? db = some (await.write db) := by
  have hflushed : ∀ {rows next}, flushed db rows (.awaiting sub next) ≠ .created job := by
    intro rows next
    unfold flushed
    split <;> nofun
  cases await with
  | commit rows =>
    cases hinsert : rows.insert? db with
    | some db' => exact ⟨rows, rfl, by rw [Await.write, hinsert, Option.getD_some]⟩
    | none =>
      simp only [Await.next, hinsert] at h
      split at h <;> cases h
  | getEntry => cases h
  | flushJob job => exact absurd h hflushed
  | selectSequence rows => exact absurd h hflushed
  | flushEvent rows => exact absurd h hflushed
  | getRecord k =>
    simp only [Await.next] at h
    split at h
    · cases h
    · split at h <;> cases h
  | getJob existing =>
    simp only [Await.next] at h
    split at h <;> cases h
  | getRecordAgain k =>
    simp only [Await.next] at h
    split at h
    · cases h
    · split at h <;> cases h
  | getJobAgain existing =>
    simp only [Await.next] at h
    split at h <;> cases h

/-- and only the making of a job writes. -/
theorem Await.write_eq (sub : ParsedSubmission) (await : Await) (key : Option Str) (jobId : Str)
    (now : Nat) : await.write db = db ∨ ∃ rows, await = .commit rows ∧
      rows.insert? db = some (await.write db) ∧
      await.next db sub key jobId now = .created rows.job := by
  cases await with
  | commit rows =>
    cases hinsert : rows.insert? db with
    | some db' =>
      exact .inr ⟨rows, rfl, by simp [Await.write, hinsert], by simp [Await.next, hinsert]⟩
    | none => exact .inl (by simp [Await.write, hinsert])
  | _ => exact .inl rfl

/-- A new record is that of the key of the call that makes a job with the step. -/
theorem Await.write_record {sub : ParsedSubmission} {await : Await} {jobId : Str} {now : Nat}
    (h : await.Sound db key bodyHash) {k : Str} {r : IdempotencyRecord}
    (hr : (await.write db).idempotency.get? k = some r) : db.idempotency.get? k = some r ∨
      key = some k ∧ ∃ job, await.next db sub key jobId now = .created job := by
  rcases await.write_eq sub key jobId now with hsame | ⟨rows, rfl, hinsert, hnext⟩
  · rw [hsame] at hr
    exact .inl hr
  · cases hkey : key with
    | none =>
      have hrecord : rows.record = none := by rw [show rows.record = _ from h, hkey, Option.map_none]
      have hidempotency := (Added.insert?_eq_some hinsert).2
      rw [hrecord, insertOptional?_none] at hidempotency
      rw [← Option.some.inj hidempotency] at hr
      exact .inl hr
    | some k' =>
      have hrecord : rows.record = some ⟨k', bodyHash, rows.job.id⟩ := by
        rw [show rows.record = _ from h, hkey, Option.map_some]
      rw [(Added.get?_record hinsert hrecord k).2] at hr
      split at hr
      · next hk => exact .inr ⟨hk ▸ rfl, rows.job, hkey ▸ hnext⟩
      · exact .inl hr

theorem Await.created_fresh {sub : ParsedSubmission} {await : Await} {jobId : Str} {now : Nat}
    (h : await.Sound db key bodyHash) {job : ReviewJob} {k : Str}
    (hnext : await.next db sub key jobId now = .created job) (hkey : key = some k) :
    db.idempotency.get? k = none := by
  obtain ⟨rows, rfl, hinsert⟩ := Await.commit_of_created hnext
  have hrecord : rows.record = some ⟨k, bodyHash, rows.job.id⟩ := by
    rw [show rows.record = _ from h, hkey, Option.map_some]
  exact (Added.get?_record hinsert hrecord k).1

end Sound

/-! ## Steps -/

section Steps

variable {env : Env} {x x' : Calls} {c : Nat} {call : Call}

/-- The call a step belongs to. -/
def CallAction.call? : CallAction → Option Nat
  | .service _ => none
  | .arrive c _ _ => some c
  | .database c _ _ _ => some c

theorem callStep_service {b : Action} (h : callStep env x (.service b) = some x') :
    SameIds x.service.db x'.service.db ∧ x'.call = x.call := by
  by_cases hb : ∃ rawBody key jobId now, b = .submit rawBody key jobId now
  · obtain ⟨rawBody, key, jobId, now, rfl⟩ := hb
    cases h
  · have hstep : callStep env x (.service b) =
        (step env x.service b).map fun s => { x with service := s } := by
      cases b with
      | submit rawBody key jobId now => exact absurd ⟨rawBody, key, jobId, now, rfl⟩ hb
      | _ => rfl
    rw [hstep] at h
    obtain ⟨s, hs, rfl⟩ := Option.map_eq_some_iff.mp h
    exact ⟨step_sameIds hs fun rawBody key jobId now heq => hb ⟨rawBody, key, jobId, now, heq⟩, rfl⟩

theorem callStep_arrive {rawBody : List UInt8} {key : Option Str}
    (h : callStep env x (.arrive c rawBody key) = some x') :
    x.call c = none ∧ x' = x.set c ⟨rawBody, key, .arrived env rawBody key⟩ := by
  simp only [callStep] at h
  split at h
  · next hnone => exact ⟨hnone, (Option.some.inj h).symm⟩
  · cases h

theorem callStep_database {jobId : Str} {now : Nat} {failure : Bool}
    (h : callStep env x (.database c jobId now failure) = some x') :
    ∃ rawBody key sub await, x.call c = some ⟨rawBody, key, .awaiting sub await⟩ ∧
      (x' = x.set c ⟨rawBody, key, .raised .unhandled⟩ ∨
        x' = Calls.set { x with service := { x.service with db := await.write x.service.db } } c
          ⟨rawBody, key, await.next x.service.db sub (truthyKey key) jobId now⟩) := by
  simp only [callStep] at h
  split at h
  · next rawBody key sub await hcall =>
    refine ⟨rawBody, key, sub, await, hcall, ?_⟩
    split at h
    · exact .inl (Option.some.inj h).symm
    · exact .inr (Option.some.inj h).symm
  · cases h

theorem Calls.call_set_self : (x.set c call).call c = some call := Function.update_self ..

theorem Calls.call_set_ne {c' : Nat} (h : c' ≠ c) : (x.set c call).call c' = x.call c' :=
  Function.update_of_ne h ..

theorem Calls.call_set {c' : Nat} {found : Call} (h : (x.set c call).call c' = some found) :
    c' = c ∧ found = call ∨ c' ≠ c ∧ x.call c' = some found := by
  by_cases hc : c' = c
  · subst hc
    exact .inl ⟨rfl, Option.some.inj (h.symm.trans Calls.call_set_self)⟩
  · exact .inr ⟨hc, (Calls.call_set_ne hc).symm.trans h⟩

end Steps

/-! ## A call that runs alone -/

/-- The call state and the tables after up to `n` database steps of one call, with no step
of another between them and no failure. -/
def CallState.alone (key : Option Str) (jobId : Str) (now : Nat) :
    Nat → Tables → CallState → CallState × Tables
  | n + 1, db, .awaiting sub await =>
    alone key jobId now n (await.write db) (await.next db sub key jobId now)
  | _, db, st => (st, db)

/-- The end of a call is the result of `create_or_reuse_job` on the tables `db`. -/
def EndsAs (db : Tables) (result : Except Raised (ReviewJob × Tables)) (last : CallState × Tables) :
    Prop :=
  match result with
  | .ok (job, db') => last.1.accepted? = some job ∧ last.2 = db'
  | .error exc => last = (.raised exc, db)

section Alone

variable {env : Env} {db : Tables} {sub : ParsedSubmission} {key : Option Str} {jobId : Str} {now : Nat}

theorem le_maxSequence {events : List JobEvent} {e : JobEvent} (he : e ∈ eventsOf events jobId) :
    e.sequence ≤ maxSequence events jobId := by
  have hfold : ∀ (l : List Nat) (m : Nat), m ≤ l.foldl max m ∧ ∀ k ∈ l, k ≤ l.foldl max m := by
    intro l
    induction l with
    | nil => exact fun m => ⟨le_rfl, by simp⟩
    | cons a l ih =>
      intro m
      obtain ⟨hm, hl⟩ := ih (max m a)
      refine ⟨(le_max_left m a).trans hm, fun k hk => ?_⟩
      rcases List.mem_cons.mp hk with rfl | hk
      · exact (le_max_right m k).trans hm
      · exact hl k hk
  exact (hfold _ 0).2 _ (List.mem_map_of_mem he)

theorem insertEvent?_next (jobId : Str) (events : List JobEvent) (body : EventBody) :
    insertEvent? events (some ⟨jobId, maxSequence events jobId + 1, body⟩)
      = some (appendEvent events jobId body) := by
  have hfree : events.any (fun e => e.jobId = jobId && e.sequence = maxSequence events jobId + 1)
      = false := by
    rw [List.any_eq_false]
    intro e he hsame
    simp only [Bool.and_eq_true, decide_eq_true_eq] at hsame
    have hle := le_maxSequence (List.mem_filter.mpr ⟨he, decide_eq_true hsame.1⟩)
    omega
  rw [insertEvent?]
  simp only [hfree]
  rfl

/-- The rows of a transaction, and what inserting all of them gives. -/
theorem insertEntry_eq (jobId : Str) (db : Tables) (hash : Str) :
    ∃ cache, insertEntry db hash jobId = some cache ∧
    insertOptional? db.cache (if (db.cache.get? hash).isSome then none
      else some ⟨hash, jobId, .running, none⟩) = some cache := by
  unfold insertEntry
  cases hget : db.cache.get? hash with
  | none => exact ⟨_, Table.insert?_eq_some_iff.mpr ⟨hget, rfl⟩, Table.insert?_eq_some_iff.mpr ⟨hget, rfl⟩⟩
  | some entry => exact ⟨_, rfl, rfl⟩

theorem insertRecord_eq (jobId : Str) (hfree : key.bind db.idempotency.get? = none) (bodyHash : Str) :
    ∃ idempotency, insertRecord db key bodyHash jobId = some idempotency ∧
      insertOptional? db.idempotency (key.map fun k => ⟨k, bodyHash, jobId⟩) = some idempotency := by
  cases key with
  | none => exact ⟨_, rfl, rfl⟩
  | some k => exact ⟨_, Table.insert?_eq_some_iff.mpr ⟨hfree, rfl⟩,
      Table.insert?_eq_some_iff.mpr ⟨hfree, rfl⟩⟩

/-- From the look at the cache on, a call that runs alone inserts its job, or raises what the
first flush raises. -/
theorem alone_getEntry (hfree : key.bind db.idempotency.get? = none) :
    EndsAs db
      (match insertJob db sub key jobId now with
        | some result => .ok result
        | none => .error .unhandled)
      ((CallState.awaiting sub .getEntry).alone key jobId now 5 db) := by
  obtain ⟨cache, hentry, hcache⟩ := insertEntry_eq jobId db sub.requestHash
  obtain ⟨idempotency, hrecord, hidempotency⟩ := insertRecord_eq jobId hfree sub.rawBodyHash
  have hevent := insertEvent?_next jobId db.events (.status .queued none)
  obtain ⟨job, hjob⟩ :
      ∃ job, newJob sub jobId (db.cache.get? sub.requestHash).isSome now = job := ⟨_, rfl⟩
  have hid : job.id = jobId := hjob ▸ rfl
  have hhit : job.cacheHit = (db.cache.get? sub.requestHash).isSome := hjob ▸ rfl
  cases hjobs : db.jobs.insert? job with
  | none =>
    simp [CallState.alone, Await.next, Await.write, flushed, Added.insert?, insertJob, EndsAs, hjob,
      hjobs]
  | some jobs =>
    simp [CallState.alone, Await.next, Await.write, flushed, Added.insert?, insertJob, EndsAs, hjob,
      hjobs, hid, hhit, hcache, hentry, hrecord, hidempotency, hevent, CallState.accepted?]

/-- A call that runs alone is `create_or_reuse_job`. -/
theorem alone_endsAs {rawBody : List UInt8} {idempotencyKey : Option Str}
    (hparse : parseSubmission env rawBody = .ok sub) :
    ∃ n, EndsAs db (createOrReuseJob db sub idempotencyKey jobId now)
      ((CallState.arrived env rawBody idempotencyKey).alone (truthyKey idempotencyKey) jobId now n
        db) := by
  unfold CallState.arrived createOrReuseJob
  rw [hparse]
  cases hkey : truthyKey idempotencyKey with
  | none => exact ⟨5, alone_getEntry (show Option.bind none db.idempotency.get? = none from rfl)⟩
  | some k =>
    simp only [Option.bind_some]
    cases hrecord : db.idempotency.get? k with
    | none =>
      have hstep : (CallState.awaiting sub (.getRecord k)).alone (some k) jobId now 6 db
          = (CallState.awaiting sub .getEntry).alone (some k) jobId now 5 db := by
        simp [CallState.alone, Await.next, Await.write, hrecord]
      exact ⟨6, hstep ▸ alone_getEntry hrecord⟩
    | some existing =>
      refine ⟨2, ?_⟩
      by_cases hbody : existing.bodyHash = sub.rawBodyHash
      · cases hjob : db.jobs.get? existing.jobId with
        | none => simp [CallState.alone, Await.next, Await.write, EndsAs, hrecord, hbody, hjob]
        | some job =>
          simp [CallState.alone, Await.next, Await.write, EndsAs, hrecord, hbody, hjob,
            CallState.accepted?]
      · simp [CallState.alone, Await.next, Await.write, EndsAs, hrecord, hbody]

/-- The steps of a call that runs alone are a run. -/
theorem run_alone {x : Calls} {c : Nat} {rawBody : List UInt8} (n : Nat) {st : CallState}
    (hcall : x.call c = some ⟨rawBody, key, st⟩) : ∃ m x',
    Run (callStep env) x (List.replicate m (.database c jobId now false)) x' ∧
      x'.call c = some ⟨rawBody, key, (st.alone (truthyKey key) jobId now n x.service.db).1⟩ ∧
      x'.service.db = (st.alone (truthyKey key) jobId now n x.service.db).2 := by
  induction n generalizing x st with
  | zero => exact ⟨0, x, .nil, hcall, rfl⟩
  | succ n ih =>
    cases st with
    | awaiting sub await =>
      obtain ⟨x₁, hx₁, hcall₁, hdb₁⟩ : ∃ x₁,
          callStep env x (.database c jobId now false) = some x₁ ∧ x₁.call c = some ⟨rawBody, key,
            await.next x.service.db sub (truthyKey key) jobId now⟩ ∧
          x₁.service.db = await.write x.service.db := by
        refine ⟨_, by simp only [callStep, hcall]; rfl, Calls.call_set_self, rfl⟩
      obtain ⟨m, x', hrun, hcall', hdb'⟩ := ih hcall₁
      rw [hdb₁] at hcall' hdb'
      exact ⟨m + 1, x', Run.cons_iff.mpr ⟨x₁, hx₁, hrun⟩, hcall', hdb'⟩
    | created job => exact ⟨0, x, .nil, hcall, rfl⟩
    | reused job => exact ⟨0, x, .nil, hcall, rfl⟩
    | raised exc => exact ⟨0, x, .nil, hcall, rfl⟩

/-- A call that arrives and takes its steps alone answers as `createOrReuseJob` does, and leaves
its tables. -/
theorem call_alone {x : Calls} {c : Nat} {rawBody : List UInt8} (hnone : x.call c = none)
    (hparse : parseSubmission env rawBody = .ok sub) : ∃ m x' st,
    Run (callStep env) x
        (.arrive c rawBody key :: List.replicate m (.database c jobId now false)) x' ∧
      x'.call c = some ⟨rawBody, key, st⟩ ∧
      EndsAs x.service.db (createOrReuseJob x.service.db sub key jobId now)
        (st, x'.service.db) := by
  have harrive : callStep env x (.arrive c rawBody key)
      = some (x.set c ⟨rawBody, key, .arrived env rawBody key⟩) := by
    simp only [callStep, hnone]
  obtain ⟨n, hends⟩ : ∃ n, EndsAs x.service.db (createOrReuseJob x.service.db sub key jobId now)
      ((CallState.arrived env rawBody key).alone (truthyKey key) jobId now n x.service.db) :=
    alone_endsAs hparse
  have hcall₁ : (x.set c ⟨rawBody, key, .arrived env rawBody key⟩).call c
      = some ⟨rawBody, key, .arrived env rawBody key⟩ := Calls.call_set_self
  obtain ⟨m, x', hrun, hcall, hdb⟩ := run_alone n hcall₁
  refine ⟨m, x', _, Run.cons_iff.mpr ⟨_, harrive, hrun⟩, hcall, ?_⟩
  rw [hdb]
  exact hends

end Alone

end DiffReview
