import DiffReview.Service.Calls
import DiffReview.Spec.Retries

/-!
# DiffReview — a concurrent identical retry

The `except IntegrityError` of `create_or_reuse_job` guards the `commit`, but the record of
the key is sent by the flush before the query of `append_event`. So the call that comes
second with a new key raises there, unless it looks the key up after the first call has
committed (`identical_retries_iff`).
-/

namespace DiffReview

open Py Transition

/-- One of the two calls takes all its steps before the other takes any. -/
def Serial (acts : List Bool) : Prop :=
  ∃ c before after, acts = before ++ after ∧ (∀ a ∈ before, a = c) ∧ ∀ a ∈ after, a = !c

theorem Serial.not_sublist {acts : List Bool} (h : Serial acts) (c : Bool) :
    ¬[!c, c, !c].Sublist acts := by
  obtain ⟨d, before, after, rfl, hbefore, hafter⟩ := h
  intro hsub
  obtain ⟨l₁, l₂, hl, h₁, h₂⟩ := List.sublist_append_iff.mp hsub
  have h₁ : ∀ a ∈ l₁, a = d := fun a ha => hbefore a (h₁.subset ha)
  have h₂ : ∀ a ∈ l₂, a = !d := fun a ha => hafter a (h₂.subset ha)
  -- two neighbours of the three are on one side
  rcases l₁ with _ | ⟨a, _ | ⟨b, l₁⟩⟩
  · rw [List.nil_append] at hl
    subst hl
    have hfirst := h₂ (!c) (by simp)
    have hsecond := h₂ c (by simp)
    exact Bool.not_ne_self c (hfirst.trans hsecond.symm)
  · rw [List.singleton_append, List.cons.injEq] at hl
    obtain ⟨-, rfl⟩ := hl
    have hsecond := h₂ c (by simp)
    have hthird := h₂ (!c) (by simp)
    exact Bool.not_ne_self c (hthird.trans hsecond.symm)
  · rw [List.cons_append, List.cons_append, List.cons.injEq, List.cons.injEq] at hl
    obtain ⟨rfl, rfl, -⟩ := hl
    have hfirst := h₁ (!c) (by simp)
    have hsecond := h₁ c (by simp)
    exact Bool.not_ne_self c (hfirst.trans hsecond.symm)

/-- `uuid4` gives each call an id that no job has. -/
structure FreshIds (db : Tables) (jobId : Bool → Str) : Prop where
  ne : ∀ c, jobId c ≠ jobId !c
  free : ∀ c, jobId c ∉ db.jobs.keys

/-- The key is recorded for the body, with a job that exists. -/
def KeyAnswered (db : Tables) (sub : ParsedSubmission) (key : Str) : Prop :=
  ∃ existing job, db.idempotency.get? key = some existing ∧
    existing.bodyHash = sub.rawBodyHash ∧ db.jobs.get? existing.jobId = some job

/-- Both calls return, and with the same job. -/
def BothAnswered (x : Retries) : Prop := ∃ job, ∀ c, (x.call c).accepted? = some job

theorem truthyKey_some {key : Str} (h : key ≠ []) : truthyKey (some key) = some key := by
  cases key with
  | nil => exact absurd rfl h
  | cons a key => rfl

/-! ## One step -/

section Step

variable {key : Option Str} {jobId : Bool → Str} {now : Bool → Nat} {x x' : Retries} {c : Bool}

theorem retryStep_eq_some (h : retryStep key jobId now x c = some x') :
    ∃ sub await, x.call c = .awaiting sub await ∧ await.waitsFor (x.call !c) = false ∧
      x'.db = await.write x.db ∧
      x'.call c = await.next x.db sub (truthyKey key) (jobId c) (now c) ∧
      x'.call (!c) = x.call !c := by
  unfold retryStep at h
  split at h
  · next sub await hcall =>
    split at h
    · cases h
    · next hwaits =>
      cases h
      exact ⟨sub, await, hcall, by simpa using hwaits, rfl, Function.update_self ..,
        Function.update_of_ne (by simp) ..⟩
  · cases h

/-- A call that has ended holds no key; a call that does not flush waits for none. -/
theorem Await.waitsFor_of_not_flushes {await : Await} (h : await.flushes = none) (st : CallState) :
    await.waitsFor st = false := by
  unfold Await.waitsFor
  rw [h]
  cases st <;> rfl

theorem Await.waitsFor_of_not_sent {await other : Await} {sub : ParsedSubmission}
    (h : other.sent = none) : await.waitsFor (.awaiting sub other) = false := by
  simp only [Await.waitsFor, h]
  cases await.flushes <;> rfl

theorem retryStep_of_not_waits {sub : ParsedSubmission} {await : Await}
    (hcall : x.call c = .awaiting sub await) (hwaits : await.waitsFor (x.call !c) = false) :
    retryStep key jobId now x c ≠ none := by
  simp [retryStep, hcall, hwaits]

end Step

/-- A transaction goes through when its keys are free. -/
theorem Added.exists_insert? {rows : Added} {db : Tables} (hjob : rows.job.id ∉ db.jobs.keys)
    (hentry : ∀ entry, rows.entry = some entry → db.cache.get? entry.requestHash = none)
    (hrecord : ∀ record, rows.record = some record → db.idempotency.get? record.key = none)
    (hevent : ∀ event, rows.event = some event →
      event.sequence = maxSequence db.events event.jobId + 1) :
    ∃ db', rows.insert? db = some db' := by
  have hjobs : ∃ jobs, db.jobs.insert? rows.job = some jobs :=
    ⟨_, Table.insert?_eq_some_iff.mpr ⟨Table.get?_eq_none_iff.mpr hjob, rfl⟩⟩
  have hcache : ∃ cache, insertOptional? db.cache rows.entry = some cache := by
    cases h : rows.entry with
    | none => exact ⟨_, rfl⟩
    | some entry => exact ⟨_, Table.insert?_eq_some_iff.mpr ⟨hentry entry h, rfl⟩⟩
  have hidempotency : ∃ idempotency, insertOptional? db.idempotency rows.record = some idempotency := by
    cases h : rows.record with
    | none => exact ⟨_, rfl⟩
    | some record => exact ⟨_, Table.insert?_eq_some_iff.mpr ⟨hrecord record h, rfl⟩⟩
  have hevents : ∃ events, insertEvent? db.events rows.event = some events := by
    cases h : rows.event with
    | none => exact ⟨_, rfl⟩
    | some event =>
      obtain ⟨id, sequence, body⟩ := event
      obtain rfl : sequence = maxSequence db.events id + 1 := hevent _ h
      exact ⟨_, insertEvent?_next id db.events body⟩
  obtain ⟨jobs, hjobs⟩ := hjobs
  obtain ⟨cache, hcache⟩ := hcache
  obtain ⟨idempotency, hidempotency⟩ := hidempotency
  obtain ⟨events, hevents⟩ := hevents
  exact ⟨⟨jobs, idempotency, cache, events⟩, by
    simp [Added.insert?, hjobs, hcache, hidempotency, hevents]⟩

/-! ## The race for a new key -/

section Race

variable {db : Tables} {sub : ParsedSubmission} {key : Str}

/-- The rows of the session after `if idempotency_key:`. -/
def queuedRows (sub : ParsedSubmission) (key : Str) (job : ReviewJob) : Added where
  job := job
  entry := if job.cacheHit then none else some ⟨sub.requestHash, job.id, .running, none⟩
  record := some ⟨key, sub.rawBodyHash, job.id⟩
  event := none

/-- The first event of the job. -/
def queuedEvent (db : Tables) (jobId : Str) : JobEvent :=
  ⟨jobId, maxSequence db.events jobId + 1, .status .queued none⟩

def finalRows (db : Tables) (sub : ParsedSubmission) (key : Str) (job : ReviewJob) : Added :=
  { queuedRows sub key job with event := some (queuedEvent db job.id) }

/-- Where a call can be while no call has committed; it has read the tables as they were. -/
inductive Racing (db : Tables) (sub : ParsedSubmission) (key : Str) (job : ReviewJob) : Await → Prop
  | getRecord : Racing db sub key job (.getRecord key)
  | getEntry : Racing db sub key job .getEntry
  | flushJob : Racing db sub key job (.flushJob job)
  | selectSequence : Racing db sub key job (.selectSequence (queuedRows sub key job))
  | flushEvent : Racing db sub key job (.flushEvent (finalRows db sub key job))
  | commit : Racing db sub key job (.commit (finalRows db sub key job))

/-- The record of the key has been sent. -/
def Await.HoldsKey (await : Await) (key : Str) : Prop :=
  ∃ rows record, await.sent = some rows ∧ rows.record = some record ∧ record.key = key

/-- Where a call is that has missed the record and has not sent one. -/
inductive Missed (key : Str) : Await → Prop
  | getEntry : Missed key .getEntry
  | flushJob (job : ReviewJob) : Missed key (.flushJob job)
  | selectSequence (rows : Added) (record : IdempotencyRecord) (hrecord : rows.record = some record)
      (hkey : record.key = key) : Missed key (.selectSequence rows)

theorem Racing.missed {job : ReviewJob} {await : Await} (h : Racing db sub key job await)
    (hholds : ¬await.HoldsKey key) (hget : await ≠ .getRecord key) : Missed key await := by
  cases h with
  | getRecord => exact absurd rfl hget
  | getEntry => exact .getEntry
  | flushJob => exact .flushJob job
  | selectSequence => exact .selectSequence _ _ rfl rfl
  | flushEvent => exact absurd ⟨_, _, rfl, rfl, rfl⟩ hholds
  | commit => exact absurd ⟨_, _, rfl, rfl, rfl⟩ hholds

variable {jobId : Str} {now : Nat}

/-- The job a call adds that reads the tables as they were. -/
def raceJob (db : Tables) (sub : ParsedSubmission) (jobId : Str) (now : Nat) : ReviewJob :=
  newJob sub jobId (db.cache.get? sub.requestHash).isSome now

theorem exists_insert?_queuedRows (sub : ParsedSubmission) (now : Nat)
    (hnone : db.idempotency.get? key = none)
    (hfree : jobId ∉ db.jobs.keys) (event : Option JobEvent)
    (hevent : event = none ∨ event = some (queuedEvent db jobId)) :
    ∃ db', Added.insert? { queuedRows sub key (raceJob db sub jobId now) with event := event } db
      = some db' := by
  apply Added.exists_insert? hfree
  · intro entry hentry
    cases hget : db.cache.get? sub.requestHash with
    | none =>
      have hentry : entry = ⟨sub.requestHash, jobId, .running, none⟩ := by
        simpa [queuedRows, raceJob, newJob, hget, eq_comm] using hentry
      rw [hentry]
      exact hget
    | some found => simp [queuedRows, raceJob, newJob, hget] at hentry
  · intro record hrecord
    cases hrecord
    exact hnone
  · intro e he
    rcases hevent with rfl | rfl
    · cases he
    · cases he
      rfl

/-- A step before the commit: the call goes on, and the key is only sent by the flush before the
query of `append_event`. -/
theorem Racing.next {await : Await} (hnone : db.idempotency.get? key = none)
    (hfree : jobId ∉ db.jobs.keys) (h : Racing db sub key (raceJob db sub jobId now) await) :
    (∃ await', await.next db sub (some key) jobId now = .awaiting sub await' ∧
        Racing db sub key (raceJob db sub jobId now) await' ∧ await' ≠ .getRecord key ∧
        await.write db = db ∧ (await'.HoldsKey key → await.HoldsKey key ∨
          ∃ rows, await.flushes = some rows ∧
            rows.record = some ⟨key, sub.rawBodyHash, jobId⟩)) ∨
      ∃ db', await.next db sub (some key) jobId now = .created (raceJob db sub jobId now) ∧
        await.write db = db' ∧ await.HoldsKey key ∧
        db'.idempotency.get? key = some ⟨key, sub.rawBodyHash, jobId⟩ ∧
        db'.jobs.get? jobId = some (raceJob db sub jobId now) := by
  have hnokey : ∀ {await' : Await}, await'.sent = none → ¬await'.HoldsKey key := by
    rintro await' hsent ⟨rows, record, hrows, -⟩
    rw [hsent] at hrows
    cases hrows
  cases h with
  | getRecord =>
    refine .inl ⟨.getEntry, by simp [Await.next, hnone], .getEntry, by simp, rfl, fun hholds => ?_⟩
    exact absurd hholds (hnokey rfl)
  | getEntry =>
    refine .inl ⟨.flushJob _, rfl, .flushJob, by simp, rfl, fun hholds => ?_⟩
    exact absurd hholds (hnokey rfl)
  | flushJob =>
    obtain ⟨db', hdb'⟩ : ∃ db', Added.insert? ⟨raceJob db sub jobId now, none, none, none⟩ db
        = some db' := Added.exists_insert? hfree (by simp) (by simp) (by simp)
    refine .inl ⟨.selectSequence (queuedRows sub key (raceJob db sub jobId now)), ?_,
      .selectSequence, by simp, rfl, ?_⟩
    · simp only [Await.next, flushed, hdb']
      rfl
    · rintro ⟨rows, record, hrows, hrecord, -⟩
      cases hrows
      cases hrecord
  | selectSequence =>
    obtain ⟨db', hdb'⟩ := exists_insert?_queuedRows sub now hnone hfree none (.inl rfl)
    refine .inl ⟨.flushEvent (finalRows db sub key (raceJob db sub jobId now)), ?_, .flushEvent,
      by simp, rfl, fun _ => .inr ⟨_, rfl, rfl⟩⟩
    have hdb' : (queuedRows sub key (raceJob db sub jobId now)).insert? db = some db' := hdb'
    simp only [Await.next, flushed, hdb']
    rfl
  | flushEvent =>
    obtain ⟨db', hdb'⟩ := exists_insert?_queuedRows sub now hnone hfree _ (.inr rfl)
    have hdb' : (finalRows db sub key (raceJob db sub jobId now)).insert? db = some db' := hdb'
    refine .inl ⟨.commit (finalRows db sub key (raceJob db sub jobId now)), ?_, .commit, by simp,
      rfl, fun _ => .inl ⟨_, _, rfl, rfl, rfl⟩⟩
    simp only [Await.next, flushed, hdb']
  | commit =>
    obtain ⟨db', hdb'⟩ := exists_insert?_queuedRows sub now hnone hfree _ (.inr rfl)
    have hdb' : (finalRows db sub key (raceJob db sub jobId now)).insert? db = some db' := hdb'
    refine .inr ⟨db', ?_, ?_, ⟨_, _, rfl, rfl, rfl⟩, ?_, ?_⟩
    · simp only [Await.next, hdb']
      rfl
    · simp only [Await.write, hdb']
      rfl
    · have hrecord := (Added.get?_record hdb' rfl key).2
      rw [hrecord, if_pos rfl]
      rfl
    · have hjob := Table.get?_insert? (Added.insert?_eq_some hdb').1 jobId
      exact hjob.trans (if_pos rfl)

end Race

/-! ## All interleavings -/

/-- How far the other call has come after the call `c` has committed `job`. -/
inductive Follows (sub : ParsedSubmission) (key : Str) (acts : List Bool) (c : Bool)
    (job : ReviewJob) : CallState → Prop
  /-- It has not looked the key up before the commit. -/
  | late (st : CallState) (before after : List Bool) (hacts : acts = before ++ after)
      (hbefore : ∀ a ∈ before, a = c) (hafter : ∀ a ∈ after, a = !c)
      (hst : st = .awaiting sub (.getRecord key) ∨
        st = .awaiting sub (.getJob ⟨key, sub.rawBodyHash, job.id⟩) ∨ st = .reused job) :
      Follows sub key acts c job st
  | missed (await : Await) (hacts : [!c, c].Sublist acts) (hmissed : Missed key await) :
      Follows sub key acts c job (.awaiting sub await)
  | lost (hacts : [!c, c, !c].Sublist acts) : Follows sub key acts c job (.raised .unhandled)

/-- The two calls after the steps `acts`, from tables without a record of the key. -/
inductive Phase (db : Tables) (sub : ParsedSubmission) (key : Str) (jobId : Bool → Str)
    (now : Bool → Nat) (acts : List Bool) (x : Retries) : Prop
  | racing (await : Bool → Await) (hdb : x.db = db) (hcall : ∀ c, x.call c = .awaiting sub (await c))
      (hracing : ∀ c, Racing db sub key (raceJob db sub (jobId c) (now c)) (await c))
      (hacts : ∀ c, await c = .getRecord key ↔ c ∉ acts)
      (hholds : ∀ c, (await c).HoldsKey key → ¬(await !c).HoldsKey key)
  | decided (c : Bool) (job : ReviewJob) (hcreated : x.call c = .created job)
      (hrecord : x.db.idempotency.get? key = some ⟨key, sub.rawBodyHash, job.id⟩)
      (hjob : x.db.jobs.get? job.id = some job)
      (hother : Follows sub key acts c job (x.call !c))

section Interleavings

variable {db : Tables} {sub : ParsedSubmission} {key : Str} {jobId : Bool → Str} {now : Bool → Nat}
variable {acts : List Bool} {x x' : Retries}

/-- Two rows sent for one key clash. -/
theorem Added.clashes_of_record {rows rows' : Added} {record record' : IdempotencyRecord}
    (h : rows.record = some record) (h' : rows'.record = some record')
    (hkey : record.key = record'.key) : rows.clashes rows' = true := by
  simp [Added.clashes, sharesKey, h, h', hkey]

/-- The step of the other call after the commit. -/
theorem Follows.next {c : Bool} {job : ReviewJob} {st : CallState} {await : Await}
    {sub' : ParsedSubmission} {t : Tables} (id : Str) (clock : Nat)
    (hrecord : t.idempotency.get? key = some ⟨key, sub.rawBodyHash, job.id⟩)
    (hjob : t.jobs.get? job.id = some job)
    (h : Follows sub key acts c job st) (hst : st = .awaiting sub' await) :
    await.write t = t ∧
      Follows sub key (acts ++ [!c]) c job (await.next t sub' (some key) id clock) := by
  have hafter' : ∀ {after : List Bool}, (∀ a ∈ after, a = !c) → ∀ a ∈ after ++ [!c], a = !c := by
    intro after hafter a ha
    rcases List.mem_append.mp ha with ha | ha
    · exact hafter a ha
    · exact List.mem_singleton.mp ha
  cases h with
  | late _ before after hacts hbefore hafter hlate =>
    have hacts' : acts ++ [!c] = before ++ (after ++ [!c]) := by rw [hacts, List.append_assoc]
    rcases hlate with rfl | rfl | rfl
    · cases hst
      refine ⟨rfl, .late _ before _ hacts' hbefore (hafter' hafter) (.inr (.inl ?_))⟩
      simp [Await.next, hrecord]
    · cases hst
      refine ⟨rfl, .late _ before _ hacts' hbefore (hafter' hafter) (.inr (.inr ?_))⟩
      simp [Await.next, hjob]
    · cases hst
  | missed await' hacts hmissed =>
    cases hst
    have hlost : [!c, c, !c].Sublist (acts ++ [!c]) := hacts.append (List.Sublist.refl [!c])
    have hacts' : [!c, c].Sublist (acts ++ [!c]) := hacts.trans (List.sublist_append_left _ _)
    cases hmissed with
    | getEntry => exact ⟨rfl, .missed _ hacts' (.flushJob _)⟩
    | flushJob flushedJob =>
      refine ⟨rfl, ?_⟩
      simp only [Await.next, flushed]
      split
      · exact .missed _ hacts' (.selectSequence _ _ rfl rfl)
      · exact .lost hlost
    | selectSequence rows record hrows hkey =>
      refine ⟨rfl, ?_⟩
      -- the record of the key is committed
      have hnone : rows.insert? t = none := by
        cases hinsert : rows.insert? t with
        | none => rfl
        | some t' =>
          have hfree := (Added.get?_record hinsert hrows key).1
          rw [hkey, hrecord] at hfree
          cases hfree
      simp only [Await.next, flushed, hnone]
      exact .lost hlost
  | lost => cases hst

theorem Phase.step (hkey : key ≠ []) (hnone : db.idempotency.get? key = none)
    (hfresh : FreshIds db jobId) {c : Bool} (h : Phase db sub key jobId now acts x)
    (hstep : retryStep (some key) jobId now x c = some x') :
    Phase db sub key jobId now (acts ++ [c]) x' := by
  obtain ⟨sub', await', hcall', hwaits, hdb', hnext, hother'⟩ := retryStep_eq_some hstep
  rw [truthyKey_some hkey] at hnext
  cases h with
  | racing await hdb hcall hracing hacts hholds =>
    obtain ⟨rfl, rfl⟩ : sub = sub' ∧ await c = await' := by
      simpa using (hcall c).symm.trans hcall'
    subst hdb
    rcases (hracing c).next hnone (hfresh.free c) with
      ⟨next, hawaiting, hracing', hget, hwrite, hsends⟩ |
        ⟨db', hcreated, hwrite, hholdsKey, hrecord, hjob⟩
    · have hself : Function.update await c next c = next := Function.update_self ..
      have hne : Function.update await c next (!c) = await !c := Function.update_of_ne (by simp) ..
      -- a flush that sends the key waits while the other call holds it
      have hexcl : next.HoldsKey key → ¬(await !c).HoldsKey key := by
        rintro hnextHolds ⟨rows', record', hsent, hrecord', hkey'⟩
        rcases hsends hnextHolds with hheld | ⟨rows, hflushes, hrows⟩
        · exact hholds c hheld ⟨rows', record', hsent, hrecord', hkey'⟩
        · have hclash := Added.clashes_of_record hrows hrecord' hkey'.symm
          rw [hcall !c] at hwaits
          simp only [Await.waitsFor, hflushes, hsent, hclash] at hwaits
          cases hwaits
      refine .racing (Function.update await c next) (hdb'.trans hwrite) ?_ ?_ ?_ ?_
      · intro e
        rcases Bool.eq_or_eq_not e c with rfl | rfl
        · rw [hself, hnext, hawaiting]
        · rw [hne, hother', hcall]
      · intro e
        rcases Bool.eq_or_eq_not e c with rfl | rfl
        · rw [hself]
          exact hracing'
        · rw [hne]
          exact hracing !c
      · intro e
        rcases Bool.eq_or_eq_not e c with rfl | rfl
        · rw [hself]
          simp [hget]
        · rw [hne, hacts !c]
          simp
      · intro e
        rcases Bool.eq_or_eq_not e c with rfl | rfl
        · rw [hself, hne]
          exact hexcl
        · rw [Bool.not_not, hself, hne]
          exact fun hheld hnextHolds => hexcl hnextHolds hheld
    · refine .decided c _ (hnext.trans hcreated) ?_ ?_ ?_
      · rw [hdb', hwrite]
        exact hrecord
      · rw [hdb', hwrite]
        exact hjob
      · rw [hother', hcall !c]
        by_cases hget : await (!c) = .getRecord key
        · have hbefore : ∀ a ∈ acts ++ [c], a = c := by
            intro a ha
            rcases Bool.eq_or_eq_not a c with rfl | rfl
            · rfl
            · exact absurd hget (by simpa [hacts !c] using ha)
          exact .late _ (acts ++ [c]) [] (List.append_nil _).symm hbefore (by simp)
            (.inl (by rw [hget]))
        · have hmem : (!c) ∈ acts := by
            by_contra hmem
            exact hget ((hacts !c).mpr hmem)
          have hsub : [!c, c].Sublist (acts ++ [c]) :=
            (List.singleton_sublist.mpr hmem).append (List.Sublist.refl [c])
          exact .missed _ hsub ((hracing !c).missed (hholds c hholdsKey) hget)
  | decided d job hcreated hrecord hjob hother =>
    -- the call that committed has ended, so the other one takes the step
    obtain rfl : c = !d := by
      rcases Bool.eq_or_eq_not c d with rfl | h
      · rw [hcreated] at hcall'
        cases hcall'
      · exact h
    rw [Bool.not_not] at hother'
    obtain ⟨hwrite, hfollows⟩ := hother.next (jobId !d) (now !d) hrecord hjob hcall'
    rw [hwrite] at hdb'
    exact .decided d job (hother'.trans hcreated) (hdb' ▸ hrecord) (hdb' ▸ hjob)
      (hnext ▸ hfollows)

theorem Phase.start (hkey : key ≠ []) :
    Phase db sub key jobId now [] (.start db sub (some key)) := by
  refine .racing (fun _ => .getRecord key) rfl (fun c => ?_) (fun _ => .getRecord) (by simp) ?_
  · simp only [Retries.start, truthyKey_some hkey]
  · rintro c ⟨rows, record, hsent, -⟩
    cases hsent

/-- A call waits for the other one only while that one holds the key. -/
theorem Racing.not_waits {job job' : ReviewJob} {await other : Await}
    (h : Racing db sub key job await) (h' : Racing db sub key job' other) (hid : job.id ≠ job'.id)
    (hholds : ¬other.HoldsKey key) : await.waitsFor (.awaiting sub other) = false := by
  cases h' with
  | getRecord => exact Await.waitsFor_of_not_sent rfl
  | getEntry => exact Await.waitsFor_of_not_sent rfl
  | flushJob => exact Await.waitsFor_of_not_sent rfl
  | selectSequence =>
    -- only the row of its job has been sent
    cases h <;> simp [Await.waitsFor, Await.flushes, Await.sent, Added.clashes, sharesKey,
      queuedRows, finalRows, hid]
  | flushEvent => exact absurd ⟨_, _, rfl, rfl, rfl⟩ hholds
  | commit => exact absurd ⟨_, _, rfl, rfl, rfl⟩ hholds

/-- Where no call can go on, one has created the job, and the other returns it exactly when it
took its steps afterwards. -/
theorem Phase.ended (hfresh : FreshIds db jobId) (h : Phase db sub key jobId now acts x)
    (hend : ∀ c, retryStep (some key) jobId now x c = none) : BothAnswered x ↔ Serial acts := by
  cases h with
  | racing await hdb hcall hracing hacts hholds =>
    exfalso
    obtain ⟨c, hc⟩ : ∃ c, ¬(await !c).HoldsKey key := by
      by_cases hheld : (await true).HoldsKey key
      · exact ⟨true, hholds true hheld⟩
      · exact ⟨false, hheld⟩
    have hwaits := (hracing c).not_waits (hracing !c) (hfresh.ne c) hc
    rw [← hcall !c] at hwaits
    exact retryStep_of_not_waits (hcall c) hwaits (hend c)
  | decided c job hcreated hrecord hjob hother =>
    have hgoes : ∀ {await}, x.call (!c) ≠ .awaiting sub await := by
      intro await hcall
      have hwaits : await.waitsFor (x.call !!c) = false := by
        rw [Bool.not_not, hcreated]
        rfl
      exact retryStep_of_not_waits hcall hwaits (hend !c)
    generalize hst : x.call (!c) = st at hother hgoes
    cases hother with
    | late _ before after hacts hbefore hafter hlate =>
      have hreused : st = .reused job := by
        rcases hlate with h | h | h
        · exact absurd h hgoes
        · exact absurd h hgoes
        · exact h
      refine iff_of_true ⟨job, fun e => ?_⟩ ⟨c, before, after, hacts, hbefore, hafter⟩
      rcases Bool.eq_or_eq_not e c with rfl | rfl
      · rw [hcreated]
        rfl
      · rw [hst, hreused]
        rfl
    | missed await => exact absurd rfl hgoes
    | lost hacts =>
      refine iff_of_false ?_ fun hserial => hserial.not_sublist c hacts
      rintro ⟨_, hall⟩
      have hother := hall !c
      rw [hst] at hother
      cases hother

end Interleavings

/-! ## A key that is recorded -/

/-- Where a call can be that finds the record `existing`. -/
inductive Looking (db : Tables) (sub : ParsedSubmission) (key : Str) (existing : IdempotencyRecord) :
    CallState → Prop
  | getRecord : Looking db sub key existing (.awaiting sub (.getRecord key))
  | getJob (hbody : existing.bodyHash = sub.rawBodyHash) :
      Looking db sub key existing (.awaiting sub (.getJob existing))
  | reused (job : ReviewJob) (hbody : existing.bodyHash = sub.rawBodyHash)
      (hjob : db.jobs.get? existing.jobId = some job) : Looking db sub key existing (.reused job)
  | refused (exc : Raised) (hnot : ¬KeyAnswered db sub key) : Looking db sub key existing (.raised exc)

section Recorded

variable {db : Tables} {sub : ParsedSubmission} {key : Str} {existing : IdempotencyRecord}

theorem KeyAnswered.of_record (hexisting : db.idempotency.get? key = some existing)
    (h : KeyAnswered db sub key) : existing.bodyHash = sub.rawBodyHash ∧
      ∃ job, db.jobs.get? existing.jobId = some job := by
  obtain ⟨record, job, hrecord, hbody, hjob⟩ := h
  obtain rfl : existing = record := Option.some.inj (hexisting.symm.trans hrecord)
  exact ⟨hbody, job, hjob⟩

theorem Looking.next {sub' : ParsedSubmission} {await : Await}
    (idempotencyKey : Option Str) (jobId : Str) (now : Nat)
    (hexisting : db.idempotency.get? key = some existing)
    (h : Looking db sub key existing (.awaiting sub' await)) :
    await.write db = db ∧
      Looking db sub key existing (await.next db sub' idempotencyKey jobId now) := by
  cases h with
  | getRecord =>
    refine ⟨rfl, ?_⟩
    simp only [Await.next, hexisting]
    split
    · next hbody => exact .refused _ fun h => hbody (h.of_record hexisting).1
    · next hbody => exact .getJob (not_not.mp hbody)
  | getJob hbody =>
    refine ⟨rfl, ?_⟩
    cases hjob : db.jobs.get? existing.jobId with
    | none =>
      simp only [Await.next, hjob]
      refine .refused _ fun h => ?_
      obtain ⟨-, job, hsome⟩ := h.of_record hexisting
      rw [hjob] at hsome
      cases hsome
    | some job =>
      simp only [Await.next, hjob]
      exact .reused job hbody hjob

variable {jobId : Bool → Str} {now : Bool → Nat} {acts : List Bool} {x : Retries}

/-- Reading calls leave the tables, and every interleaving of them, as they are. -/
theorem run_looking (hkey : key ≠ []) (hexisting : db.idempotency.get? key = some existing)
    (hrun : Run (retryStep (some key) jobId now) (.start db sub (some key)) acts x) :
    x.db = db ∧ ∀ c, Looking db sub key existing (x.call c) := by
  refine hrun.invariant (P := fun x => x.db = db ∧ ∀ c, Looking db sub key existing (x.call c))
    ⟨rfl, fun c => ?_⟩ ?_
  · simp only [Retries.start, truthyKey_some hkey]
    exact .getRecord
  · rintro t c t' ⟨hdb, hlooking⟩ hstep
    obtain ⟨sub', await, hcall, -, hdb', hnext, hother⟩ := retryStep_eq_some hstep
    rw [hdb] at hdb' hnext
    obtain ⟨hwrite, hlooking'⟩ := Looking.next (truthyKey (some key)) (jobId c) (now c) hexisting
      (hcall ▸ hlooking c)
    refine ⟨hdb'.trans hwrite, fun e => ?_⟩
    rcases Bool.eq_or_eq_not e c with rfl | rfl
    · rw [hnext]
      exact hlooking'
    · rw [hother]
      exact hlooking !c

theorem Looking.accepted {st : CallState} (h : Looking db sub key existing st)
    (hend : ∀ sub' await, st ≠ .awaiting sub' await) (hanswered : KeyAnswered db sub key)
    {job : ReviewJob} (hjob : db.jobs.get? existing.jobId = some job) : st.accepted? = some job := by
  cases h with
  | getRecord => exact absurd rfl (hend _ _)
  | getJob => exact absurd rfl (hend _ _)
  | reused job' _ hjob' =>
    obtain rfl : job' = job := Option.some.inj (hjob'.symm.trans hjob)
    rfl
  | refused _ hnot => exact absurd hanswered hnot

theorem Looking.of_accepted {st : CallState} (h : Looking db sub key existing st)
    (hexisting : db.idempotency.get? key = some existing) {job : ReviewJob}
    (haccepted : st.accepted? = some job) : KeyAnswered db sub key := by
  cases h with
  | getRecord => cases haccepted
  | getJob => cases haccepted
  | reused job' hbody hjob => exact ⟨existing, job', hexisting, hbody, hjob⟩
  | refused => cases haccepted

end Recorded

section Retries

variable {db : Tables} {sub : ParsedSubmission} {key : Str} {jobId : Bool → Str} {now : Bool → Nat}
variable {acts : List Bool} {x : Retries}

/-- After every interleaving of two identical calls, both have returned, and with one job, exactly
when the key was recorded for this body before, or was not recorded and the calls did not
overlap. -/
theorem identical_retries_iff (hkey : key ≠ []) (hfresh : FreshIds db jobId)
    (hrun : Run (retryStep (some key) jobId now) (.start db sub (some key)) acts x)
    (hend : ∀ c, retryStep (some key) jobId now x c = none) :
    BothAnswered x ↔ KeyAnswered db sub key ∨ db.idempotency.get? key = none ∧ Serial acts := by
  cases hexisting : db.idempotency.get? key with
  | none =>
    have hphase : Phase db sub key jobId now acts x :=
      hrun.invariant_trace (.start hkey) fun _ _ _ _ _ h hstep => h.step hkey hexisting hfresh hstep
    have hnot : ¬KeyAnswered db sub key := by
      rintro ⟨existing, job, hsome, -⟩
      rw [hexisting] at hsome
      cases hsome
    rw [hphase.ended hfresh hend]
    simp [hnot]
  | some existing =>
    obtain ⟨-, hlooking⟩ := run_looking hkey hexisting hrun
    have hended : ∀ c sub' await, x.call c ≠ .awaiting sub' await := by
      intro c sub' await hcall
      -- a call that only reads waits for nothing
      have hwaits : await.waitsFor (x.call !c) = false := by
        apply Await.waitsFor_of_not_flushes
        cases hcall ▸ hlooking c <;> rfl
      exact retryStep_of_not_waits hcall hwaits (hend c)
    constructor
    · rintro ⟨job, hall⟩
      exact .inl ((hlooking true).of_accepted hexisting (hall true))
    · rintro (hanswered | ⟨hnone, -⟩)
      · obtain ⟨-, job, hjob⟩ := hanswered.of_record hexisting
        exact ⟨job, fun c => (hlooking c).accepted (hended c) hanswered hjob⟩
      · cases hnone

end Retries

def retriedSubmission : ParsedSubmission :=
  ⟨⟨lit "--- /dev/null", .mock, 10, by decide⟩, lit "body", lit "request", 13, 1⟩

def sampleIds (c : Bool) : Str := if c then lit "b" else lit "a"

def sampleRetryStep : Retries → Bool → Option Retries :=
  retryStep (some (lit "k")) sampleIds fun _ => 0

/-- Two calls on empty tables. -/
def sampleRetry : Retries := .start .empty retriedSubmission (some (lit "k"))

theorem sampleIds_fresh : FreshIds .empty sampleIds := ⟨by decide, by decide⟩

/-- The second call starts after the first has committed. -/
def consecutive : List Bool := [false, false, false, false, false, false, true, true]

theorem consecutive_isSome : (consecutive.foldlM sampleRetryStep sampleRetry).isSome = true := by
  decide

def consecutiveEnd : Retries := Option.get _ consecutive_isSome

theorem identical_retries_iff_sample :
    (BothAnswered consecutiveEnd ↔ KeyAnswered .empty retriedSubmission (lit "k") ∨
      Tables.empty.idempotency.get? (lit "k") = none ∧ Serial consecutive) ∧
    (consecutiveEnd.call false).accepted?.map (·.id) = some (lit "a") ∧
    (consecutiveEnd.call true).accepted?.map (·.id) = some (lit "a") :=
  ⟨identical_retries_iff (by decide) sampleIds_fresh (Run.get consecutive_isSome)
    (fun c => by cases c <;> rfl), by decide, by decide⟩

/-- The second call looks the key up before the first has committed. -/
def overlapping : List Bool := [false, true, false, false, false, false, false, true, true, true]

theorem overlapping_isSome : (overlapping.foldlM sampleRetryStep sampleRetry).isSome = true := by
  decide

def overlappingEnd : Retries := Option.get _ overlapping_isSome

/-- It raises at the query of `append_event`, and no `except` answers it. -/
theorem overlapping_retry_raises :
    Run sampleRetryStep sampleRetry overlapping overlappingEnd ∧
      (∀ c, sampleRetryStep overlappingEnd c = none) ∧
      (overlappingEnd.call false).accepted?.map (·.id) = some (lit "a") ∧
      overlappingEnd.call true = .raised .unhandled ∧ ¬BothAnswered overlappingEnd := by
  refine ⟨Run.get overlapping_isSome, fun c => by cases c <;> rfl, by decide, rfl, ?_⟩
  rintro ⟨job, hall⟩
  cases hall true

end DiffReview
