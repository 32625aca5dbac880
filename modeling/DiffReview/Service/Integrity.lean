import DiffReview.Service.Idempotency

/-!
# DiffReview — the constraints of the schema

The tables of `Spec/Models.lean` enforce their primary keys only. No order of the steps of
workers and of submissions without a common lock violates one of the foreign keys of
`app/db/models.py` or its constraint `uq_job_event_sequence`, and no request hash is ever
reviewed for two jobs (`run_integrity`).
-/

namespace DiffReview

open Py Raise Transition

/-- The columns of a job that no transaction of a worker changes. -/
def ReviewJob.fixed (job : ReviewJob) : Str × Str × Bool := (job.id, job.requestHash, job.cacheHit)

def CacheEntry.fixed (entry : CacheEntry) : Str × Str := (entry.requestHash, entry.sourceJobId)

/-- The rows refer to each other as the schema and the workers expect it. -/
structure Integrity (db : Tables) : Prop where
  /-- The source of an entry is a job of its hash that is no cache hit. -/
  source : ∀ entry ∈ db.cache.rows, ∃ job ∈ db.jobs.rows,
    job.fixed = (entry.sourceJobId, entry.requestHash, false)
  /-- A job has an entry, and is its source if it is no cache hit. -/
  entry : ∀ job ∈ db.jobs.rows, ∃ entry ∈ db.cache.rows, entry.requestHash = job.requestHash ∧
    (job.cacheHit = false → entry.sourceJobId = job.id)
  record : ∀ r ∈ db.idempotency.rows, r.jobId ∈ db.jobs.keys
  event : ∀ e ∈ db.events, e.jobId ∈ db.jobs.keys
  numbered : ∀ id, Numbered db.events id

theorem Integrity.empty : Integrity Tables.empty where
  source entry h := by cases h
  entry job h := by cases h
  record r h := by cases h
  event e h := by cases h
  numbered id := rfl

/-- The constraint `uq_job_event_sequence`. -/
theorem Integrity.unique {db : Tables} (h : Integrity db) :
    (db.events.map fun e => (e.jobId, e.sequence)).Nodup := by
  -- two events of one job stand at two places of its numbered log
  have hjob : ∀ id, db.events.Pairwise fun e e' =>
      e.jobId = id → e'.jobId = id → e.sequence ≠ e'.sequence := by
    intro id
    have hnodup : ((eventsOf db.events id).map (·.sequence)).Nodup := by
      rw [h.numbered id]
      exact List.nodup_range'
    have hpairwise := List.pairwise_filter.mp (List.pairwise_map.mp hnodup)
    simpa only [decide_eq_true_eq] using hpairwise
  refine List.pairwise_map.mpr (List.pairwise_iff_getElem.mpr fun i j hi hj hij heq => ?_)
  obtain ⟨hid, hsequence⟩ := Prod.mk.injEq .. ▸ heq
  exact List.pairwise_iff_getElem.mp (hjob db.events[j].jobId) i j hi hj hij hid rfl hsequence

/-- No two jobs of one request hash are both reviewed. -/
theorem Integrity.single {db : Tables} (h : Integrity db) {job job' : ReviewJob}
    (hjob : job ∈ db.jobs.rows) (hjob' : job' ∈ db.jobs.rows)
    (hhash : job.requestHash = job'.requestHash) (hhit : job.cacheHit = false)
    (hhit' : job'.cacheHit = false) : job = job' := by
  obtain ⟨entry, hentry, hkey, hsource⟩ := h.entry job hjob
  obtain ⟨entry', hentry', hkey', hsource'⟩ := h.entry job' hjob'
  have hsame : some entry = some entry' := by
    rw [← Table.get?_of_mem hentry, ← Table.get?_of_mem hentry', hkey, hkey', hhash]
  cases hsame
  have hid : job.id = job'.id := (hsource hhit).symm.trans (hsource' hhit')
  have hrow : some job = some job' := by
    rw [← Table.get?_of_mem hjob, ← Table.get?_of_mem hjob', hid]
  exact Option.some.inj hrow

/-! ## Events -/

/-- Events of the jobs `ids` have been appended. -/
def Appended (ids : List Str) : List JobEvent → List JobEvent → Prop :=
  Relation.ReflTransGen fun events events' =>
    ∃ id ∈ ids, ∃ bodies, events' = appendEvents events id bodies

theorem Appended.jobs {ids : List Str} {events events' : List JobEvent}
    (happended : Appended ids events events') (h : ∀ e ∈ events, e.jobId ∈ ids) :
    ∀ e ∈ events', e.jobId ∈ ids := by
  induction happended with
  | refl => exact h
  | tail _ hstep ih =>
    obtain ⟨id, hid, bodies, rfl⟩ := hstep
    intro e he
    obtain ⟨added, hadded, -, hids⟩ := appendEvents_eq_append _ id bodies
    rw [hadded, List.mem_append] at he
    rcases he with he | he
    · exact ih e he
    · exact hids e he ▸ hid

theorem Appended.numbered {ids : List Str} {events events' : List JobEvent}
    (happended : Appended ids events events') (h : ∀ id, Numbered events id) (id : Str) :
    Numbered events' id := by
  induction happended with
  | refl => exact h id
  | tail _ hstep ih =>
    obtain ⟨jobId, -, bodies, rfl⟩ := hstep
    by_cases hid : id = jobId
    · subst hid
      exact ih.appendEvents bodies
    · exact (numbered_appendEvents_ne bodies hid).mpr ih

/-! ## Workers -/

/-- What a transaction of the workers leaves as it is, and the events it adds. -/
structure KeepsKeys (db db' : Tables) : Prop where
  idempotency : db'.idempotency = db.idempotency
  jobs : db'.jobs.rows.map ReviewJob.fixed = db.jobs.rows.map ReviewJob.fixed
  cache : db'.cache.rows.map CacheEntry.fixed = db.cache.rows.map CacheEntry.fixed
  events : Appended db.jobs.keys db.events db'.events

theorem KeepsKeys.refl (db : Tables) : KeepsKeys db db := ⟨rfl, rfl, rfl, .refl⟩

theorem KeepsKeys.keys {db db' : Tables} (h : KeepsKeys db db') : db'.jobs.keys = db.jobs.keys := by
  have hkeys := congrArg (List.map Prod.fst) h.jobs
  rwa [List.map_map, List.map_map] at hkeys

theorem KeepsKeys.cacheKeys {db db' : Tables} (h : KeepsKeys db db') :
    db'.cache.keys = db.cache.keys := by
  have hkeys := congrArg (List.map Prod.fst) h.cache
  rwa [List.map_map, List.map_map] at hkeys

theorem KeepsKeys.trans {db₁ db₂ db₃ : Tables} (h : KeepsKeys db₁ db₂) (h' : KeepsKeys db₂ db₃) :
    KeepsKeys db₁ db₃ where
  idempotency := h'.idempotency.trans h.idempotency
  jobs := h'.jobs.trans h.jobs
  cache := h'.cache.trans h.cache
  events := h.events.trans (h.keys ▸ h'.events)

theorem Integrity.keepsKeys {db db' : Tables} (h : Integrity db) (hkeeps : KeepsKeys db db') :
    Integrity db' where
  source entry' hentry' := by
    obtain ⟨entry, hentry, hfixed⟩ := List.mem_map.mp
      (hkeeps.cache ▸ List.mem_map_of_mem hentry' : entry'.fixed ∈ _)
    -- the entry and its source have new rows with the same keys
    obtain ⟨job, hjob, hsource⟩ := h.source entry hentry
    obtain ⟨job', hjob', hsame⟩ := List.mem_map.mp
      (hkeeps.jobs ▸ List.mem_map_of_mem hjob : job.fixed ∈ db'.jobs.rows.map ReviewJob.fixed)
    obtain ⟨hhash, hid⟩ : entry.requestHash = entry'.requestHash ∧
        entry.sourceJobId = entry'.sourceJobId := Prod.mk.injEq .. ▸ hfixed
    exact ⟨job', hjob', by rw [hsame, hsource, hhash, hid]⟩
  entry job' hjob' := by
    obtain ⟨job, hjob, hfixed⟩ := List.mem_map.mp
      (hkeeps.jobs ▸ List.mem_map_of_mem hjob' : job'.fixed ∈ _)
    obtain ⟨entry, hentry, hhash, hsource⟩ := h.entry job hjob
    obtain ⟨entry', hentry', hsame⟩ := List.mem_map.mp
      (hkeeps.cache ▸ List.mem_map_of_mem hentry :
        entry.fixed ∈ db'.cache.rows.map CacheEntry.fixed)
    simp only [ReviewJob.fixed, CacheEntry.fixed, Prod.mk.injEq] at hfixed hsame
    refine ⟨entry', hentry', by rw [hsame.1, hhash, hfixed.2.1], fun hhit => ?_⟩
    rw [hsame.2, hsource (hfixed.2.2.trans hhit), hfixed.1]
  record r hr := by
    rw [hkeeps.idempotency] at hr
    rw [hkeeps.keys]
    exact h.record r hr
  event e he := by
    rw [hkeeps.keys]
    exact hkeeps.events.jobs h.event e he
  numbered id := hkeeps.events.numbered h.numbered id

section Workers

variable {env : Env} {db db' : Tables} {job : ReviewJob}

/-- A new row for a job that is there, with its events. -/
theorem keepsKeys_replace (job : ReviewJob)
    (hjob : job.fixed ∈ db.jobs.rows.map ReviewJob.fixed) (bodies : List EventBody) :
    KeepsKeys db { db with
      jobs := db.jobs.replace job
      events := appendEvents db.events job.id bodies } := by
  obtain ⟨row, hrow, hfixed⟩ := List.mem_map.mp hjob
  have hid : row.id = job.id := congrArg Prod.fst hfixed
  have hget : db.jobs.get? job.id = some row := hid ▸ Table.get?_of_mem hrow
  refine ⟨rfl, Table.map_rows_replace fun row' hrow' => ?_, rfl,
    .single ⟨job.id, Table.mem_keys_of_get? hget, bodies, rfl⟩⟩
  cases hget.symm.trans hrow'
  exact hfixed.symm

/-- A new row for an entry. -/
theorem KeepsKeys.replaceEntry (h : KeepsKeys db db') (hcache : db'.cache = db.cache)
    {hash : Str} {entry entry' : CacheEntry} (hentry : db.cache.get? hash = some entry)
    (hfixed : entry'.fixed = entry.fixed) :
    KeepsKeys db { db' with cache := db'.cache.replace entry' } where
  idempotency := h.idempotency
  jobs := h.jobs
  events := h.events
  cache := by
    rw [hcache]
    refine Table.map_rows_replace fun row hrow => ?_
    rw [show entry'.requestHash = entry.requestHash from congrArg Prod.fst hfixed,
      show entry.requestHash = hash from Table.key_of_get? hentry, hentry] at hrow
    cases hrow
    exact hfixed

theorem fixed_of_get? {id : Str} (h : db.jobs.get? id = some job) :
    job.fixed ∈ db.jobs.rows.map ReviewJob.fixed :=
  List.mem_map_of_mem (Table.get?_eq_some_iff.mp h).1

theorem claimJob_keepsKeys {id : Str} (hjob : db.jobs.get? id = some job) :
    KeepsKeys db (claimJob db job).2 := by
  have hfixed := fixed_of_get? hjob
  exact keepsKeys_replace { job with status := .running } hfixed [.status .running none]

theorem finishJob_keepsKeys {limited : List Finding} {cacheHit : Bool} {id : Str}
    (hjob : db.jobs.get? id = some job) (h : finishJob db job limited cacheHit = .ok db') :
    KeepsKeys db db' ∧ db'.cache = db.cache := by
  obtain ⟨usage, -, h⟩ := bind_eq_ok.mp h
  cases h
  have hfixed := fixed_of_get? hjob
  exact ⟨keepsKeys_replace { job with
    findings := some (limited.map Finding.modelDump), status := .done } hfixed _, rfl⟩

theorem finishFromCache_keepsKeys {cache : CacheEntry} {id : Str}
    (hjob : db.jobs.get? id = some job) (h : finishFromCache db job cache = .ok (some db')) :
    KeepsKeys db db' := by
  unfold finishFromCache at h
  split at h
  · obtain ⟨findings, -, h⟩ := bind_eq_ok.mp h
    obtain ⟨finished, hfinished, h⟩ := bind_eq_ok.mp h
    cases h
    exact (finishJob_keepsKeys hjob hfinished).1
  · cases h

theorem storeReview_keepsKeys {orderedFull : List Finding}
    (h : storeReview db job orderedFull = .ok db') : KeepsKeys db db' := by
  unfold storeReview at h
  split at h
  · next current cache hcurrent hcache =>
    obtain ⟨finished, hfinished, h⟩ := bind_eq_ok.mp h
    cases h
    obtain ⟨hkeeps, hsame⟩ := finishJob_keepsKeys hcurrent hfinished
    exact hkeeps.replaceEntry hsame hcache rfl
  · cases h

theorem failJob_keepsKeys {exc : PyError} : KeepsKeys db (failJob env db job exc) := by
  unfold failJob
  extract_lets message failed
  have hfailed : KeepsKeys db failed ∧ failed.cache = db.cache := by
    subst failed
    split
    · exact ⟨.refl db, rfl⟩
    · next current hcurrent =>
      have hfixed := fixed_of_get? hcurrent
      exact ⟨keepsKeys_replace { current with
        status := .failed, errorCode := some (lit "internal"), errorMessage := some message }
        hfixed [.status .failed (some message)], rfl⟩
  split
  · next cache hcache =>
    split
    · exact hfailed.1.replaceEntry hfailed.2 hcache rfl
    · exact hfailed.1
  · exact hfailed.1

theorem poll_keepsKeys {s : State} {w : Nat} : KeepsKeys s.db (poll s w job).db := by
  unfold poll
  split
  · next current cache hcurrent hcache =>
    split
    · exact .refl _
    · next hfinish => exact finishFromCache_keepsKeys hcurrent hfinish
    · split <;> exact .refl _
  · exact .refl _

theorem recoverAbandonedJobs_keepsKeys {jobs : List ReviewJob}
    (hjobs : ∀ job ∈ jobs, job.fixed ∈ db.jobs.rows.map ReviewJob.fixed) :
    KeepsKeys db (recoverAbandonedJobs db jobs) := by
  induction jobs generalizing db with
  | nil => exact .refl db
  | cons job jobs ih =>
    obtain ⟨hjob, hjobs⟩ := List.forall_mem_cons.mp hjobs
    have hkeeps : KeepsKeys db (requeueJob db job) :=
      keepsKeys_replace { job with status := .queued } hjob [.status .queued none]
    exact hkeeps.trans <| ih fun job' hjob' => hkeeps.jobs.symm ▸ hjobs job' hjob'

theorem step_keepsKeys {s s' : State} {a : Action} (hstep : step env s a = some s')
    (ha : ∀ rawBody key jobId now, a ≠ .submit rawBody key jobId now) : KeepsKeys s.db s'.db := by
  cases a with
  | submit rawBody key jobId now => exact absurd rfl (ha rawBody key jobId now)
  | claim w jobId =>
    simp only [step, claim] at hstep
    split at hstep
    · split at hstep
      · next hjob =>
        split at hstep
        · cases hstep
          exact claimJob_keepsKeys hjob
        · cases hstep
      · cases hstep
    · cases hstep
  | poll w =>
    simp only [step] at hstep
    split at hstep
    · cases hstep
      exact poll_keepsKeys
    · cases hstep
  | review w jobId answers =>
    simp only [step] at hstep
    split at hstep
    · split at hstep
      · split at hstep <;> cases hstep <;> exact .refl _
      · cases hstep
    · cases hstep
  | store w =>
    simp only [step] at hstep
    split at hstep
    · split at hstep
      · next hstore =>
        cases hstep
        exact storeReview_keepsKeys hstore
      · cases hstep
        exact .refl _
    · cases hstep
  | fail w =>
    simp only [step] at hstep
    split at hstep
    · cases hstep
      exact failJob_keepsKeys
    · cases hstep
  | kill =>
    cases hstep
    exact .refl _
  | recover jobs =>
    simp only [step] at hstep
    split at hstep
    · next hguard =>
      cases hstep
      simp only [Bool.and_eq_true, decide_eq_true_eq] at hguard
      refine recoverAbandonedJobs_keepsKeys fun job hjob => ?_
      exact List.mem_map_of_mem (List.mem_of_mem_filter (hguard.2.mem_iff.mp hjob))
    · cases hstep

end Workers

/-! ## Submissions -/

/-- The rows a call has added belong together; its job is a cache hit only if the hash has an
entry. -/
structure Added.Linked (db : Tables) (hash : Str) (event : Option JobEvent) (rows : Added) :
    Prop where
  requestHash : rows.job.requestHash = hash
  hit : rows.job.cacheHit = true → hash ∈ db.cache.keys
  entry : rows.entry =
    if rows.job.cacheHit then none else some ⟨hash, rows.job.id, .running, none⟩
  record : ∀ r ∈ rows.record, r.jobId = rows.job.id
  event : rows.event = event

/-- The first event of a job. -/
def ReviewJob.queuedEvent (job : ReviewJob) : JobEvent := ⟨job.id, 1, .status .queued none⟩

def Await.Linked (db : Tables) (hash : Str) : Await → Prop
  | .flushJob job => job.requestHash = hash ∧ (job.cacheHit = true → hash ∈ db.cache.keys)
  | .selectSequence rows => rows.Linked db hash none
  | .flushEvent rows | .commit rows => rows.Linked db hash (some rows.job.queuedEvent)
  | _ => True

def CallState.Linked (db : Tables) : CallState → Prop
  | .awaiting sub await => await.Linked db sub.requestHash
  | _ => True

section Submissions

variable {db db' : Tables}

theorem CallState.Linked.mono (hcache : ∀ hash ∈ db.cache.keys, hash ∈ db'.cache.keys)
    {st : CallState} (h : st.Linked db) : st.Linked db' := by
  have hrows : ∀ {hash event} {rows : Added}, rows.Linked db hash event →
      rows.Linked db' hash event := fun h =>
    ⟨h.requestHash, fun hhit => hcache _ (h.hit hhit), h.entry, h.record, h.event⟩
  cases st with
  | awaiting sub await =>
    cases await with
    | flushJob job => exact ⟨h.1, fun hhit => hcache _ (h.2 hhit)⟩
    | selectSequence rows => exact hrows h
    | flushEvent rows => exact hrows h
    | commit rows => exact hrows h
    | _ => trivial
  | _ => trivial

/-- All the tables of an insertion. -/
theorem Added.insert?_tables {rows : Added} (h : rows.insert? db = some db') :
    db.jobs.insert? rows.job = some db'.jobs ∧
      insertOptional? db.cache rows.entry = some db'.cache ∧
      insertOptional? db.idempotency rows.record = some db'.idempotency ∧
      insertEvent? db.events rows.event = some db'.events := by
  unfold Added.insert? at h
  obtain ⟨jobs, hjobs, h⟩ := Option.bind_eq_some_iff.mp h
  obtain ⟨cache, hcache, h⟩ := Option.bind_eq_some_iff.mp h
  obtain ⟨idempotency, hidempotency, h⟩ := Option.bind_eq_some_iff.mp h
  obtain ⟨events, hevents, h⟩ := Option.bind_eq_some_iff.mp h
  cases h
  exact ⟨hjobs, hcache, hidempotency, hevents⟩

/-- A job that is not there has no events. -/
theorem Integrity.no_events (h : Integrity db) {id : Str} (hid : db.jobs.get? id = none) :
    eventsOf db.events id = [] := by
  refine List.filter_eq_nil_iff.mpr fun e he hsame => ?_
  rw [decide_eq_true_eq] at hsame
  exact Table.get?_eq_none_iff.mp hid (hsame ▸ h.event e he)

/-- The first event of a job meets no other. -/
theorem insertEvent?_queued (h : Integrity db) {job : ReviewJob} (hid : db.jobs.get? job.id = none)
    {events : List JobEvent} (hinsert : insertEvent? db.events (some job.queuedEvent) = some events) :
    events = appendEvents db.events job.id [.status .queued none] := by
  have hmax : maxSequence db.events job.id = 0 := by rw [maxSequence, h.no_events hid]; rfl
  have hnext := insertEvent?_next job.id db.events (.status .queued none)
  rw [hmax] at hnext
  exact Option.some.inj (hinsert.symm.trans hnext)

theorem rows_insertOptional? {κ ρ : Type} {key : ρ → κ} [DecidableEq κ] {t t' : Table key}
    {r : Option ρ} (h : insertOptional? t r = some t') : t'.rows = t.rows ++ r.toList := by
  cases r with
  | none =>
    cases h
    simp
  | some r => exact Table.rows_insert? h

/-- The rows of a call that commits refer to each other and to what is there. -/
theorem Integrity.insert (h : Integrity db) {hash : Str} {rows : Added}
    (hrows : rows.Linked db hash (some rows.job.queuedEvent)) (hinsert : rows.insert? db = some db') :
    Integrity db' := by
  obtain ⟨hjobs, hcache, hidempotency, hevents⟩ := Added.insert?_tables hinsert
  have hjobrows := Table.rows_insert? hjobs
  have hcacherows := rows_insertOptional? hcache
  have hrecords := rows_insertOptional? hidempotency
  have hkeys := Table.keys_insert? hjobs
  have hevents : Appended db'.jobs.keys db.events db'.events :=
    .single ⟨rows.job.id, hkeys ▸ List.mem_append_right _ (List.mem_singleton_self _), _,
      insertEvent?_queued h (Table.get?_of_insert? hjobs) (hrows.event ▸ hevents)⟩
  have hnew : rows.job ∈ db'.jobs.rows := hjobrows ▸ List.mem_append_right _ (List.mem_singleton_self _)
  -- an entry that was there has the source and the jobs it had
  have hkept : ∀ entry ∈ db.cache.rows, entry ∈ db'.cache.rows := fun entry hentry =>
    hcacherows ▸ List.mem_append_left _ hentry
  refine ⟨fun entry hentry => ?source, fun job hjob => ?entry, fun r hr => ?record,
    fun e he => ?event, fun id => ?numbered⟩
  case source =>
    rw [hcacherows, List.mem_append] at hentry
    rcases hentry with hentry | hentry
    · obtain ⟨job, hjob, hfixed⟩ := h.source entry hentry
      exact ⟨job, hjobrows ▸ List.mem_append_left _ hjob, hfixed⟩
    · rw [hrows.entry] at hentry
      split at hentry
      · cases hentry
      · next hhit =>
        rw [Option.toList_some, List.mem_singleton] at hentry
        subst hentry
        exact ⟨rows.job, hnew, by simp [ReviewJob.fixed, hrows.requestHash, hhit]⟩
  case entry =>
    rw [hjobrows, List.mem_append, List.mem_singleton] at hjob
    rcases hjob with hjob | rfl
    · obtain ⟨entry, hentry, hrest⟩ := h.entry job hjob
      exact ⟨entry, hkept entry hentry, hrest⟩
    · -- a hit has found an entry, any other job brings its own
      cases hhit : rows.job.cacheHit with
      | true =>
        obtain ⟨entry, hentry, hkey⟩ := List.mem_map.mp (hrows.hit hhit)
        exact ⟨entry, hkept entry hentry, hkey.trans hrows.requestHash.symm, nofun⟩
      | false =>
        refine ⟨⟨hash, rows.job.id, .running, none⟩, ?_, hrows.requestHash.symm, fun _ => rfl⟩
        rw [hcacherows, hrows.entry, hhit]
        exact List.mem_append_right _ (List.mem_singleton_self _)
  case record =>
    rw [hkeys]
    rw [hrecords, List.mem_append, Option.mem_toList] at hr
    rcases hr with hr | hr
    · exact List.mem_append_left _ (h.record r hr)
    · rw [hrows.record r hr]
      exact List.mem_append_right _ (List.mem_singleton_self _)
  case event =>
    exact hevents.jobs (fun e he => hkeys ▸ List.mem_append_left _ (h.event e he)) e he
  case numbered => exact hevents.numbered h.numbered id

theorem Await.write_integrity (h : Integrity db) {hash : Str} {await : Await}
    (hlinked : await.Linked db hash) : Integrity (await.write db) := by
  cases await with
  | commit rows =>
    cases hinsert : rows.insert? db with
    | some db' =>
      rw [Await.write, hinsert]
      exact h.insert hlinked hinsert
    | none =>
      rw [Await.write, hinsert]
      exact h
  | _ => exact h

theorem Await.write_cache (await : Await) : ∀ hash ∈ db.cache.keys, hash ∈ (await.write db).cache.keys := by
  intro hash hhash
  cases await with
  | commit rows =>
    cases hinsert : rows.insert? db with
    | some db' =>
      rw [Await.write, hinsert]
      have hrows := rows_insertOptional? (Added.insert?_tables hinsert).2.1
      rw [Option.getD_some, Table.keys, hrows, List.map_append]
      exact List.mem_append_left _ hhash
    | none =>
      rw [Await.write, hinsert]
      exact hhash
  | _ => exact hhash

theorem flushed_linked {rows : Added} {next : CallState}
    (h : ∀ db', rows.insert? db = some db' → next.Linked db) : (flushed db rows next).Linked db := by
  unfold flushed
  split
  · next hinsert => exact h _ hinsert
  · trivial

/-- One step of a call links what it adds to what the tables hold. -/
theorem Await.next_linked (h : Integrity db) {sub : ParsedSubmission} {key : Option Str}
    {jobId : Str} {now : Nat} {await : Await} (hlinked : await.Linked db sub.requestHash) :
    (await.next db sub key jobId now).Linked db := by
  cases await with
  | getEntry =>
    refine ⟨rfl, fun hhit => ?_⟩
    obtain ⟨entry, hentry⟩ := Option.isSome_iff_exists.mp (show _ = true from hhit)
    exact Table.mem_keys_of_get? hentry
  | flushJob job =>
    refine flushed_linked fun _ _ => ⟨hlinked.1, hlinked.2, rfl, fun r hr => ?_, rfl⟩
    obtain ⟨k, -, rfl⟩ := Option.map_eq_some_iff.mp hr
    rfl
  | selectSequence rows =>
    refine flushed_linked fun db' hinsert => ?_
    -- the job is new, so its event is the first
    have hfree := Table.get?_of_insert? (Added.insert?_tables hinsert).1
    have hmax : maxSequence db.events rows.job.id = 0 := by
      rw [maxSequence, h.no_events hfree]
      rfl
    refine ⟨hlinked.requestHash, hlinked.hit, hlinked.entry, hlinked.record, ?_⟩
    rw [hmax]
    rfl
  | flushEvent rows => exact flushed_linked fun _ _ => hlinked
  | _ =>
    simp only [Await.next]
    repeat' split
    all_goals trivial

end Submissions

/-- The tables of any interleaving of calls with the steps of the workers. -/
structure CallsLinked (x : Calls) : Prop where
  integrity : Integrity x.service.db
  linked : ∀ {c call}, x.call c = some call → call.state.Linked x.service.db

section Runs

variable {env : Env} {x x' : Calls} {a : CallAction} {acts : List CallAction}

/-- A step of the service is one of its own steps, and no submission. -/
theorem callStep_step {b : Action} (h : callStep env x (.service b) = some x') :
    ∃ s, step env x.service b = some s ∧ x' = { x with service := s } ∧
      ∀ rawBody key jobId now, b ≠ .submit rawBody key jobId now := by
  cases b with
  | submit rawBody key jobId now => cases h
  | _ =>
    simp only [callStep] at h
    obtain ⟨s, hs, rfl⟩ := Option.map_eq_some_iff.mp h
    exact ⟨s, hs, rfl, by simp⟩

theorem callStep_linked (h : CallsLinked x) (hstep : callStep env x a = some x') :
    CallsLinked x' := by
  cases a with
  | service b =>
    obtain ⟨s, hs, rfl, hb⟩ := callStep_step hstep
    have hkeeps := step_keepsKeys hs hb
    exact ⟨h.integrity.keepsKeys hkeeps, fun hfound =>
      (h.linked hfound).mono fun _ hhash => hkeeps.cacheKeys ▸ hhash⟩
  | arrive c rawBody key =>
    obtain ⟨-, rfl⟩ := callStep_arrive hstep
    refine ⟨h.integrity, fun {c' call} hfound => ?_⟩
    rcases Calls.call_set hfound with ⟨-, rfl⟩ | ⟨-, hfound⟩
    · simp only [CallState.arrived]
      repeat' split
      all_goals trivial
    · exact h.linked hfound
  | database c jobId now failure =>
    obtain ⟨rawBody, key, sub, await, hcall, hx'⟩ := callStep_database hstep
    rcases hx' with rfl | rfl
    · refine ⟨h.integrity, fun {c' call} hfound => ?_⟩
      rcases Calls.call_set hfound with ⟨-, rfl⟩ | ⟨-, hfound⟩
      · trivial
      · exact h.linked hfound
    · have hlinked := h.linked hcall
      refine ⟨Await.write_integrity h.integrity hlinked, fun {c' call} hfound => ?_⟩
      rcases Calls.call_set hfound with ⟨-, rfl⟩ | ⟨-, hfound⟩
      · exact (Await.next_linked h.integrity hlinked).mono await.write_cache
      · exact (h.linked hfound).mono await.write_cache

/-- In any interleaving of the database steps of calls and of the workers, with kills and failed
statements: the foreign keys hold, no two events of a job have one sequence, and of the jobs of
one request hash only one is no cache hit. -/
theorem run_integrity (hrun : Run (callStep env) Calls.init acts x) :
    Integrity x.service.db ∧
      (x.service.db.events.map fun e => (e.jobId, e.sequence)).Nodup ∧
      ∀ job ∈ x.service.db.jobs.rows, ∀ job' ∈ x.service.db.jobs.rows,
        job.requestHash = job'.requestHash → job.cacheHit = false → job'.cacheHit = false →
        job = job' := by
  have hlinked : CallsLinked x :=
    hrun.invariant (P := CallsLinked) ⟨.empty, fun h => by cases h⟩ fun _ _ _ => callStep_linked
  exact ⟨hlinked.integrity, hlinked.integrity.unique,
    fun job hjob job' hjob' => hlinked.integrity.single hjob hjob'⟩

end Runs

theorem run_integrity_sample :
    Integrity sampleCallsEnd.service.db ∧
      (sampleCallsEnd.service.db.events.map fun e => (e.jobId, e.sequence)).Nodup ∧
      ∀ job ∈ sampleCallsEnd.service.db.jobs.rows, ∀ job' ∈ sampleCallsEnd.service.db.jobs.rows,
        job.requestHash = job'.requestHash → job.cacheHit = false → job'.cacheHit = false →
        job = job' :=
  run_integrity (Run.get sampleCalls_isSome)

end DiffReview
