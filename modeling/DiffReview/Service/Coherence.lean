import DiffReview.Service.Ledger

/-!
# DiffReview — what the ledger keeps

The invariants of the tables that every write keeps: each job's log has the form of its
row (`Logged`), each row came from an accepted submission (`Submitted`), and each request
hash has one entry, owned by one source job on which all its other jobs depend
(`Coherent`).
-/

namespace DiffReview

open Py

/-! ## Reading the rows after a write -/

theorem Tables.get?_advance {db : Tables} {job job' : ReviewJob} (bodies : List EventBody)
    (hjob : db.jobs.get? job.id = some job) (hsame : SameJob job job') (id : Str) :
    (db.advance job' bodies).jobs.get? id
      = if id = job.id then some job' else db.jobs.get? id := by
  rw [← hsame.id]
  exact Table.get?_replace (hsame.id ▸ Table.mem_keys_of_get? hjob) id

/-! ## Logs -/

structure Logged (db : Tables) : Prop where
  numbered : ∀ {id job}, db.jobs.get? id = some job → Numbered db.events id
  log : ∀ {id job}, db.jobs.get? id = some job → JobLog job (logOf db.events id)
  known : ∀ {id}, db.jobs.get? id = none → eventsOf db.events id = []

theorem Logged.empty : Logged Tables.empty := ⟨nofun, nofun, fun _ => rfl⟩

section Preserved

variable {env : Env} {acts : List Action} {db db' : Tables}

theorem Write.logged (h : Write env acts db db') (hlog : Logged db) : Logged db' := by
  rcases h.jobs_cases with ⟨raw, sub, jobId, hit, now, -, hjobs, hevents⟩
    | ⟨job, job', bodies, hjob, hadv, hjobs, hevents⟩
  · have hnil : eventsOf db.events jobId = [] := hlog.known (Table.get?_of_insert? hjobs)
    have hnum : Numbered db.events jobId := by
      rw [Numbered, hnil]
      rfl
    have hget' : ∀ id, db'.jobs.get? id
        = if id = jobId then some (newJob sub jobId hit now) else db.jobs.get? id :=
      Table.get?_insert? hjobs
    refine ⟨fun {id job} hget => ?_, fun {id job} hget => ?_, fun {id} hget => ?_⟩ <;>
      rw [hget'] at hget <;> rw [hevents]
    · by_cases hid : id = jobId
      · subst hid
        exact hnum.appendEvents _
      · rw [if_neg hid] at hget
        exact (numbered_appendEvents_ne _ hid).mpr (hlog.numbered hget)
    · by_cases hid : id = jobId
      · subst hid
        rw [if_pos rfl] at hget
        cases hget
        rw [logOf_appendEvents_self, logOf, hnil]
        exact .created rfl rfl
      · rw [if_neg hid] at hget
        rw [logOf_appendEvents_ne _ hid]
        exact hlog.log hget
    · by_cases hid : id = jobId
      · rw [if_pos hid] at hget
        cases hget
      · rw [if_neg hid] at hget
        rw [eventsOf_appendEvents_ne _ hid]
        exact hlog.known hget
  · have hid' : job'.id = job.id := hadv.same.id
    have hget' : ∀ id, db'.jobs.get? id = if id = job.id then some job' else db.jobs.get? id := by
      intro id
      rw [hjobs]
      exact Tables.get?_advance bodies hjob hadv.same id
    refine ⟨fun {id j} hget => ?_, fun {id j} hget => ?_, fun {id} hget => ?_⟩ <;>
      rw [hget'] at hget <;> rw [hevents, hid']
    · by_cases hid : id = job.id
      · subst hid
        exact (hlog.numbered hjob).appendEvents _
      · rw [if_neg hid] at hget
        exact (numbered_appendEvents_ne _ hid).mpr (hlog.numbered hget)
    · by_cases hid : id = job.id
      · subst hid
        rw [if_pos rfl] at hget
        cases hget
        rw [logOf_appendEvents_self]
        exact (hlog.log hjob).advance hadv
      · rw [if_neg hid] at hget
        rw [logOf_appendEvents_ne _ hid]
        exact hlog.log hget
    · by_cases hid : id = job.id
      · rw [if_pos hid] at hget
        cases hget
      · rw [if_neg hid] at hget
        rw [eventsOf_appendEvents_ne _ hid]
        exact hlog.known hget

/-! ## Submissions -/

/-- The row is the one `create_or_reuse_job` made for an accepted body, advanced. -/
def Submitted (env : Env) (job : ReviewJob) : Prop :=
  ∃ rawBody sub, parseSubmission env rawBody = .ok sub ∧
    SameJob (newJob sub job.id job.cacheHit job.createdAt) job

theorem Write.submitted (h : Write env acts db db')
    (hsub : ∀ {id job}, db.jobs.get? id = some job → Submitted env job) {id : Str} {job : ReviewJob}
    (hget : db'.jobs.get? id = some job) : Submitted env job := by
  rcases h.jobs_cases with ⟨raw, sub, jobId, hit, now, hacc, hjobs, -⟩
    | ⟨j, j', bodies, hjob, hadv, hjobs, -⟩
  · rw [Table.get?_insert? hjobs] at hget
    split at hget
    · cases hget
      exact ⟨raw, sub, hacc, ⟨rfl, rfl, rfl, rfl, rfl, rfl, rfl, rfl, rfl⟩⟩
    · exact hsub hget
  · have hget' := Tables.get?_advance bodies hjob hadv.same id
    rw [hjobs] at hget
    rw [show (db.advance j' bodies).jobs = db.jobs.replace j' from rfl, hget] at hget'
    split at hget'
    · cases hget'
      obtain ⟨raw, sub, hacc, hfields⟩ := hsub hjob
      have hs := hadv.same
      refine ⟨raw, sub, hacc, ⟨rfl, ?_, ?_, ?_, ?_, ?_, ?_, rfl, rfl⟩⟩
      · exact hs.diff.trans hfields.diff
      · exact hs.provider.trans hfields.provider
      · exact hs.maxFindings.trans hfields.maxFindings
      · exact hs.requestHash.trans hfields.requestHash
      · exact hs.inputBytes.trans hfields.inputBytes
      · exact hs.chunks.trans hfields.chunks
    · exact hsub hget'.symm

end Preserved

/-! ## Owners and dependents -/

/-- The state of the entry whose source has this status. -/
def cacheStateOf : JobStatusValue → CacheState
  | .queued => .running
  | .running => .running
  | .done => .done
  | .failed => .failed

/-- `src` is the job whose review fills the entry. -/
structure Owns (env : Env) (acts : List Action) (entry : CacheEntry) (src : ReviewJob) : Prop where
  requestHash : src.requestHash = entry.requestHash
  cacheHit : src.cacheHit = false
  state : entry.state = cacheStateOf src.status
  done : src.status = .done → ∃ full, Reviewed env acts src (.ok full) ∧
    entry.findings = some (full.map Finding.modelDump) ∧
    src.findings = some ((full.take src.maxFindings).map Finding.modelDump)
  failed : src.status = .failed → ∃ exc, Reviewed env acts src (.error exc) ∧
    src.errorMessage = some (errorMessage env exc)

/-- How a job of the request hash hangs on its entry. -/
structure Depends (db : Tables) (entry : CacheEntry) (job : ReviewJob) : Prop where
  source : job.cacheHit = false → entry.sourceJobId = job.id
  before : job.cacheHit = true → db.jobs.Before entry.sourceJobId job.id
  done : job.cacheHit = true → job.status = .done → entry.state = .done ∧
    ∃ full, entry.findings = some (full.map Finding.modelDump) ∧
      job.findings = some ((orderedFindings full job.maxFindings).map Finding.modelDump)
  failed : job.cacheHit = true → job.status = .failed → entry.state = .failed

structure Coherent (env : Env) (acts : List Action) (db : Tables) : Prop where
  owner : ∀ {hash entry}, db.cache.get? hash = some entry →
    ∃ src, db.jobs.get? entry.sourceJobId = some src ∧ Owns env acts entry src
  entry : ∀ {id job}, db.jobs.get? id = some job →
    ∃ entry, db.cache.get? job.requestHash = some entry ∧ Depends db entry job

theorem Coherent.empty (env : Env) (acts : List Action) : Coherent env acts Tables.empty :=
  ⟨nofun, nofun⟩

theorem Owns.mono {env : Env} {acts acts' : List Action} {entry : CacheEntry} {src : ReviewJob}
    (hacts : ∀ a ∈ acts, a ∈ acts') (h : Owns env acts entry src) : Owns env acts' entry src where
  requestHash := h.requestHash
  cacheHit := h.cacheHit
  state := h.state
  done hdone := by
    obtain ⟨full, hrev, hrest⟩ := h.done hdone
    exact ⟨full, hrev.mono hacts, hrest⟩
  failed hfailed := by
    obtain ⟨exc, hrev, hrest⟩ := h.failed hfailed
    exact ⟨exc, hrev.mono hacts, hrest⟩

theorem Owns.status_of_done {env : Env} {acts : List Action} {entry : CacheEntry} {src : ReviewJob}
    (h : Owns env acts entry src) (hdone : entry.state = .done) : src.status = .done := by
  have hstate := h.state
  rw [hdone] at hstate
  cases hstatus : src.status <;> rw [hstatus] at hstate <;> first | rfl | cases hstate

theorem Owns.status_of_failed {env : Env} {acts : List Action} {entry : CacheEntry} {src : ReviewJob}
    (h : Owns env acts entry src) (hfailed : entry.state = .failed) : src.status = .failed := by
  have hstate := h.state
  rw [hfailed] at hstate
  cases hstatus : src.status <;> rw [hstatus] at hstate <;> first | rfl | cases hstate

theorem Coherent.mono {env : Env} {acts acts' : List Action} {db : Tables}
    (hacts : ∀ a ∈ acts, a ∈ acts') (h : Coherent env acts db) : Coherent env acts' db where
  owner hentry := by
    obtain ⟨src, hsrc, howns⟩ := h.owner hentry
    exact ⟨src, hsrc, howns.mono hacts⟩
  entry := h.entry

section Coherent

variable {env : Env} {acts : List Action} {db : Tables}

theorem Coherent.create (hcoh : Coherent env acts db) {sub : ParsedSubmission} {jobId : Str}
    {now : Nat} {jobs : Table ReviewJob.id} {cache : Table CacheEntry.requestHash}
    {idempotency : Table IdempotencyRecord.key} {events : List JobEvent}
    (hjobs : db.jobs.insert? (newJob sub jobId false now) = some jobs)
    (hcache : db.cache.insert? ⟨sub.requestHash, jobId, .running, none⟩ = some cache) :
    Coherent env acts ⟨jobs, idempotency, cache, events⟩ where
  owner {hash entry} hentry := by
    rw [Table.get?_insert? hcache] at hentry
    split at hentry
    · cases hentry
      refine ⟨newJob sub jobId false now, ?_, ⟨rfl, rfl, rfl, fun h => ?_, fun h => ?_⟩⟩
      · exact (Table.get?_insert? hjobs _).trans (if_pos rfl)
      -- the new entry is open
      · cases h
      · cases h
    · obtain ⟨src, hsrc, howns⟩ := hcoh.owner hentry
      exact ⟨src, Table.get?_insert?_of_get? hjobs hsrc, howns⟩
  entry {id job} hget := by
    rw [Table.get?_insert? hjobs] at hget
    split at hget
    · cases hget
      refine ⟨⟨sub.requestHash, jobId, .running, none⟩, ?_, ⟨fun _ => rfl, fun h => ?_,
        fun h => ?_, fun h => ?_⟩⟩
      · exact (Table.get?_insert? hcache _).trans (if_pos rfl)
      -- the new job is no hit
      · cases h
      · cases h
      · cases h
    · obtain ⟨entry, hentry, hdep⟩ := hcoh.entry hget
      exact ⟨entry, Table.get?_insert?_of_get? hcache hentry, { hdep with
        before := fun hhit => Table.before_insert?_of_before hjobs (hdep.before hhit) }⟩

theorem Coherent.attach (hcoh : Coherent env acts db) {sub : ParsedSubmission} {jobId : Str}
    {entry : CacheEntry} {now : Nat} {jobs : Table ReviewJob.id}
    {idempotency : Table IdempotencyRecord.key} {events : List JobEvent}
    (hjobs : db.jobs.insert? (newJob sub jobId true now) = some jobs)
    (hcache : db.cache.get? sub.requestHash = some entry) :
    Coherent env acts ⟨jobs, idempotency, db.cache, events⟩ where
  owner {hash e} he := by
    obtain ⟨src, hsrc, howns⟩ := hcoh.owner he
    exact ⟨src, Table.get?_insert?_of_get? hjobs hsrc, howns⟩
  entry {id job} hget := by
    rw [Table.get?_insert? hjobs] at hget
    split at hget
    · cases hget
      obtain ⟨src, hsrc, -⟩ := hcoh.owner hcache
      refine ⟨entry, hcache, ⟨fun h => ?_, fun _ => ?_, fun _ h => ?_,
        fun _ h => ?_⟩⟩
      · cases h
      · exact Table.before_insert?_new hjobs (Table.mem_keys_of_get? hsrc)
      -- the new job is queued
      · cases h
      · cases h
    · obtain ⟨e, he, hdep⟩ := hcoh.entry hget
      exact ⟨e, he, { hdep with
        before := fun hhit => Table.before_insert?_of_before hjobs (hdep.before hhit) }⟩

/-- A write to a job row alone: a source stays open, and a hit that ends has its entry's end. -/
theorem Coherent.advance (hcoh : Coherent env acts db) {job job' : ReviewJob}
    {bodies : List EventBody} (hjob : db.jobs.get? job.id = some job)
    (hadv : Advance job job' bodies)
    (hopen : job.cacheHit = false → job'.status = .queued ∨ job'.status = .running)
    (hends : job.cacheHit = true → ∀ entry, db.cache.get? job.requestHash = some entry →
      (job'.status = .done → entry.state = .done ∧
        ∃ full, entry.findings = some (full.map Finding.modelDump) ∧
          job'.findings = some ((orderedFindings full job'.maxFindings).map Finding.modelDump)) ∧
      (job'.status = .failed → entry.state = .failed)) :
    Coherent env acts (db.advance job' bodies) where
  owner {hash entry} hentry := by
    obtain ⟨src, hsrc, howns⟩ := hcoh.owner hentry
    by_cases hid : entry.sourceJobId = job.id
    · rw [hid, hjob] at hsrc
      cases hsrc
      refine ⟨job', ?_, ?_⟩
      · rw [Tables.get?_advance _ hjob hadv.same, if_pos hid]
      · have hs := hadv.same
        have hstate : entry.state = .running := by
          rw [howns.state]
          rcases hadv.not_ended with h | h <;> rw [h] <;> rfl
        rcases hopen howns.cacheHit with h | h <;>
          exact ⟨hs.requestHash.trans howns.requestHash, hs.cacheHit.trans howns.cacheHit,
            by rw [hstate, h]; rfl, by rw [h]; nofun, by rw [h]; nofun⟩
    · refine ⟨src, ?_, howns⟩
      rw [Tables.get?_advance _ hjob hadv.same, if_neg hid, hsrc]
  entry {id j} hget := by
    rw [Tables.get?_advance _ hjob hadv.same] at hget
    split at hget
    · cases hget
      have hs := hadv.same
      obtain ⟨entry, hentry, hdep⟩ := hcoh.entry hjob
      refine ⟨entry, hs.requestHash ▸ hentry, ⟨fun hsrc => ?_, fun hhit => ?_, fun hhit => ?_,
        fun hhit => ?_⟩⟩
      · rw [hs.id]
        exact hdep.source (hs.cacheHit ▸ hsrc)
      · rw [hs.id]
        exact Table.before_replace.mpr (hdep.before (hs.cacheHit ▸ hhit))
      · exact (hends (hs.cacheHit ▸ hhit) entry hentry).1
      · exact (hends (hs.cacheHit ▸ hhit) entry hentry).2
    · obtain ⟨entry, hentry, hdep⟩ := hcoh.entry hget
      exact ⟨entry, hentry, { hdep with
        before := fun hhit => Table.before_replace.mpr (hdep.before hhit) }⟩

/-- A source ends together with its entry. -/
theorem Coherent.settle (hcoh : Coherent env acts db) {job job' : ReviewJob}
    {bodies : List EventBody} {entry entry' : CacheEntry}
    (hjob : db.jobs.get? job.id = some job) (hadv : Advance job job' bodies)
    (hsource : job.cacheHit = false) (hentry : db.cache.get? job.requestHash = some entry)
    (howner : entry.sourceJobId = job.id) (hopen : entry.state = .running)
    (hkey : entry'.requestHash = entry.requestHash) (hid : entry'.sourceJobId = entry.sourceJobId)
    (howns : Owns env acts entry' job') : Coherent env acts (db.settle job' bodies entry') := by
  have hs := hadv.same
  have hhash : entry.requestHash = job.requestHash := Table.key_of_get? hentry
  have hcache : ∀ hash, (db.settle job' bodies entry').cache.get? hash
      = if hash = job.requestHash then some entry' else db.cache.get? hash := by
    intro hash
    rw [← hhash, ← hkey]
    exact Table.get?_replace (by rw [hkey, hhash]; exact Table.mem_keys_of_get? hentry) hash
  have hjobs : ∀ id, (db.settle job' bodies entry').jobs.get? id
      = if id = job.id then some job' else db.jobs.get? id :=
    Tables.get?_advance bodies hjob hs
  refine ⟨fun {hash e} he => ?_, fun {id j} hget => ?_⟩
  · rw [hcache] at he
    split at he
    · cases he
      exact ⟨job', by rw [hjobs, hid, if_pos howner], howns⟩
    · next hne =>
      obtain ⟨src, hsrc, hsrcOwns⟩ := hcoh.owner he
      refine ⟨src, ?_, hsrcOwns⟩
      rw [hjobs, if_neg, hsrc]
      -- the entry of another hash has another owner
      intro heq
      rw [heq, hjob] at hsrc
      cases hsrc
      exact hne ((Table.key_of_get? he).symm.trans hsrcOwns.requestHash.symm)
  · rw [hjobs] at hget
    split at hget
    · cases hget
      have hhit : job'.cacheHit ≠ true := by
        rw [hs.cacheHit, hsource]
        decide
      refine ⟨entry', ?_, ⟨fun _ => ?_, fun h => absurd h hhit, fun h => absurd h hhit,
        fun h => absurd h hhit⟩⟩
      · rw [hcache, if_pos hs.requestHash]
      · rw [hid, howner, hs.id]
    · obtain ⟨e, he, hdep⟩ := hcoh.entry hget
      by_cases hj : j.requestHash = job.requestHash
      · -- the other jobs of the hash have not ended: their entry was open
        rw [hj, hentry] at he
        cases he
        refine ⟨entry', by rw [hcache, if_pos hj], ⟨fun h => ?_, fun h => ?_, fun h hd => ?_,
          fun h hf => ?_⟩⟩
        · rw [hid]
          exact hdep.source h
        · rw [hid]
          exact Table.before_replace.mpr (hdep.before h)
        · cases hopen.symm.trans (hdep.done h hd).1
        · cases hopen.symm.trans (hdep.failed h hf)
      · exact ⟨e, by rw [hcache, if_neg hj, he], { hdep with
          before := fun hhit => Table.before_replace.mpr (hdep.before hhit) }⟩

theorem Insert.coherent {sub : ParsedSubmission} {db' : Tables} (h : Insert env db sub db')
    (hcoh : Coherent env acts db) : Coherent env acts db' := by
  cases h with
  | create _ hjobs hcache => exact hcoh.create hjobs hcache
  | attach _ hjobs hcache => exact hcoh.attach hjobs hcache

theorem Progress.coherent {db' : Tables} (h : Progress env acts db db')
    (hcoh : Coherent env acts db) : Coherent env acts db' := by
  cases h with
  | start hjob hqueued =>
    exact hcoh.advance hjob (.claim hqueued) (fun _ => .inr rfl) fun _ _ _ => ⟨nofun, nofun⟩
  | requeue hjob hrunning =>
    exact hcoh.advance hjob (.requeue hrunning) (fun _ => .inl rfl) fun _ _ _ => ⟨nofun, nofun⟩
  | @store job entry full hjob hrunning hsource hentry howner hopen hfull =>
    refine hcoh.settle hjob (.finish hrunning _) hsource hentry howner hopen rfl rfl ?_
    have hsame : SameJob job (job.finished (full.take job.maxFindings)) :=
      (Advance.finish hrunning _).same
    exact ⟨(Table.key_of_get? hentry).symm, hsource, rfl,
      fun _ => ⟨full, hfull.same hsame, rfl, rfl⟩, nofun⟩
  | copy hjob hrunning hhit hentry hdone hfull =>
    refine hcoh.advance hjob (.finish hrunning _) (fun h => ?_) fun _ e he => ⟨fun _ => ?_, nofun⟩
    · exact nomatch h.symm.trans hhit
    · cases he.symm.trans hentry
      exact ⟨hdone, _, hfull, rfl⟩
  | @failSource job entry exc hjob hrunning hsource hentry howner hopen hexc =>
    refine hcoh.settle hjob (.fail hrunning _) hsource hentry howner hopen rfl rfl ?_
    have hsame : SameJob job (job.failedWith (errorMessage env exc)) :=
      (Advance.fail hrunning _).same
    exact ⟨(Table.key_of_get? hentry).symm, hsource, rfl, nofun,
      fun _ => ⟨exc, hexc.same hsame, rfl⟩⟩
  | failHit exc hjob hrunning hhit hentry hfailed =>
    refine hcoh.advance hjob (.fail hrunning _) (fun h => ?_) fun _ e he => ⟨nofun, fun _ => ?_⟩
    · exact nomatch h.symm.trans hhit
    · cases he.symm.trans hentry
      exact hfailed

theorem Write.coherent {db' : Tables} (h : Write env acts db db') (hcoh : Coherent env acts db) :
    Coherent env acts db' := by
  cases h with
  | insert _ h => exact h.coherent hcoh
  | progress h => exact h.coherent hcoh

end Coherent

/-! ## The whole ledger -/

structure Ledger (env : Env) (acts : List Action) (db : Tables) : Prop where
  logged : Logged db
  submitted : ∀ {id job}, db.jobs.get? id = some job → Submitted env job
  coherent : Coherent env acts db

theorem Ledger.empty (env : Env) (acts : List Action) : Ledger env acts Tables.empty :=
  ⟨.empty, nofun, .empty env acts⟩

theorem Ledger.mono {env : Env} {acts acts' : List Action} {db : Tables}
    (hacts : ∀ a ∈ acts, a ∈ acts') (h : Ledger env acts db) : Ledger env acts' db :=
  ⟨h.logged, h.submitted, h.coherent.mono hacts⟩

theorem Write.ledger {env : Env} {acts : List Action} {db db' : Tables}
    (h : Write env acts db db') (hledger : Ledger env acts db) : Ledger env acts db' :=
  ⟨h.logged hledger.logged, h.submitted hledger.submitted, h.coherent hledger.coherent⟩

/-- Any number of writes. -/
abbrev Writes (env : Env) (acts : List Action) : Tables → Tables → Prop :=
  Relation.ReflTransGen (Write env acts)

/-- A row stays, and keeps the columns of its request. -/
theorem Writes.same_job {env : Env} {acts : List Action} {db db' : Tables}
    (h : Writes env acts db db') {id : Str} {job : ReviewJob} (hjob : db.jobs.get? id = some job) :
    ∃ job', db'.jobs.get? id = some job' ∧ SameJob job job' := by
  induction h with
  | refl => exact ⟨job, hjob, .refl job⟩
  | tail _ hwrite ih =>
    obtain ⟨job', hjob', hsame⟩ := ih
    rcases hwrite.jobs_cases with ⟨_, _, _, _, _, -, hjobs, -⟩ | ⟨j, j', bodies, hj, hadv, hjobs, -⟩
    · exact ⟨job', Table.get?_insert?_of_get? hjobs hjob', hsame⟩
    · have hrows := Tables.get?_advance bodies hj hadv.same id
      rw [show (Tables.advance _ j' bodies).jobs = _ from hjobs.symm] at hrows
      by_cases hid : id = j.id
      · subst hid
        cases hj.symm.trans hjob'
        exact ⟨j', hrows.trans (if_pos rfl), hsame.trans hadv.same⟩
      · exact ⟨job', hrows.trans ((if_neg hid).trans hjob'), hsame⟩

theorem Writes.ledger {env : Env} {acts : List Action} {db db' : Tables}
    (h : Writes env acts db db') (hledger : Ledger env acts db) : Ledger env acts db' := by
  induction h with
  | refl => exact hledger
  | tail _ hwrite ih => exact hwrite.ledger ih

end DiffReview
