import DiffReview.Service.Admission
import DiffReview.Service.ClientErrors

/-!
# DiffReview — the errors of the server

Every error response of a reachable server has one of nine statuses and codes and leaves the
tables as they were; 429 alone has a header, and 500 is left to the bodies that
`parse_submission` does not survive (`errors_exact`).
-/

namespace DiffReview

open Py Raise Transition SlidingWindowRateLimiter

variable {env : Env} {settings : GateSettings} {scope : Scope} {routed : Routed} {app : AppState}

/-! ## Client errors -/

/-- The statuses and codes of the error responses. -/
def errorCodes : List (Nat × Str) :=
  [(400, lit "invalid_json"), (401, lit "unauthorized"), (404, lit "not_found"),
    (405, lit "internal"), (409, lit "idempotency_conflict"), (413, lit "payload_too_large"),
    (422, lit "invalid_diff"), (429, lit "rate_limited"), (500, lit "internal")]

/-- An error that the client can avoid, and not by waiting. -/
structure ClientError (e : ApiError) : Prop where
  listed : (e.statusCode, e.code) ∈ errorCodes
  not_limited : e.statusCode ≠ 429
  not_internal : e.statusCode ≠ 500
  headers : e.headers = []

/-! ## Tokens -/

/-- A request without a byte above 127 in its tokens. -/
def AsciiAuthorization (scope : Scope) : Prop :=
  ∀ h ∈ scope.headers, lowerBytes h.1 = asciiBytes "authorization" → ∀ b ∈ h.2, b < 128

theorem AsciiAuthorization.raw (h : AsciiAuthorization scope) :
    isAscii (latin1 (rawAuthorization scope)) = true := by
  refine isAscii_latin1.mpr ?_
  unfold rawAuthorization header?
  cases hget : (headerMap scope).get? (asciiBytes "authorization") with
  | none => exact fun b hb => absurd hb List.not_mem_nil
  | some header =>
    obtain ⟨hmem, hkey⟩ := Table.get?_eq_some_iff.mp hget
    obtain ⟨raw, hraw, rfl⟩ := List.mem_map.mp (Table.mem_of_mem_rows_fromRows hmem)
    exact h raw hraw hkey

theorem AsciiAuthorization.first (h : AsciiAuthorization scope) {value : Str}
    (hvalue : firstAuthorization scope = some value) : isAscii value = true := by
  obtain ⟨header, hheader, rfl⟩ := Option.map_eq_some_iff.mp hvalue
  have hkey : lowerBytes header.1 = asciiBytes "authorization" := by
    simpa using List.find?_some hheader
  exact isAscii_latin1.mpr (h header (List.mem_of_find?_eq_some hheader) hkey)

theorem compareDigest_isSome {a b : Str} (ha : isAscii a = true) (hb : isAscii b = true) :
    compareDigest a b ≠ none := by
  rw [compareDigest, ha, hb]
  exact Option.some_ne_none _

/-- Nothing raises before the limiter when the tokens are ASCII. -/
theorem AsciiAuthorization.not_raised (h : AsciiAuthorization scope)
    (htoken : isAscii settings.bearerToken = true) : contractMiddleware settings scope ≠ .raised ∧
      requireBearerToken settings (firstAuthorization scope) ≠ .error .unhandled := by
  have hexpected := isAscii_expectedAuthorization htoken
  have hlength : checkContentLength settings scope ≠ .raised := by
    intro hraised
    rcases checkContentLength_cases settings scope with hlength | hlength
    · cases hlength.symm.trans hraised
    · cases hlength.symm.trans hraised
  constructor
  · intro hraised
    unfold contractMiddleware at hraised
    split at hraised
    · cases hraised
    · split at hraised
      · split at hraised
        · next hnone => exact compareDigest_isSome h.raw hexpected hnone
        · cases hraised
        · exact hlength hraised
      · exact hlength hraised
  · intro hraised
    unfold requireBearerToken at hraised
    split at hraised
    · cases hraised
    · next value hvalue =>
      split at hraised
      · next hnone => exact compareDigest_isSome (h.first hvalue) hexpected hnone
      · cases hraised
      · cases hraised

/-! ## Submissions -/

/-- The errors `parse_submission` raises itself. -/
theorem parseSubmission_clientError {rawBody : List UInt8} {e : ApiError}
    (h : parseSubmission env rawBody = .error (.api e)) :
    ClientError e ∧ (e.statusCode = 413 ∨ e.statusCode = 400 ∨ e.statusCode = 422) := by
  have hunhandled : ∀ {α : Type} {x : Except PyError α}, orUnhandled x ≠ .error (.api e) := by
    intro α x hx
    cases x with
    | ok a => cases hx
    | error exc => cases hx
  -- the checks in the order of the source; each raises its own error
  rcases bind_eq_error.mp h with hsize | ⟨_, -, h⟩
  · unfold checkPayloadSize at hsize
    split at hsize
    · cases hsize
      exact ⟨⟨by decide, by decide, by decide, rfl⟩, by decide⟩
    · cases hsize
  rcases bind_eq_error.mp h with hloads | ⟨_, -, h⟩
  · unfold loadsOrReject at hloads
    split at hloads
    · cases hloads
    · cases hloads
      exact ⟨⟨by decide, by decide, by decide, rfl⟩, by decide⟩
    · cases hloads
  rcases bind_eq_error.mp h with hvalidate | ⟨_, -, h⟩
  · unfold validateOrReject at hvalidate
    split at hvalidate
    · cases hvalidate
    · cases hvalidate
      exact ⟨⟨by decide, by decide, by decide, rfl⟩, by decide⟩
  rcases bind_eq_error.mp h with hparse | ⟨_, -, h⟩
  · unfold parseOrReject at hparse
    split at hparse
    · cases hparse
    · cases hparse
      exact ⟨⟨by decide, by decide, by decide, rfl⟩, by decide⟩
    · cases hparse
  -- nothing behind the parser raises an `ApiError`
  rcases bind_eq_error.mp h with hchunks | ⟨_, -, h⟩
  · exact absurd hchunks hunhandled
  rcases bind_eq_error.mp h with hhash | ⟨_, -, h⟩
  · exact absurd hhash hunhandled
  rcases bind_eq_error.mp h with hbytes | ⟨_, -, h⟩
  · exact absurd hbytes hunhandled
  · cases h

/-- Every idempotency record names a job. -/
def RecordsKnown (db : Tables) : Prop :=
  ∀ key record, db.idempotency.get? key = some record → record.jobId ∈ db.jobs.keys

theorem RecordsKnown.insertJob {db db' : Tables} {sub : ParsedSubmission} {key : Option Str}
    {jobId : Str} {now : Nat} {job : ReviewJob} (h : RecordsKnown db)
    (hinsert : insertJob db sub key jobId now = some (job, db')) : RecordsKnown db' := by
  obtain ⟨⟨hit, rfl⟩, hjobs, hrecord⟩ := insertJob_rows hinsert
  intro k record hget
  rw [Table.keys_insert? hjobs, List.mem_append, List.mem_singleton]
  cases key with
  | none =>
    rw [← Option.some.inj hrecord] at hget
    exact .inl (h k record hget)
  | some key =>
    rw [Table.get?_insert? hrecord] at hget
    split at hget
    · cases hget
      exact .inr rfl
    · exact .inl (h k record hget)

theorem run_recordsKnown {acts : List Action} {s : State} (h : Run (step env) State.init acts s) :
    RecordsKnown s.db := by
  refine h.invariant (P := fun s => RecordsKnown s.db)
    (fun key record hget => by cases (show none = some record from hget)) ?_
  intro t a t' ih hstep
  by_cases hsubmit : ∃ rawBody key jobId now, a = .submit rawBody key jobId now
  · obtain ⟨rawBody, key, jobId, now, rfl⟩ := hsubmit
    simp only [step] at hstep
    split at hstep
    · split at hstep
      · next job db hcreate =>
        cases hstep
        obtain ⟨sub, -, rfl | ⟨-, hinsert⟩⟩ := submit_cases hcreate
        · exact ih
        · exact ih.insertJob hinsert
      · cases hstep
        exact ih
    · cases hstep
  · -- all other steps keep the ids and the records
    have hids := step_sameIds hstep fun rawBody key jobId now heq =>
      hsubmit ⟨rawBody, key, jobId, now, heq⟩
    intro key record hget
    rw [hids.idempotency] at hget
    rw [hids.jobs]
    exact ih key record hget

/-- With a new id a submission fails for its key alone. -/
theorem createOrReuseJob_error {db : Tables} {sub : ParsedSubmission} {key : Option Str} {jobId : Str}
    {now : Nat} {exc : Raised} (hknown : RecordsKnown db) (hfresh : db.jobs.get? jobId = none)
    (h : createOrReuseJob db sub key jobId now = .error exc) : exc = .api idempotencyConflict := by
  unfold createOrReuseJob at h
  split at h
  · next existing hexisting =>
    split at h
    · cases h
      rfl
    · split at h
      · next hnone =>
        -- the record names a job that is not there
        obtain ⟨k, -, hget⟩ := Option.bind_eq_some_iff.mp hexisting
        exact absurd (hknown k existing hget) (Table.get?_eq_none_iff.mp hnone)
      · cases h
  · next hfree =>
    -- the rows of a new job have new keys
    obtain ⟨cache, hcache, -⟩ := insertEntry_eq jobId db sub.requestHash
    obtain ⟨idempotency, hrecord, -⟩ := insertRecord_eq jobId hfree sub.rawBodyHash
    obtain ⟨jobs, hjobs⟩ : ∃ jobs, db.jobs.insert?
        (newJob sub jobId (db.cache.get? sub.requestHash).isSome now) = some jobs :=
      ⟨_, Table.insert?_eq_some_iff.mpr ⟨hfresh, rfl⟩⟩
    simp [insertJob, hjobs, hcache, hrecord] at h

/-- A body that is not plain is unhandled. -/
theorem parseSubmission_unhandled_iff {rawBody : List UInt8} :
    parseSubmission env rawBody = .error .unhandled ↔ ¬PlainBody env rawBody := by
  rw [← clientAnswer_iff]
  constructor
  · exact not_clientAnswer_of_unhandled
  · intro h
    cases hparse : parseSubmission env rawBody with
    | ok sub => exact absurd (.inl ⟨sub, hparse, (parseSubmission_eq_ok hparse).2.chunks_pos⟩) h
    | error exc =>
      cases exc with
      | unhandled => rfl
      | api e => exact absurd (.inr ⟨e, hparse, (parseSubmission_clientError hparse).2⟩) h

/-! ## Responses -/

/-- An admitted submission, accepted by the limiter, with a body that is not plain. -/
def Escapes (env : Env) (settings : GateSettings) (scope : Scope) (routed : Routed)
    (limiter : SlidingWindowRateLimiter) : Prop :=
  Admitted settings scope ∧ routed.keyTooLong = false ∧ ∃ rawBody key jobId created clock,
    routed = .matched (.submitReview rawBody key jobId created clock) ∧
    (limiter.consume clock).1 = .ok () ∧ ¬PlainBody env rawBody

theorem Escapes.reply (h : Escapes env settings scope routed app.limiter) :
    (respond env settings scope routed app).1 = .error unexpectedError := by
  obtain ⟨hadmitted, hshort, rawBody, key, jobId, created, clock, rfl, hok, hbody⟩ := h
  rw [respond_of_admitted hadmitted hshort, runRoute]
  cases hlimit : app.limiter.consume clock with
  | mk result limiter =>
    rw [hlimit] at hok
    cases (show result = .ok () from hok)
    simp only [parseSubmission_unhandled_iff.mpr hbody]
    rfl

/-- What an error response of the server says. -/
structure ErrorsExact (env : Env) (settings : GateSettings) (scope : Scope) (routed : Routed)
    (window : ℚ) (s : Server) (e : ApiError) (app : AppState) : Prop where
  listed : (e.statusCode, e.code) ∈ errorCodes
  unchanged : app.db = s.service.db
  limited : e.statusCode = 429 → ∃ r : ℕ, e = rateLimited r ∧ 1 ≤ r ∧ (r : Int) ≤ ⌈window⌉
  headers : e.statusCode ≠ 429 → e.headers = []
  internal : e.statusCode = 500 ↔ Escapes env settings scope routed s.limiter

theorem ErrorsExact.of_client {s : Server} {window : ℚ} {e : ApiError}
    (hreply : (respond env settings scope routed s.app).1 = .error e) (he : ClientError e)
    (hdb : app.db = s.service.db) : ErrorsExact env settings scope routed window s e app where
  listed := he.listed
  unchanged := hdb
  limited h := absurd h he.not_limited
  headers _ := he.headers
  internal := by
    refine iff_of_false he.not_internal fun hescapes => ?_
    have hinternal : (respond env settings scope routed s.app).1 = .error unexpectedError :=
      Escapes.reply hescapes
    cases hreply.symm.trans hinternal
    exact he.not_internal rfl

theorem ErrorsExact.of_limited {s : Server} {window : ℚ} {r : ℕ}
    (hreply : (respond env settings scope routed s.app).1 = .error (rateLimited r)) (hpos : 1 ≤ r)
    (hle : (r : Int) ≤ ⌈window⌉) (hdb : app.db = s.service.db) :
    ErrorsExact env settings scope routed window s (rateLimited r) app where
  listed := by simp [rateLimited, errorCodes]
  unchanged := hdb
  limited _ := ⟨r, rfl, hpos, hle⟩
  headers h := absurd rfl h
  internal := by
    refine iff_of_false (by simp [rateLimited]) fun hescapes => ?_
    have hinternal : (respond env settings scope routed s.app).1 = .error unexpectedError :=
      Escapes.reply hescapes
    have hstatus := congrArg ApiError.statusCode (Reply.error.inj (hreply.symm.trans hinternal))
    exact absurd hstatus (by simp [rateLimited, unexpectedError])

theorem ErrorsExact.of_escapes {s : Server} {window : ℚ}
    (h : Escapes env settings scope routed s.limiter) (hdb : app.db = s.service.db) :
    ErrorsExact env settings scope routed window s unexpectedError app :=
  ⟨by decide, hdb, fun h => absurd h (by decide), fun _ => rfl, iff_of_true rfl h⟩

end DiffReview
