import DiffReview.Service.Authentication
import DiffReview.Service.Order
import DiffReview.Service.Refinement
import DiffReview.Service.RequestHash
import DiffReview.Spec.Server

/-!
# DiffReview — the server over whole runs

`Response` says what becomes of one request, and `respond_response` is the one case analysis
of its way. A run of the server is a run of the service, and the jobs it makes are those that
admitted requests have asked for (`jobs_requested`).
-/

namespace DiffReview

open Py Raise Transition

variable {env : Env} {settings : GateSettings} {scope : Scope} {routed : Routed}

/-! ## One request -/

/-- The middleware and the token check of the route let the request through. -/
structure Admitted (settings : GateSettings) (scope : Scope) : Prop where
  passed : contractMiddleware settings scope = .forwarded
  bearer : requireBearerToken settings (firstAuthorization scope) = .ok ()

theorem Admitted.firstAuthorization_eq (h : Admitted settings scope) :
    firstAuthorization scope = some (expectedAuthorization settings) := by
  -- any other first value is refused
  by_contra hne
  obtain ⟨exc, hexc⟩ := requireBearerToken_refuses hne
  exact nomatch hexc.symm.trans h.bearer

/-- What becomes of a request: its reply, and the limiter and the tables after it. -/
inductive Response (env : Env) (settings : GateSettings) (scope : Scope) (app : AppState) :
    Routed → Reply → AppState → Prop where
  /-- The middleware, the token check or the router answers. -/
  | early {routed : Routed} {e : ApiError}
      (he : e = unauthorized ∨ e = payloadTooLarge ∨ routed.outcome = .error e) :
      Response env settings scope app routed (.error e) app
  /-- `compare_digest` raises. -/
  | raised {routed : Routed} (h : contractMiddleware settings scope = .raised ∨
      requireBearerToken settings (firstAuthorization scope) = .error .unhandled) :
      Response env settings scope app routed (.error unexpectedError) app
  | limited {routed : Routed} {clock : ℚ} {exc : Raised} (hadmitted : Admitted settings scope)
      (hclock : routed.clock? = some clock) (hlimit : (app.limiter.consume clock).1 = .error exc) :
      Response env settings scope app routed (.error exc.response)
        { app with limiter := (app.limiter.consume clock).2 }
  | invalid {routed : Routed} {clock : ℚ} (hadmitted : Admitted settings scope)
      (hclock : routed.clock? = some clock) (hok : (app.limiter.consume clock).1 = .ok ()) :
      Response env settings scope app routed (.error handleValidationError)
        { app with limiter := (app.limiter.consume clock).2 }
  | failed {rawBody : List UInt8} {key : Option Str} {jobId : Str} {created : Nat} {clock : ℚ}
      {exc : Raised} (hadmitted : Admitted settings scope)
      (hshort : (Routed.matched (.submitReview rawBody key jobId created clock)).keyTooLong = false)
      (hok : (app.limiter.consume clock).1 = .ok ())
      (hfailed : ((parseSubmission env rawBody).bind fun sub =>
        createOrReuseJob app.db sub key jobId created) = .error exc) :
      Response env settings scope app (.matched (.submitReview rawBody key jobId created clock))
        (.error exc.response) { app with limiter := (app.limiter.consume clock).2 }
  | submitted {rawBody : List UInt8} {key : Option Str} {jobId : Str} {created : Nat} {clock : ℚ}
      {job : ReviewJob} {db : Tables} (hadmitted : Admitted settings scope)
      (hshort : (Routed.matched (.submitReview rawBody key jobId created clock)).keyTooLong = false)
      (hok : (app.limiter.consume clock).1 = .ok ())
      (hsubmitted : ((parseSubmission env rawBody).bind fun sub =>
        createOrReuseJob app.db sub key jobId created) = .ok (job, db)) :
      Response env settings scope app (.matched (.submitReview rawBody key jobId created clock))
        (.answer (.submitted job.id)) ⟨(app.limiter.consume clock).2, db⟩
  | found {routed : Routed} {answer : Answer} :
      Response env settings scope app routed (.answer answer) app
  | missing {routed : Routed} : Response env settings scope app routed (.error notFound) app

theorem checkContentLength_cases (settings : GateSettings) (scope : Scope) :
    checkContentLength settings scope = .forwarded ∨
      checkContentLength settings scope = .answered payloadTooLarge := by
  unfold checkContentLength
  split
  · split
    · split
      · exact .inr rfl
      · exact .inl rfl
    · exact .inl rfl
  · exact .inl rfl

theorem contractMiddleware_answered {e : ApiError}
    (h : contractMiddleware settings scope = .answered e) : e = unauthorized ∨ e = payloadTooLarge := by
  have hlength : checkContentLength settings scope = .answered e → e = payloadTooLarge := by
    intro hanswered
    rcases checkContentLength_cases settings scope with hlength | hlength
    · cases hlength.symm.trans hanswered
    · cases hlength.symm.trans hanswered
      rfl
  unfold contractMiddleware at h
  split at h
  · cases h
  · split at h
    · split at h
      · cases h
      · cases h
        exact .inl rfl
      · exact .inr (hlength h)
    · exact .inr (hlength h)

theorem requireBearerToken_error {authorization : Option Str} {exc : Raised}
    (h : requireBearerToken settings authorization = .error exc) :
    exc = .api unauthorized ∨ exc = .unhandled := by
  unfold requireBearerToken at h
  split at h
  · cases h
    exact .inl rfl
  · split at h
    · cases h
      exact .inr rfl
    · cases h
      exact .inl rfl
    · cases h

variable {app : AppState}

/-- The token check refuses. -/
theorem Response.of_bearer_error {exc : Raised}
    (h : requireBearerToken settings (firstAuthorization scope) = .error exc) :
    Response env settings scope app routed (.error exc.response) app := by
  rcases requireBearerToken_error h with rfl | rfl
  · exact .early (.inl rfl)
  · exact .raised (.inr h)

theorem Response.of_findJob {jobId : Str} {f : ReviewJob → Answer} :
    Response env settings scope app routed
      (Served.reply (.handled ((findJob app.db jobId).map f))) app := by
  unfold findJob
  split
  · exact .missing
  · exact .found

/-- An admitted request at its route. -/
theorem runRoute_response (hadmitted : Admitted settings scope) {route : Route}
    (hshort : (Routed.matched route).keyTooLong = false) :
    Response env settings scope app (.matched route) (runRoute env app route).1.reply
      (runRoute env app route).2 := by
  cases route with
  | getReview jobId => exact .of_findJob
  | streamReview jobId => exact .of_findJob
  | submitReview rawBody key jobId created clock =>
    cases hlimit : app.limiter.consume clock with
    | mk result limiter =>
      have hlimiter : limiter = (app.limiter.consume clock).2 := by rw [hlimit]
      have hresult : (app.limiter.consume clock).1 = result := by rw [hlimit]
      simp only [runRoute, hlimit]
      rw [hlimiter]
      cases result with
      | error exc => exact .limited hadmitted rfl hresult
      | ok _ =>
        -- behind the limiter the handler raises, or answers with a job
        cases hcreate : ((parseSubmission env rawBody).bind fun sub =>
            createOrReuseJob app.db sub key jobId created) with
        | error exc => exact .failed hadmitted hshort hresult hcreate
        | ok created => exact .submitted hadmitted hshort hresult hcreate

theorem serve_response (hshort : routed.keyTooLong = false) :
    Response env settings scope app routed
      (serve env settings (fun _ => routed.outcome) scope app).1
      (serve env settings (fun _ => routed.outcome) scope app).2 := by
  unfold serve
  cases hpassed : contractMiddleware settings scope with
  | answered e => exact .early ((contractMiddleware_answered hpassed).imp_right .inl)
  | raised => exact .raised (.inl hpassed)
  | forwarded =>
    cases routed with
    | notFound => exact .early (.inr (.inr rfl))
    | methodNotAllowed => exact .early (.inr (.inr rfl))
    | matched route =>
      show Response env settings scope app (.matched route)
        (reviewRoute env settings (firstAuthorization scope) route app).1.reply
        (reviewRoute env settings (firstAuthorization scope) route app).2
      unfold reviewRoute
      cases hbearer : requireBearerToken settings (firstAuthorization scope) with
      | error exc => exact .of_bearer_error hbearer
      | ok _ => exact runRoute_response ⟨hpassed, hbearer⟩ hshort

theorem serveInvalid_response {clock : ℚ} (hclock : routed.clock? = some clock) :
    Response env settings scope app routed (serveInvalid settings scope clock app).1
      (serveInvalid settings scope clock app).2 := by
  unfold serveInvalid
  cases hpassed : contractMiddleware settings scope with
  | answered e => exact .early ((contractMiddleware_answered hpassed).imp_right .inl)
  | raised => exact .raised (.inl hpassed)
  | forwarded =>
    cases hbearer : requireBearerToken settings (firstAuthorization scope) with
    | error exc => exact .of_bearer_error hbearer
    | ok _ =>
      -- the limiter is asked before the header is found to be too long
      cases hlimit : app.limiter.consume clock with
      | mk result limiter =>
        have hlimiter : limiter = (app.limiter.consume clock).2 := by rw [hlimit]
        have hresult : (app.limiter.consume clock).1 = result := by rw [hlimit]
        rw [hlimiter]
        cases result with
        | error exc => exact .limited ⟨hpassed, hbearer⟩ hclock hresult
        | ok _ => exact .invalid ⟨hpassed, hbearer⟩ hclock hresult

theorem Routed.exists_clock (h : routed.keyTooLong = true) : ∃ clock, routed.clock? = some clock := by
  cases routed with
  | notFound => cases h
  | methodNotAllowed => cases h
  | matched route =>
    cases route with
    | submitReview rawBody key jobId created clock => exact ⟨clock, rfl⟩
    | getReview jobId => cases h
    | streamReview jobId => cases h

theorem respond_of_short (h : routed.keyTooLong = false) :
    respond env settings scope routed app = serve env settings (fun _ => routed.outcome) scope app := by
  rw [respond, h]

/-- The way of a request. -/
theorem respond_response (routed : Routed) :
    Response env settings scope app routed (respond env settings scope routed app).1
      (respond env settings scope routed app).2 := by
  -- an idempotency key of more than 255 characters is found invalid behind the dependencies
  cases hshort : routed.keyTooLong with
  | false =>
    rw [respond_of_short hshort]
    exact serve_response hshort
  | true =>
    obtain ⟨clock, hclock⟩ := routed.exists_clock hshort
    rw [respond, hshort, hclock]
    exact serveInvalid_response hclock

/-- An admitted request runs its route. -/
theorem respond_of_admitted (hadmitted : Admitted settings scope) {route : Route}
    (hshort : (Routed.matched route).keyTooLong = false) :
    respond env settings scope (.matched route) app
      = ((runRoute env app route).1.reply, (runRoute env app route).2) := by
  rw [respond_of_short hshort, serve, hadmitted.passed]
  show ((reviewRoute env settings (firstAuthorization scope) route app).1.reply,
    (reviewRoute env settings (firstAuthorization scope) route app).2) = _
  rw [reviewRoute, hadmitted.bearer]

/-! ## Steps -/

theorem Response.db_eq {reply : Reply} {app' : AppState}
    (h : Response env settings scope app routed reply app') : app'.db = app.db ∨
      ∃ rawBody key jobId created clock job, Admitted settings scope ∧
        routed = .matched (.submitReview rawBody key jobId created clock) ∧
        (app.limiter.consume clock).1 = .ok () ∧
        ((parseSubmission env rawBody).bind fun sub =>
          createOrReuseJob app.db sub key jobId created) = .ok (job, app'.db) := by
  cases h with
  | submitted hadmitted _ hok hsubmitted =>
    exact .inr ⟨_, _, _, _, _, _, hadmitted, rfl, hok, hsubmitted⟩
  | early _ => exact .inl rfl
  | raised _ => exact .inl rfl
  | limited _ _ _ => exact .inl rfl
  | invalid _ _ _ => exact .inl rfl
  | failed _ _ _ _ => exact .inl rfl
  | found => exact .inl rfl
  | missing => exact .inl rfl

theorem Response.limiter_eq {reply : Reply} {app' : AppState}
    (h : Response env settings scope app routed reply app') : app'.limiter = app.limiter ∧
      app'.db = app.db ∨
      ∃ clock, routed.clock? = some clock ∧ app'.limiter = (app.limiter.consume clock).2 := by
  cases h with
  | early _ => exact .inl ⟨rfl, rfl⟩
  | raised _ => exact .inl ⟨rfl, rfl⟩
  | limited _ hclock _ => exact .inr ⟨_, hclock, rfl⟩
  | invalid _ hclock _ => exact .inr ⟨_, hclock, rfl⟩
  | failed _ _ _ _ => exact .inr ⟨_, rfl, rfl⟩
  | submitted _ _ _ _ => exact .inr ⟨_, rfl, rfl⟩
  | found => exact .inl ⟨rfl, rfl⟩
  | missing => exact .inl ⟨rfl, rfl⟩

/-- What a step of the server does: a request is answered, or the service takes a step. -/
inductive ServerEffect (env : Env) (settings : GateSettings) (s : Server) :
    ServerAction → Server → Prop where
  | request {scope : Scope} {routed : Routed} (hup : s.service.up = true)
      (hclock : s.clock ≤ routed.clock?.getD s.clock) {app : AppState}
      (hresponse : Response env settings scope s.app routed (respond env settings scope routed s.app).1
        app) :
      ServerEffect env settings s (.request scope routed)
        ⟨app.limiter, routed.clock?.getD s.clock, { s.service with db := app.db }⟩
  | service {a : Action} {t : State} (hstep : step env s.service a = some t)
      (hsubmit : ∀ rawBody key jobId now, a ≠ .submit rawBody key jobId now) :
      ServerEffect env settings s (.service a) { s with service := t }
  | restart {jobs : List ReviewJob} {clock : ℚ} {t : State}
      (hstep : step env s.service (.recover jobs) = some t) :
      ServerEffect env settings s (.restart jobs clock)
        ⟨.new s.limiter.limit s.limiter.windowSeconds, clock, t⟩

theorem serverStep_effect {s s' : Server} {a : ServerAction}
    (h : serverStep env settings s a = some s') : ServerEffect env settings s a s' := by
  have hservice : ∀ {b : Action}, (∀ rawBody key jobId now, b ≠ .submit rawBody key jobId now) →
      ((step env s.service b).map fun t => { s with service := t }) = some s' →
      ServerEffect env settings s (.service b) s' := by
    intro b hb hmap
    obtain ⟨t, ht, rfl⟩ := Option.map_eq_some_iff.mp hmap
    exact .service ht hb
  cases a with
  | request scope routed =>
    simp only [serverStep] at h
    split at h
    · next hguard =>
      cases h
      exact .request hguard.1 hguard.2 (respond_response routed)
    · cases h
  | restart jobs clock =>
    obtain ⟨t, ht, rfl⟩ := Option.map_eq_some_iff.mp h
    exact .restart ht
  | service b =>
    cases b with
    | submit rawBody key jobId now => cases h
    | recover jobs => cases h
    | _ => exact hservice (fun _ _ _ _ heq => Action.noConfusion heq) h

/-! ## Jobs -/

/-- An admitted request of the run has asked for the job. -/
def Requested (env : Env) (settings : GateSettings) (acts : List ServerAction) (job : ReviewJob) :
    Prop :=
  ∃ scope rawBody key created clock sub,
    .request scope (.matched (.submitReview rawBody key job.id created clock)) ∈ acts ∧
    contractMiddleware settings scope = .forwarded ∧
    firstAuthorization scope = some (expectedAuthorization settings) ∧
    parseSubmission env rawBody = .ok sub ∧ SameJob (newJob sub job.id job.cacheHit created) job

theorem Requested.mono {acts acts' : List ServerAction} {job : ReviewJob}
    (hacts : ∀ a ∈ acts, a ∈ acts') (h : Requested env settings acts job) :
    Requested env settings acts' job := by
  obtain ⟨scope, rawBody, key, created, clock, sub, hmem, hrest⟩ := h
  exact ⟨scope, rawBody, key, created, clock, sub, hacts _ hmem, hrest⟩

theorem Requested.same {acts : List ServerAction} {job job' : ReviewJob} (hsame : SameJob job job')
    (h : Requested env settings acts job) : Requested env settings acts job' := by
  obtain ⟨scope, rawBody, key, created, clock, sub, hmem, hpassed, hfirst, hsub, hjob⟩ := h
  rw [← hsame.id] at hmem
  refine ⟨scope, rawBody, key, created, clock, sub, hmem, hpassed, hfirst, hsub, ?_⟩
  rw [hsame.id, hsame.cacheHit]
  exact hjob.trans hsame

/-- The rows of a new job and of its key. -/
theorem insertJob_rows {db db' : Tables} {sub : ParsedSubmission} {key : Option Str} {jobId : Str}
    {now : Nat} {job : ReviewJob} (h : insertJob db sub key jobId now = some (job, db')) :
    (∃ hit, job = newJob sub jobId hit now) ∧ db.jobs.insert? job = some db'.jobs ∧
      insertRecord db key sub.rawBodyHash jobId = some db'.idempotency := by
  unfold insertJob at h
  obtain ⟨jobs, hjobs, h⟩ := Option.bind_eq_some_iff.mp h
  obtain ⟨cache, -, h⟩ := Option.bind_eq_some_iff.mp h
  obtain ⟨idempotency, hrecord, h⟩ := Option.bind_eq_some_iff.mp h
  cases h
  exact ⟨⟨_, rfl⟩, hjobs, hrecord⟩

/-- What an answered submission is to the service. -/
theorem Response.step_submit {s : Server} {rawBody : List UInt8} {key : Option Str} {jobId : Str}
    {created : Nat} {job : ReviewJob} {db : Tables} (hup : s.service.up = true)
    (h : ((parseSubmission env rawBody).bind fun sub =>
      createOrReuseJob s.service.db sub key jobId created) = .ok (job, db)) :
    step env s.service (.submit rawBody key jobId created) = some { s.service with db := db } := by
  have hsubmit : submit env s.service rawBody key jobId created = .ok (job, db) := h
  simp only [step, if_pos hup, hsubmit]

section Runs

variable {limit : Int} {window clock : ℚ} {acts : List ServerAction} {s : Server}

/-- The invariant of whole runs. -/
theorem run_requested (hrun : Run (serverStep env settings) (.start limit window clock) acts s) :
    (∃ acts', Run (step env) State.init acts' s.service) ∧
      ∀ {id job}, s.service.db.jobs.get? id = some job → Requested env settings acts job := by
  refine hrun.invariant_trace (P := fun acts s =>
    (∃ acts', Run (step env) State.init acts' s.service) ∧
    ∀ {id job}, s.service.db.jobs.get? id = some job → Requested env settings acts job)
    ⟨⟨[], Run.nil⟩, fun {id job} h => by cases (show none = some job from h)⟩ ?_
  rintro acts t a t' - ⟨⟨acts', hservice⟩, hrequested⟩ hstep
  have hold : ∀ {id job}, t.service.db.jobs.get? id = some job →
      Requested env settings (acts ++ [a]) job :=
    fun h => (hrequested h).mono fun b hb => List.mem_append_left _ hb
  cases serverStep_effect hstep with
  | service ht hsubmit =>
    refine ⟨⟨_, Run.snoc_iff.mpr ⟨_, hservice, ht⟩⟩, fun hjob => ?_⟩
    obtain ⟨old, hget, hsame⟩ := step_same_job hservice ht hsubmit hjob
    exact (hold hget).same hsame
  | restart ht =>
    refine ⟨⟨_, Run.snoc_iff.mpr ⟨_, hservice, ht⟩⟩, fun hjob => ?_⟩
    obtain ⟨old, hget, hsame⟩ :=
      step_same_job hservice ht (fun _ _ _ _ heq => Action.noConfusion heq) hjob
    exact (hold hget).same hsame
  | @request scope routed hup hclock app hresponse =>
    rcases hresponse.db_eq with hdb | ⟨rawBody, key, jobId, created, now, job, hadmitted, rfl, -, hok⟩
    · rw [hdb]
      exact ⟨⟨acts', hservice⟩, hold⟩
    · -- an answered submission is one of the service, for a new job or for that of its key
      refine ⟨⟨_, Run.snoc_iff.mpr ⟨_, hservice, Response.step_submit hup hok⟩⟩, ?_⟩
      intro id found hfound
      obtain ⟨sub, hsub, hcreate⟩ := bind_eq_ok.mp hok
      rcases createOrReuseJob_cases hcreate with hsame | ⟨-, hinsert⟩
      · rw [hsame] at hfound
        exact hold hfound
      · obtain ⟨⟨hit, rfl⟩, hjobs, -⟩ := insertJob_rows hinsert
        rw [Table.get?_insert? hjobs] at hfound
        split at hfound
        · cases hfound
          exact ⟨scope, rawBody, key, created, now, sub, List.mem_append_right _
            (List.mem_singleton_self _), hadmitted.passed, hadmitted.firstAuthorization_eq, hsub,
            .refl _⟩
        · exact hold hfound

end Runs

def submissionScope : Scope where
  type := lit "http"
  method := lit "POST"
  path := lit "/v1/reviews"
  headers := [(asciiBytes "Authorization", asciiBytes "Bearer development-token")]

def submissionOf (jobId : Str) (clock : ℚ) : Routed :=
  .matched (.submitReview (sampleBody .mock) none jobId 0 clock)

/-- Two submissions at a limit of one, and a claim. -/
def serverRun : List ServerAction :=
  [.request submissionScope (submissionOf (lit "a") 1),
    .request submissionScope (submissionOf (lit "b") 2), .service (.claim 0 (lit "a"))]

set_option maxRecDepth 20000 in
theorem serverRun_isSome :
    (serverRun.foldlM (serverStep (sampleEnv none) developmentSettings) (.start 1 60 0)).isSome
      = true := by decide +kernel

def serverState : Server :=
  (serverRun.foldlM (serverStep (sampleEnv none) developmentSettings) (.start 1 60 0)).get
    serverRun_isSome

theorem serverState_run :
    Run (serverStep (sampleEnv none) developmentSettings) (.start 1 60 0) serverRun serverState :=
  Run.get serverRun_isSome

end DiffReview
