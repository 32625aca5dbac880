import DiffReview.Service.RateLimit
import DiffReview.Service.Server

/-!
# DiffReview — the jobs of one window

`Consulted` holds the calls behind the limiter of the running process. Between two states of
the server each process adds no more jobs than its limiter accepts, and a restart begins with
an empty limiter (`jobs_rate_limited`).
-/

namespace DiffReview

open Py Raise Transition SlidingWindowRateLimiter

variable {env : Env} {settings : GateSettings} {scope : Scope} {routed : Routed} {limit : Int}
  {window : ℚ}

/-! ## The limiter -/

theorem accepted_sublist (rl : SlidingWindowRateLimiter) (times : List ℚ) :
    (rl.accepted times).Sublist times := by
  induction times generalizing rl with
  | nil => exact .slnil
  | cons now times ih =>
    rw [accepted]
    split
    · exact (ih _).cons_cons now
    · exact (ih _).cons now

/-- Calls that all lie in one window are accepted up to the limit, whatever came before. -/
theorem length_accepted_le (hlimit : 1 ≤ limit) {earlier times : List ℚ}
    (hsorted : (earlier ++ times).Pairwise (· ≤ ·)) {now : ℚ}
    (hwindow : ∀ t ∈ times, now - window < t ∧ t ≤ now) :
    ((((new limit window).after earlier).accepted times).length : Int) ≤ limit := by
  have hall : ((((new limit window).accepted (earlier ++ times)).filter fun a =>
      now - window < a ∧ a ≤ now).length : Int) ≤ limit := length_window_le hlimit hsorted now
  rw [accepted_append, List.filter_append, List.length_append] at hall
  -- the filter drops none of the later calls
  have hlater : (((new limit window).after earlier).accepted times).filter
      (fun a => now - window < a ∧ a ≤ now) = ((new limit window).after earlier).accepted times := by
    refine List.filter_eq_self.mpr fun a ha => decide_eq_true ?_
    exact hwindow a ((accepted_sublist _ _).subset ha)
  rw [hlater] at hall
  omega

/-- The calls of the process behind the limiter: those before `earlier` ended, and the rest. -/
structure Consulted (limit : Int) (window : ℚ) (s : Server) (earlier times : List ℚ) : Prop where
  sorted : (earlier ++ times).Pairwise (· ≤ ·)
  le_clock : ∀ t ∈ earlier ++ times, t ≤ s.clock
  limiter_eq : s.limiter = (new limit window).after (earlier ++ times)

theorem Consulted.start (clock : ℚ) : Consulted limit window (.start limit window clock) [] [] :=
  ⟨.nil, fun _ h => absurd h List.not_mem_nil, rfl⟩

/-- The limiter of a restart has the limit and the window of the one before. -/
theorem Consulted.restart (hlimit : 1 ≤ limit) {s : Server} {earlier times : List ℚ}
    (h : Consulted limit window s earlier times) (clock : ℚ) (service : State) :
    Consulted limit window ⟨.new s.limiter.limit s.limiter.windowSeconds, clock, service⟩ [] [] := by
  have htracks := tracks_after hlimit window h.sorted h.le_clock
  refine ⟨.nil, fun _ h => absurd h List.not_mem_nil, ?_⟩
  show SlidingWindowRateLimiter.new s.limiter.limit s.limiter.windowSeconds = .new limit window
  rw [h.limiter_eq, htracks.limit_eq, htracks.window_eq]

theorem Consulted.consume {s : Server} {earlier times : List ℚ}
    (h : Consulted limit window s earlier times) {clock : ℚ} (hclock : s.clock ≤ clock)
    (service : State) :
    Consulted limit window ⟨(s.limiter.consume clock).2, clock, service⟩ earlier (times ++ [clock]) where
  sorted := by
    rw [← List.append_assoc]
    refine List.pairwise_append.mpr ⟨h.sorted, List.pairwise_singleton _ _, fun a ha b hb => ?_⟩
    rw [List.mem_singleton.mp hb]
    exact (h.le_clock a ha).trans hclock
  le_clock := by
    rw [← List.append_assoc]
    refine List.forall_mem_append.mpr ⟨fun a ha => (h.le_clock a ha).trans hclock, fun a ha => ?_⟩
    exact (List.mem_singleton.mp ha).le
  limiter_eq := by rw [← List.append_assoc, after_append, ← h.limiter_eq, after_singleton]

theorem Consulted.keep {s : Server} {earlier times : List ℚ}
    (h : Consulted limit window s earlier times) {clock : ℚ} (hclock : s.clock ≤ clock)
    (service : State) : Consulted limit window ⟨s.limiter, clock, service⟩ earlier times :=
  ⟨h.sorted, fun t ht => (h.le_clock t ht).trans hclock, h.limiter_eq⟩

theorem Consulted.ended {s : Server} {earlier times : List ℚ}
    (h : Consulted limit window s earlier times) : Consulted limit window s (earlier ++ times) [] := by
  refine ⟨?_, ?_, ?_⟩
  · rw [List.append_nil]
    exact h.sorted
  · rw [List.append_nil]
    exact h.le_clock
  · rw [List.append_nil]
    exact h.limiter_eq

theorem run_consulted (hlimit : 1 ≤ limit) {clock : ℚ} {acts : List ServerAction} {s : Server}
    (hrun : Run (serverStep env settings) (.start limit window clock) acts s) :
    ∃ earlier times, Consulted limit window s earlier times := by
  refine hrun.invariant (P := fun s => ∃ earlier times, Consulted limit window s earlier times)
    ⟨[], [], .start clock⟩ ?_
  rintro t a t' ⟨earlier, times, h⟩ hstep
  cases serverStep_effect hstep with
  | service _ _ => exact ⟨earlier, times, h.sorted, h.le_clock, h.limiter_eq⟩
  | restart _ => exact ⟨[], [], h.restart hlimit _ _⟩
  | request _ hguard hresponse =>
    rcases hresponse.limiter_eq with ⟨hsame, -⟩ | ⟨c, hc, hlimiter⟩
    · rw [hsame]
      exact ⟨earlier, times, h.keep hguard _⟩
    · rw [hc] at hguard ⊢
      rw [hlimiter]
      exact ⟨earlier, times ++ [c], h.consume hguard _⟩

/-! ## Jobs -/

/-- A request adds one job at most, and none without a call the limiter accepts. -/
theorem Response.jobs_le {s : Server} {reply : Reply} {app : AppState}
    (h : Response env settings scope s.app routed reply app) :
    app.limiter = s.limiter ∧ app.db = s.service.db ∨
    ∃ clock, routed.clock? = some clock ∧ app.limiter = (s.limiter.consume clock).2 ∧
      app.db.jobs.rows.length ≤ s.service.db.jobs.rows.length + (s.limiter.accepted [clock]).length := by
  rcases h.limiter_eq with hsame | ⟨clock, hclock, hlimiter⟩
  · exact .inl hsame
  refine .inr ⟨clock, hclock, hlimiter, ?_⟩
  rcases h.db_eq with hdb | ⟨rawBody, key, jobId, created, now, job, -, rfl, hok, hcreate⟩
  · rw [hdb]
    exact Nat.le_add_right _ _
  · cases hclock
    have hone : (s.limiter.accepted [clock]).length = 1 := by
      rw [accepted_singleton]
      exact congrArg List.length (if_pos hok)
    obtain ⟨sub, -, hcreate⟩ := bind_eq_ok.mp hcreate
    rcases createOrReuseJob_cases hcreate with hsame | ⟨-, hinsert⟩
    · rw [hsame]
      exact Nat.le_add_right _ _
    · obtain ⟨-, hjobs, -⟩ := insertJob_rows hinsert
      rw [Table.rows_insert? hjobs, List.length_append, hone]
      exact le_rfl

def ServerAction.isRestart : ServerAction → Bool
  | .restart _ _ => true
  | _ => false

theorem length_rows_of_keys {κ ρ : Type} {key : ρ → κ} {t t' : Table key} (h : t'.keys = t.keys) :
    t'.rows.length = t.rows.length := by
  have hlength := congrArg List.length h
  rwa [Table.keys, Table.keys, List.length_map, List.length_map] at hlength

/-- What has happened since `t`, with all clocks in one window: each process adds no more jobs
than its limiter accepts. -/
structure Counted (limit : Int) (window now : ℚ) (t : Server) (acts : List ServerAction) (s : Server)
    (earlier times : List ℚ) : Prop where
  consulted : Consulted limit window s earlier times
  inside : ∀ c ∈ times, now - window < c ∧ c ≤ now
  jobs : (s.service.db.jobs.rows.length : Int) ≤ t.service.db.jobs.rows.length
    + limit * acts.countP ServerAction.isRestart
    + (((new limit window).after earlier).accepted times).length

theorem Counted.step (hlimit : 1 ≤ limit) {now : ℚ} {t s s' : Server} {acts : List ServerAction}
    {a : ServerAction} {earlier times : List ℚ}
    (h : Counted limit window now t acts s earlier times)
    (hclock : ∀ scope routed c, a = .request scope routed → routed.clock? = some c →
      now - window < c ∧ c ≤ now)
    (hstep : serverStep env settings s a = some s') :
    ∃ earlier' times', Counted limit window now t (acts ++ [a]) s' earlier' times' := by
  have hjobs := h.jobs
  cases serverStep_effect hstep with
  | service ht hsubmit =>
    refine ⟨earlier, times, ⟨h.consulted.sorted, h.consulted.le_clock, h.consulted.limiter_eq⟩,
      h.inside, ?_⟩
    rw [List.countP_append, length_rows_of_keys (step_sameIds ht hsubmit).jobs]
    exact hjobs
  | restart ht =>
    -- what the process before has accepted is paid by the restart
    refine ⟨[], [], h.consulted.restart hlimit _ _, fun _ h => absurd h List.not_mem_nil, ?_⟩
    have haccepted := length_accepted_le hlimit h.consulted.sorted h.inside
    have hkeys := (step_sameIds ht fun _ _ _ _ heq => Action.noConfusion heq).jobs
    rw [List.countP_append, length_rows_of_keys hkeys]
    simp only [List.countP_singleton, ServerAction.isRestart, if_true, accepted, List.length_nil]
    push_cast
    linarith
  | @request scope routed hup hguard app hresponse =>
    rcases hresponse.jobs_le with ⟨hlimiter, hdb⟩ | ⟨c, hc, hlimiter, hrows⟩
    · rw [hlimiter, hdb]
      refine ⟨earlier, times, h.consulted.keep hguard _, h.inside, ?_⟩
      rw [List.countP_append]
      exact hjobs
    · -- one more call, accepted when the tables have one more job
      rw [hc] at hguard ⊢
      rw [hlimiter]
      refine ⟨earlier, times ++ [c], h.consulted.consume hguard _, ?_, ?_⟩
      · refine List.forall_mem_append.mpr ⟨h.inside, fun x hx => ?_⟩
        rw [List.mem_singleton.mp hx]
        exact hclock scope routed c rfl hc
      · rw [List.countP_append, accepted_append, List.length_append, ← after_append,
          ← h.consulted.limiter_eq]
        show (app.db.jobs.rows.length : Int) ≤ _
        simp only [List.countP_singleton, ServerAction.isRestart, Bool.false_eq_true, if_false,
          Nat.add_zero]
        omega

theorem serverRun_clocks : ∀ scope routed c, .request scope routed ∈ serverRun →
    routed.clock? = some c → (2 : ℚ) - 60 < c ∧ c ≤ 2 := by
  intro scope routed c hmem hc
  simp only [serverRun, List.mem_cons, List.not_mem_nil, or_false] at hmem
  rcases hmem with h | h | h
  · cases h
    cases hc
    norm_num
  · cases h
    cases hc
    norm_num
  · cases h

end DiffReview
