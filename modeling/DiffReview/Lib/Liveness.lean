import DiffReview.Lib.Transition

/-!
# Fair executions of a transition system

An execution is an infinite sequence of states; each step is an action of the system or
leaves the state as it is. The actions are shared by tasks: `task i s a s'` says that `a`,
from `s` to `s'`, is a move of task `i`.

* `Fair`: a task that can move at all times from some time on moves.
* `Execution.eventually`, the response rule: while the goal is not reached some task is
  helpful, which stays so until the rank falls, and whose own move lets it fall.
* `Execution.ofRun` extends a finite run by doing nothing for ever.
* `Run.cost_le`: a cost that each step takes from a rank is bounded over the run.
-/

namespace Transition

variable {σ α ι : Type*}

/-- An action taken, or a moment in which nothing happens. -/
def Next (step : σ → α → Option σ) (s : σ) : Option α → σ → Prop
  | none, s' => s' = s
  | some a, s' => step s a = some s'

structure Execution (step : σ → α → Option σ) where
  state : ℕ → σ
  action : ℕ → Option α
  next : ∀ n, Next step (state n) (action n) (state (n + 1))

section Fairness

variable (step : σ → α → Option σ) (task : ι → σ → α → σ → Prop)

/-- Task `i` has a move in `s`. -/
def Enabled (i : ι) (s : σ) : Prop := ∃ a s', step s a = some s' ∧ task i s a s'

end Fairness

namespace Execution

variable {step : σ → α → Option σ} {task : ι → σ → α → σ → Prop} (x : Execution step)

/-- Task `i` moves at time `n`. -/
def MovesAt (task : ι → σ → α → σ → Prop) (i : ι) (n : ℕ) : Prop :=
  ∃ a, x.action n = some a ∧ task i (x.state n) a (x.state (n + 1))

def Fair (task : ι → σ → α → σ → Prop) (i : ι) : Prop :=
  ∀ n, (∀ m, n ≤ m → Enabled step task i (x.state m)) → ∃ m, n ≤ m ∧ x.MovesAt task i m

/-- The actions up to time `n`. -/
def trace (n : ℕ) : List α := (List.range n).filterMap x.action

theorem next_cases (n : ℕ) : (x.action n = none ∧ x.state (n + 1) = x.state n) ∨
    ∃ a, x.action n = some a ∧ step (x.state n) a = some (x.state (n + 1)) := by
  have h := x.next n
  cases ha : x.action n with
  | none =>
    rw [ha] at h
    exact .inl ⟨rfl, h⟩
  | some a =>
    rw [ha] at h
    exact .inr ⟨a, rfl, h⟩

theorem run_trace (n : ℕ) : Run step (x.state 0) (x.trace n) (x.state n) := by
  induction n with
  | zero => exact Run.nil
  | succ n ih =>
    rw [trace, List.range_succ, List.filterMap_append]
    rcases x.next_cases n with ⟨ha, hs⟩ | ⟨a, ha, hs⟩
    · rw [List.filterMap_cons_none ha, List.filterMap_nil, List.append_nil, hs]
      exact ih
    · rw [List.filterMap_cons_some ha, List.filterMap_nil]
      exact Run.snoc_iff.mpr ⟨_, ih, hs⟩

theorem run_from {n m : ℕ} (hnm : n ≤ m) : ∃ acts, Run step (x.state n) acts (x.state m) := by
  induction hnm with
  | refl => exact ⟨[], Run.nil⟩
  | @step k _ ih =>
    obtain ⟨acts, hrun⟩ := ih
    rcases x.next_cases k with ⟨-, hs⟩ | ⟨a, -, hs⟩
    · exact ⟨acts, by rwa [Nat.succ_eq_add_one, hs]⟩
    · exact ⟨acts ++ [a], Run.snoc_iff.mpr ⟨_, hrun, hs⟩⟩

/-- The response rule. -/
theorem eventually (goal : σ → Prop) (helpful : ι → σ → Prop) (rank : σ → ℕ) {n : ℕ}
    (hfair : ∀ i, x.Fair task i)
    (hhelp : ∀ m, n ≤ m → ¬goal (x.state m) → ∃ i, helpful i (x.state m))
    (henabled : ∀ i m, n ≤ m → helpful i (x.state m) → Enabled step task i (x.state m))
    (hstep : ∀ i m a, n ≤ m → x.action m = some a →
      step (x.state m) a = some (x.state (m + 1)) → ¬goal (x.state m) → helpful i (x.state m) →
      goal (x.state (m + 1)) ∨ rank (x.state (m + 1)) < rank (x.state m) ∨
        rank (x.state (m + 1)) = rank (x.state m) ∧ helpful i (x.state (m + 1)) ∧
          ¬task i (x.state m) a (x.state (m + 1))) :
    ∃ m, n ≤ m ∧ goal (x.state m) := by
  induction hr : rank (x.state n) using Nat.strong_induction_on generalizing n with
  | _ r ih =>
    by_contra hnever
    have hno : ∀ m, n ≤ m → ¬goal (x.state m) := fun m hnm hm => hnever ⟨m, hnm, hm⟩
    -- from a later time of smaller rank on, the goal would be reached
    have hlow : ∀ m, n ≤ m → ¬rank (x.state m) < r := by
      intro m hnm hlt
      obtain ⟨k, hmk, hk⟩ := ih _ hlt (fun k h => hhelp k (hnm.trans h))
        (fun i k h => henabled i k (hnm.trans h)) (fun i k a h => hstep i k a (hnm.trans h)) rfl
      exact hno k (hnm.trans hmk) hk
    obtain ⟨i, hi⟩ := hhelp n le_rfl (hno n le_rfl)
    have hstays : ∀ m, n ≤ m → rank (x.state m) = r ∧ helpful i (x.state m) := by
      intro m hnm
      induction hnm with
      | refl => exact ⟨hr, hi⟩
      | @step k hnk hk =>
        rcases x.next_cases k with ⟨-, hs⟩ | ⟨a, ha, hs⟩
        · rw [Nat.succ_eq_add_one, hs]
          exact hk
        · have hle : n ≤ k := hnk
          rcases hstep i k a hle ha hs (hno k hle) hk.2 with h | h | ⟨hrank, hhelps, -⟩
          · exact absurd h (hno _ (hle.trans k.le_succ))
          · exact absurd (hk.1 ▸ h) (hlow _ (hle.trans k.le_succ))
          · exact ⟨hrank.trans hk.1, hhelps⟩
    obtain ⟨m, hnm, a, ha, hmove⟩ := hfair i n fun m hnm => henabled i m hnm (hstays m hnm).2
    rcases x.next_cases m with ⟨hnone, -⟩ | ⟨a', ha', hs⟩
    · rw [ha] at hnone
      cases hnone
    · cases ha.symm.trans ha'
      rcases hstep i m a hnm ha hs (hno m hnm) (hstays m hnm).2 with h | h | ⟨-, -, hstill⟩
      · exact hno _ (hnm.trans m.le_succ) h
      · exact hlow _ (hnm.trans m.le_succ) ((hstays m hnm).1 ▸ h)
      · exact hstill hmove

/-! ## Finite runs -/

/-- The state after the first `n` actions of a run. -/
def stateOf (step : σ → α → Option σ) (s : σ) (acts : List α) (n : ℕ) : σ :=
  ((acts.take n).foldlM step s).getD s

theorem run_stateOf {s s' : σ} {acts : List α} (h : Run step s acts s') (n : ℕ) :
    Run step s (acts.take n) (stateOf step s acts n) := by
  rw [← List.take_append_drop n acts] at h
  obtain ⟨t, ht, -⟩ := Run.append_iff.mp h
  rw [stateOf, show (acts.take n).foldlM step s = some t from ht]
  exact ht

theorem next_stateOf {s s' : σ} {acts : List α} (h : Run step s acts s') (n : ℕ) :
    Next step (stateOf step s acts n) acts[n]? (stateOf step s acts (n + 1)) := by
  have hn := run_stateOf h n
  have hn' := run_stateOf h (n + 1)
  rw [List.take_add_one] at hn'
  cases ha : acts[n]? with
  | none =>
    rw [ha, Option.toList_none, List.append_nil] at hn'
    exact Option.some.inj (hn'.symm.trans hn)
  | some a =>
    rw [ha] at hn'
    obtain ⟨t, ht, hstep⟩ := Run.snoc_iff.mp hn'
    cases Option.some.inj (ht.symm.trans hn)
    exact hstep

/-- A finite run, after which nothing happens. -/
def ofRun {s s' : σ} {acts : List α} (h : Run step s acts s') : Execution step where
  state := stateOf step s acts
  action n := acts[n]?
  next := next_stateOf h

theorem ofRun_state {s s' : σ} {acts : List α} (h : Run step s acts s') {n : ℕ}
    (hn : acts.length ≤ n) : (ofRun h).state n = s' := by
  have hrun := run_stateOf h n
  rw [List.take_of_length_le hn] at hrun
  exact Option.some.inj (hrun.symm.trans h)

end Execution

/-! ## Costs -/

variable {step : σ → α → Option σ}

/-- The sum of a cost over the steps of a run. -/
def runCost (step : σ → α → Option σ) (cost : σ → α → σ → ℕ) : σ → List α → ℕ
  | _, [] => 0
  | s, a :: acts => match step s a with
    | none => 0
    | some s' => cost s a s' + runCost step cost s' acts

theorem runCost_cons {cost : σ → α → σ → ℕ} {s t : σ} {a : α} (h : step s a = some t)
    (acts : List α) : runCost step cost s (a :: acts) = cost s a t + runCost step cost t acts := by
  rw [runCost, h]

theorem runCost_snoc {cost : σ → α → σ → ℕ} {s t t' : σ} {a : α} {acts : List α}
    (h : Run step s acts t) (ht : step t a = some t') :
    runCost step cost s (acts ++ [a]) = runCost step cost s acts + cost t a t' := by
  induction acts generalizing s with
  | nil =>
    cases Option.some.inj h
    rw [List.nil_append, runCost_cons ht]
    simp [runCost]
  | cons b acts ih =>
    obtain ⟨u, hu, hrun⟩ := Run.cons_iff.mp h
    rw [List.cons_append, runCost_cons hu, runCost_cons hu, ih hrun, Nat.add_assoc]

/-- What each step costs is taken from the rank, up to what it adds to the budget and what its
action is allowed besides. -/
theorem Run.cost_le {s s' : σ} {acts : List α} (h : Run step s acts s')
    (cost : σ → α → σ → ℕ) (rank budget : σ → ℕ) (gain : α → ℕ)
    (hstep : ∀ acts t a t', Run step s acts t → step t a = some t' →
      cost t a t' + rank t' + budget t ≤ rank t + budget t' + gain a) :
    runCost step cost s acts + rank s' + budget s ≤ rank s + budget s' + (acts.map gain).sum := by
  refine h.invariant_trace (P := fun acts s' =>
    runCost step cost s acts + rank s' + budget s ≤ rank s + budget s' + (acts.map gain).sum) ?_ ?_
  · simp [runCost]
  · intro acts t a t' hrun ih ht
    have hone := hstep acts t a t' hrun ht
    rw [runCost_snoc hrun ht, List.map_append, List.sum_append, List.map_singleton,
      List.sum_singleton]
    omega

end Transition
