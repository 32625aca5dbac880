import DiffReview.Spec.RateLimit

/-!
# DiffReview — what the rate limit admits

The deque of `SlidingWindowRateLimiter` against the history of all accepted calls. The
invariant of a run is `Tracks`: the deque is the end of that history, and what it has lost
is out of the window for good.
-/

namespace DiffReview

open Py

namespace SlidingWindowRateLimiter

/-! ## One call -/

theorem consume_ok_iff {rl : SlidingWindowRateLimiter} {now : ℚ} :
    (rl.consume now).1 = .ok () ↔ (rl.prune now).timestamps.length < rl.limit := by
  unfold consume
  simp only
  split
  · next h => exact iff_of_true rfl h
  · next h =>
    refine iff_of_false ?_ h
    split <;> exact nofun

theorem consume_of_ok {rl : SlidingWindowRateLimiter} {now : ℚ} (h : (rl.consume now).1 = .ok ()) :
    (rl.consume now).2 = { rl.prune now with timestamps := (rl.prune now).timestamps ++ [now] } := by
  have hroom : (rl.prune now).timestamps.length < (rl.prune now).limit := consume_ok_iff.mp h
  unfold consume
  simp only [if_pos hroom]

theorem consume_of_not_ok {rl : SlidingWindowRateLimiter} {now : ℚ}
    (h : (rl.consume now).1 ≠ .ok ()) : (rl.consume now).2 = rl.prune now := by
  have hfull : ¬(rl.prune now).timestamps.length < (rl.prune now).limit :=
    fun hroom => h (consume_ok_iff.mpr hroom)
  unfold consume
  simp only [if_neg hfull]
  split <;> rfl

/-- A rejected call advertises the wait for the oldest call of the window. -/
theorem consume_error {rl : SlidingWindowRateLimiter} {now oldest : ℚ} {kept : List ℚ}
    (hkept : (rl.prune now).timestamps = oldest :: kept) (h : (rl.consume now).1 ≠ .ok ()) :
    (rl.consume now).1 = .error (.api (rateLimited (rl.retryAfter now oldest))) := by
  have hfull : ¬(rl.prune now).timestamps.length < (rl.prune now).limit :=
    fun hroom => h (consume_ok_iff.mpr hroom)
  rw [hkept] at hfull
  unfold consume
  simp only [hkept, if_neg hfull]
  rfl

/-! ## Runs -/

theorem after_append (rl : SlidingWindowRateLimiter) (times later : List ℚ) :
    rl.after (times ++ later) = (rl.after times).after later := List.foldl_append

theorem after_singleton (rl : SlidingWindowRateLimiter) (now : ℚ) :
    rl.after [now] = (rl.consume now).2 := rfl

theorem accepted_append (rl : SlidingWindowRateLimiter) (times later : List ℚ) :
    rl.accepted (times ++ later) = rl.accepted times ++ (rl.after times).accepted later := by
  induction times generalizing rl with
  | nil => rfl
  | cons now times ih =>
    have hafter : rl.after (now :: times) = (rl.consume now).2.after times := rfl
    rw [List.cons_append, accepted, accepted, ih, hafter]
    split <;> rfl

theorem accepted_singleton (rl : SlidingWindowRateLimiter) (now : ℚ) :
    rl.accepted [now] = if (rl.consume now).1 = .ok () then [now] else [] := rfl

/-! ## The invariant -/

/-- In increasing order, dropping what is out of the window keeps exactly what is in it. -/
theorem dropWhile_eq_filter {times : List ℚ} (h : times.Pairwise (· ≤ ·)) (cutoff : ℚ) :
    (times.dropWhile fun t => t ≤ cutoff) = times.filter fun t => cutoff < t := by
  induction times with
  | nil => rfl
  | cons t times ih =>
    obtain ⟨hle, hrest⟩ := List.pairwise_cons.mp h
    by_cases ht : t ≤ cutoff
    · rw [List.dropWhile_cons_of_pos (by simpa using ht), List.filter_cons_of_neg (by simpa using ht)]
      exact ih hrest
    · -- the first one kept is the least one
      rw [List.dropWhile_cons_of_neg (by simpa using ht), eq_comm, List.filter_eq_self]
      intro a ha
      have hta : t ≤ a := (List.mem_cons.mp ha).elim (fun h => h ▸ le_rfl) (hle a)
      exact decide_eq_true (lt_of_lt_of_le (not_le.mp ht) hta)

/-- The limiter `rl` at time `now`, with the accepted calls `acc` behind it. -/
structure Tracks (limit : Int) (window : ℚ) (acc : List ℚ) (now : ℚ)
    (rl : SlidingWindowRateLimiter) : Prop where
  limit_eq : rl.limit = limit
  window_eq : rl.windowSeconds = window
  sorted : acc.Pairwise (· ≤ ·)
  le_now : ∀ a ∈ acc, a ≤ now
  kept : ∃ dropped, acc = dropped ++ rl.timestamps ∧ ∀ d ∈ dropped, d ≤ now - window
  length_le : rl.timestamps.length ≤ limit

section Invariant

variable {limit : Int} {window now : ℚ} {acc : List ℚ} {rl : SlidingWindowRateLimiter}

/-- What a later call finds in the deque are the accepted calls of its window. -/
theorem Tracks.prune_timestamps (h : Tracks limit window acc now rl) {t : ℚ} (ht : now ≤ t) :
    (rl.prune t).timestamps = acc.filter fun a => t - window < a := by
  obtain ⟨dropped, hacc, hdropped⟩ := h.kept
  have hsorted : rl.timestamps.Pairwise (· ≤ ·) := (List.pairwise_append.mp (hacc ▸ h.sorted)).2.1
  have hnone : (dropped.filter fun a => t - window < a) = [] := by
    refine List.filter_eq_nil_iff.mpr fun d hd => ?_
    have hd := hdropped d hd
    have hle : d ≤ t - window := by linarith
    simpa using hle
  rw [hacc, List.filter_append, hnone, List.nil_append, ← dropWhile_eq_filter hsorted, prune,
    h.window_eq]

theorem Tracks.prune (h : Tracks limit window acc now rl) {t : ℚ} (ht : now ≤ t) :
    Tracks limit window acc t (rl.prune t) := by
  obtain ⟨dropped, hacc, hdropped⟩ := h.kept
  refine ⟨h.limit_eq, h.window_eq, h.sorted, fun a ha => (h.le_now a ha).trans ht, ?_, ?_⟩
  · refine ⟨dropped ++ rl.timestamps.takeWhile fun a => a ≤ t - rl.windowSeconds, ?_, ?_⟩
    · rw [SlidingWindowRateLimiter.prune, List.append_assoc, List.takeWhile_append_dropWhile, hacc]
    · intro d hd
      rcases List.mem_append.mp hd with hd | hd
      · have := hdropped d hd
        linarith
      · have hout := List.mem_takeWhile_imp hd
        rw [h.window_eq] at hout
        exact of_decide_eq_true hout
  · have hle : (rl.prune t).timestamps.length ≤ rl.timestamps.length :=
      (List.dropWhile_sublist _).length_le
    have := h.length_le
    omega

theorem Tracks.consume_ok_iff (h : Tracks limit window acc now rl) {t : ℚ} (ht : now ≤ t) :
    (rl.consume t).1 = .ok () ↔ (acc.filter fun a => t - window < a).length < limit := by
  rw [SlidingWindowRateLimiter.consume_ok_iff, h.prune_timestamps ht, h.limit_eq]

theorem Tracks.consume (h : Tracks limit window acc now rl) {t : ℚ} (ht : now ≤ t) :
    Tracks limit window (acc ++ rl.accepted [t]) t (rl.consume t).2 := by
  have hprune := h.prune ht
  rw [accepted_singleton]
  split
  · next hok =>
    obtain ⟨dropped, hacc, hdropped⟩ := hprune.kept
    have hroom := SlidingWindowRateLimiter.consume_ok_iff.mp hok
    rw [consume_of_ok hok]
    refine ⟨hprune.limit_eq, hprune.window_eq, ?_, ?_, ⟨dropped, ?_, hdropped⟩, ?_⟩
    · refine List.pairwise_append.mpr ⟨h.sorted, List.pairwise_singleton _ _, fun a ha b hb => ?_⟩
      rw [List.mem_singleton.mp hb]
      exact hprune.le_now a ha
    · exact List.forall_mem_append.mpr ⟨hprune.le_now, List.forall_mem_singleton.mpr le_rfl⟩
    · rw [← List.append_assoc, ← hacc]
    · rw [h.limit_eq] at hroom
      rw [List.length_append, List.length_singleton]
      omega
  · next hno =>
    rw [consume_of_not_ok hno, List.append_nil]
    exact hprune

end Invariant

section Runs

variable {limit : Int} (hlimit : 1 ≤ limit) {window : ℚ} {times : List ℚ}
include hlimit

variable (window) in
/-- The invariant of whole runs. -/
theorem tracks_after (hsorted : times.Pairwise (· ≤ ·)) {now : ℚ} (hnow : ∀ t ∈ times, t ≤ now) :
    Tracks limit window ((new limit window).accepted times) now ((new limit window).after times) := by
  induction times using List.reverseRecOn generalizing now with
  | nil => exact ⟨rfl, rfl, List.Pairwise.nil, nofun, ⟨[], rfl, nofun⟩, by simp [after, new]; omega⟩
  | append_singleton times t ih =>
    obtain ⟨hinit, -, hle⟩ := List.pairwise_append.mp hsorted
    have hbefore := ih hinit fun a ha => hle a ha t (List.mem_singleton_self t)
    have hstep := hbefore.consume le_rfl
    rw [accepted_append, after_append, after_singleton]
    have htnow : t ≤ now := hnow t (by simp)
    obtain ⟨dropped, hacc, hdropped⟩ := hstep.kept
    refine ⟨hstep.limit_eq, hstep.window_eq, hstep.sorted, fun a ha => ?_, ⟨dropped, hacc, ?_⟩,
      hstep.length_le⟩
    · exact (hstep.le_now a ha).trans htnow
    · intro d hd
      have := hdropped d hd
      linarith

/-- No window ever holds more accepted calls than the limit. -/
theorem length_window_le (hsorted : times.Pairwise (· ≤ ·)) (t : ℚ) :
    (((new limit window).accepted times).filter fun a => t - window < a ∧ a ≤ t).length ≤ limit := by
  induction times using List.reverseRecOn with
  | nil => simp [accepted]; omega
  | append_singleton times s ih =>
    obtain ⟨hinit, -, hle⟩ := List.pairwise_append.mp hsorted
    have hbefore := tracks_after hlimit window hinit fun a ha =>
      hle a ha s (List.mem_singleton_self s)
    rw [accepted_append, List.filter_append, List.length_append, accepted_singleton]
    split
    · next hok =>
      have hroom := (hbefore.consume_ok_iff le_rfl).mp hok
      by_cases hs : t - window < s ∧ s ≤ t
      · -- the window of `t` lies within that of the call at `s`, where there was room
        have hwithin : (((new limit window).accepted times).filter fun a =>
            t - window < a ∧ a ≤ t).length
            ≤ (((new limit window).accepted times).filter fun a => s - window < a).length := by
          refine (List.monotone_filter_right _ fun a ha => ?_).length_le
          have ha := of_decide_eq_true ha
          exact decide_eq_true (by linarith [ha.1, hs.2])
        rw [List.filter_cons_of_pos (by simpa using hs), List.filter_nil, List.length_singleton]
        omega
      · rw [List.filter_cons_of_neg (by simpa using hs), List.filter_nil, List.length_nil, Nat.add_zero]
        exact ih hinit
    · rw [List.filter_nil, List.length_nil, Nat.add_zero]
      exact ih hinit

end Runs

/-! ## The promised wait -/

/-- Calls after one at `now`, up to the next one, none of which is accepted. -/
def Quiet (rl : SlidingWindowRateLimiter) (now : ℚ) (calls : List ℚ) (next : ℚ) : Prop :=
  (now :: calls ++ [next]).Pairwise (· ≤ ·) ∧ rl.accepted calls = []

/-- The call `seconds` after `now` is accepted if no other call is meanwhile. -/
def AcceptedAfter (rl : SlidingWindowRateLimiter) (now : ℚ) (seconds : ℕ) : Prop :=
  ∀ calls, rl.Quiet now calls (now + seconds) →
    ((rl.after calls).consume (now + seconds)).1 = .ok ()

section Wait

variable {limit : Int} {window : ℚ} {times : List ℚ} {now : ℚ}

/-- Among the accepted calls of a full window, there is room later exactly when the oldest
one has left the window. -/
theorem length_filter_lt_iff {acc kept : List ℚ} {oldest later : ℚ} (hsorted : acc.Pairwise (· ≤ ·))
    (hkept : (acc.filter fun a => now - window < a) = oldest :: kept) (hlater : now ≤ later) :
    (acc.filter fun a => later - window < a).length < (oldest :: kept).length
      ↔ oldest ≤ later - window := by
  have hsub : (acc.filter fun a => later - window < a)
      = (oldest :: kept).filter fun a => later - window < a := by
    rw [← hkept, List.filter_filter]
    refine List.filter_congr fun a _ => ?_
    rw [Bool.eq_iff_iff, Bool.and_eq_true, decide_eq_true_eq, decide_eq_true_eq]
    exact ⟨fun h => ⟨h, by linarith⟩, And.left⟩
  rw [hsub, List.length_filter_lt_length_iff_exists]
  have hmin : ∀ a ∈ oldest :: kept, oldest ≤ a := by
    have hpair := hkept ▸ hsorted.filter fun a => now - window < a
    intro a ha
    rcases List.mem_cons.mp ha with rfl | ha
    · exact le_rfl
    · exact List.rel_of_pairwise_cons hpair ha
  constructor
  · rintro ⟨a, ha, hout⟩
    exact (hmin a ha).trans (by simpa using hout)
  · intro hout
    exact ⟨oldest, List.mem_cons_self, by simpa using hout⟩

/-- While a full window stays as it is, a later call is accepted exactly when the oldest
call has left its window. -/
theorem quiet_ok_iff (hlimit : 1 ≤ limit) (hsorted : (times ++ [now]).Pairwise (· ≤ ·))
    {oldest : ℚ} {kept : List ℚ}
    (hkept : (((new limit window).after times).prune now).timestamps = oldest :: kept)
    (hno : (((new limit window).after times).consume now).1 ≠ .ok ()) {calls : List ℚ} {next : ℚ}
    (hquiet : (((new limit window).after times).consume now).2.Quiet now calls next) :
    (((((new limit window).after times).consume now).2.after calls).consume next).1 = .ok ()
      ↔ oldest ≤ next - window := by
  obtain ⟨hpair, hnone⟩ := hquiet
  obtain ⟨htimes, -, hle⟩ := List.pairwise_append.mp hsorted
  have hle : ∀ a ∈ times, a ≤ now := fun a ha => hle a ha now (List.mem_singleton_self now)
  have hbefore := tracks_after hlimit window htimes hle
  -- the whole run up to the later call accepts what was accepted before `now`
  obtain ⟨hcalls, -, hnext⟩ := List.pairwise_append.mp hpair
  have hnext : ∀ a ∈ now :: calls, a ≤ next := fun a ha => hnext a ha next (List.mem_singleton_self next)
  have hfull : (times ++ now :: calls).Pairwise (· ≤ ·) := by
    refine List.pairwise_append.mpr ⟨htimes, hcalls, fun a ha b hb => (hle a ha).trans ?_⟩
    rcases List.mem_cons.mp hb with rfl | hb
    · exact le_rfl
    · exact List.rel_of_pairwise_cons hcalls hb
  have hafter : (new limit window).after (times ++ now :: calls)
      = (((new limit window).after times).consume now).2.after calls := after_append _ _ _
  have haccepted : (new limit window).accepted (times ++ now :: calls)
      = (new limit window).accepted times := by
    rw [accepted_append, accepted, if_neg hno, hnone, List.append_nil]
  have hnow : now ≤ next := hnext now List.mem_cons_self
  have hrun := tracks_after hlimit window hfull
    (show ∀ a ∈ times ++ now :: calls, a ≤ next from
      List.forall_mem_append.mpr ⟨fun a ha => (hle a ha).trans hnow, hnext⟩)
  rw [haccepted, hafter] at hrun
  have hlength : ((oldest :: kept).length : Int) = limit := by
    have hmost := (hbefore.prune le_rfl).length_le
    have hleast := mt SlidingWindowRateLimiter.consume_ok_iff.mpr hno
    rw [hbefore.limit_eq] at hleast
    rw [← hkept]
    omega
  have hroom := length_filter_lt_iff hbefore.sorted
    (hbefore.prune_timestamps le_rfl ▸ hkept) hnow
  rw [hrun.consume_ok_iff le_rfl, ← hroom]
  omega

/-- What a rejected call advertises is the least number of seconds that is enough. -/
theorem consume_rejected (hlimit : 1 ≤ limit) (hsorted : (times ++ [now]).Pairwise (· ≤ ·))
    (hno : (((new limit window).after times).consume now).1 ≠ .ok ()) : ∃ r : ℕ,
      (((new limit window).after times).consume now).1 = .error (.api (rateLimited r)) ∧
      1 ≤ r ∧ (r : Int) ≤ ⌈window⌉ ∧
      IsLeast {k | (((new limit window).after times).consume now).2.AcceptedAfter now k} r := by
  obtain ⟨htimes, -, hle⟩ := List.pairwise_append.mp hsorted
  have hbefore := tracks_after hlimit window htimes fun a ha =>
    hle a ha now (List.mem_singleton_self now)
  have hfull := mt SlidingWindowRateLimiter.consume_ok_iff.mpr hno
  rw [hbefore.limit_eq] at hfull
  -- the window is full, so it has an oldest call
  cases hkept : (((new limit window).after times).prune now).timestamps with
  | nil =>
    rw [hkept] at hfull
    exact absurd (show ((0 : ℕ) : Int) < limit by omega) hfull
  | cons oldest kept =>
    have hwindow : ((new limit window).after times).windowSeconds = window := hbefore.window_eq
    have hmem : oldest ∈ ((new limit window).accepted times).filter fun a => now - window < a := by
      rw [← hbefore.prune_timestamps le_rfl, hkept]
      exact List.mem_cons_self
    have hin : now - window < oldest := of_decide_eq_true (List.mem_filter.mp hmem).2
    have hold : oldest ≤ now := hbefore.le_now oldest (List.mem_filter.mp hmem).1
    have hpos : 1 ≤ ⌈window - (now - oldest)⌉ := Int.one_le_ceil_iff.mpr (by linarith)
    have hretry : ((new limit window).after times).retryAfter now oldest
        = (⌈window - (now - oldest)⌉.toNat : ℕ) := by
      rw [retryAfter, hwindow, max_eq_right hpos, Int.toNat_of_nonneg (by omega)]
    have henough : ∀ k : ℕ, ⌈window - (now - oldest)⌉.toNat ≤ k ↔ oldest ≤ now + k - window := by
      intro k
      rw [Int.toNat_le, Int.ceil_le]
      constructor <;> intro h <;> push_cast at h ⊢ <;> linarith
    refine ⟨⌈window - (now - oldest)⌉.toNat, ?_, by omega, ?_, ?_, ?_⟩
    · rw [consume_error hkept hno, hretry]
    · rw [Int.toNat_of_nonneg (by omega)]
      exact Int.ceil_le_ceil (by linarith)
    · intro calls hquiet
      exact (quiet_ok_iff hlimit hsorted hkept hno hquiet).mpr ((henough _).mp le_rfl)
    · intro k hk
      have hquiet : (((new limit window).after times).consume now).2.Quiet now [] (now + k) :=
        ⟨by simp, rfl⟩
      exact (henough k).mpr ((quiet_ok_iff hlimit hsorted hkept hno hquiet).mp (hk [] hquiet))

end Wait

/-- The limiter admits what its limit and window say, and tells a rejected caller the truth. -/
theorem rate_limit_exact {limit : Int} (hlimit : 1 ≤ limit) (window : ℚ) {times : List ℚ}
    (hsorted : times.Pairwise (· ≤ ·)) :
    (∀ t, (((new limit window).accepted times).filter fun a => t - window < a ∧ a ≤ t).length
      ≤ limit) ∧
    ∀ earlier now later, times = earlier ++ now :: later →
      ((((new limit window).after earlier).consume now).1 ≠ .ok () ↔
        (((new limit window).accepted earlier).filter fun a => now - window < a ∧ a ≤ now).length
          = limit) ∧
      ((((new limit window).after earlier).consume now).1 ≠ .ok () → ∃ r : ℕ,
        (((new limit window).after earlier).consume now).1 = .error (.api (rateLimited r)) ∧
        1 ≤ r ∧ (r : Int) ≤ ⌈window⌉ ∧
        IsLeast {k | (((new limit window).after earlier).consume now).2.AcceptedAfter now k} r) := by
  refine ⟨length_window_le hlimit hsorted, ?_⟩
  rintro earlier now later rfl
  have hupto : (earlier ++ [now]).Pairwise (· ≤ ·) := by
    rw [List.append_cons] at hsorted
    exact (List.pairwise_append.mp hsorted).1
  obtain ⟨hearlier, -, hle⟩ := List.pairwise_append.mp hupto
  have hbefore := tracks_after hlimit window hearlier fun a ha =>
    hle a ha now (List.mem_singleton_self now)
  refine ⟨?_, consume_rejected hlimit hupto⟩
  have hwindow : (((new limit window).accepted earlier).filter fun a => now - window < a ∧ a ≤ now)
      = ((new limit window).accepted earlier).filter fun a => now - window < a := by
    refine List.filter_congr fun a ha => ?_
    have := hbefore.le_now a ha
    simp [this]
  have hmost := (hbefore.prune le_rfl).length_le
  rw [hbefore.prune_timestamps le_rfl] at hmost
  rw [ne_eq, hbefore.consume_ok_iff le_rfl, hwindow]
  omega

/-- Two calls a minute: the third one of a minute is told to wait for the first to leave. -/
theorem rate_limit_exact_sample :
    (1 : Int) ≤ 2 ∧ [(0 : ℚ), 10, 30].Pairwise (· ≤ ·) ∧
      (((new 2 60).after [0, 10]).consume 30).1 ≠ .ok () ∧ ∃ r : ℕ,
        (((new 2 60).after [0, 10]).consume 30).1 = .error (.api (rateLimited r)) ∧
        1 ≤ r ∧ (r : Int) ≤ ⌈(60 : ℚ)⌉ ∧
        IsLeast {k | (((new 2 60).after [0, 10]).consume 30).2.AcceptedAfter 30 k} r := by
  have hlimit : (1 : Int) ≤ 2 := by decide
  have hsorted : [(0 : ℚ), 10, 30].Pairwise (· ≤ ·) := by decide
  have hno : (((new 2 60).after [0, 10]).consume 30).1 ≠ .ok () := by decide +kernel
  have hrun := (rate_limit_exact hlimit 60 hsorted).2 [0, 10] 30 [] rfl
  exact ⟨hlimit, hsorted, hno, hrun.2 hno⟩

end SlidingWindowRateLimiter

end DiffReview
