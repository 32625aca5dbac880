import DiffReview.Lib.Regex

/-!
# What a regular expression matches

The texts of an expression, without the order of the backtracking: `r.Matches prev s next`
says that `r` can read `s` between the characters `prev` and `next`. The matcher succeeds
exactly where there is such a text (`exec_isSome_iff`), and a search exactly when some part of
the text is one (`search_isSome_iff`).
-/

namespace Regex

variable {α β : Type}

/-! ## Texts -/

/-- Any number of rounds, each of which reads something. -/
inductive Rounds (R : Option α → List α → Option α → Prop) :
    Option α → List α → Option α → Prop where
  | nil {prev next : Option α} : Rounds R prev [] next
  | cons {prev next : Option α} {s t : List α} (hs : s ≠ []) (hround : R prev s (t.head?.or next))
      (hrest : Rounds R (s.getLast?.or prev) t next) : Rounds R prev (s ++ t) next

/-- `r` reads `s` where the character before is `prev` and the one behind is `next`. -/
def Matches : Regex α → Option α → List α → Option α → Prop
  | .eps, _, s, _ => s = []
  | .chr c, _, s, _ => ∃ x, s = [x] ∧ c x = true
  | .seq a b, prev, s, next => ∃ u v, s = u ++ v ∧ a.Matches prev u (v.head?.or next) ∧
      b.Matches (u.getLast?.or prev) v next
  | .alt a b, prev, s, next => a.Matches prev s next ∨ b.Matches prev s next
  | .star a, prev, s, next => Rounds a.Matches prev s next
  | .lazyStar a, prev, s, next => Rounds a.Matches prev s next
  | .group a, prev, s, next => a.Matches prev s next
  | .boundary word, prev, s, next => s = [] ∧ (prev.any word != next.any word) = true

/-- The last character of `s`, or the one before it. -/
theorem getLast?_append_or (s t : List α) (prev : Option α) :
    (s ++ t).getLast?.or prev = t.getLast?.or (s.getLast?.or prev) := by
  rw [List.getLast?_append, Option.or_assoc]

/-- Inside a text that is not empty the characters around it are not seen. -/
theorem getLast?_or {s : List α} (hs : s ≠ []) (prev : Option α) : s.getLast?.or prev = s.getLast? := by
  rw [List.getLast?_eq_some_getLast hs, Option.some_or]

theorem head?_or {s : List α} (hs : s ≠ []) (next : Option α) : s.head?.or next = s.head? := by
  rw [List.head?_eq_some_head hs, Option.some_or]

/-! ## The matcher -/

/-- The continuation succeeds behind `prev` and before `t`, whatever the groups are. -/
def Blind (k : Pos α → Option β) : Prop :=
  ∀ prev t g, (k ⟨prev, t, g⟩).isSome = (k ⟨prev, t, []⟩).isSome

/-- Some text of `R` starts at `p`, and `k` goes on behind it. -/
def Reads (R : Option α → List α → Option α → Prop) (k : Pos α → Option β) (p : Pos α) : Prop :=
  ∃ s t, p.rest = s ++ t ∧ R p.prev s t.head? ∧ (k ⟨s.getLast?.or p.prev, t, []⟩).isSome = true

section Exec

variable {k : Pos α → Option β} {R : Option α → List α → Option α → Prop}

/-- What runs as `R` says does not look at the groups. -/
theorem blind_of_reads {run : Pos α → Option β} (h : ∀ p, (run p).isSome = true ↔ Reads R k p) :
    Blind run := by
  intro prev t g
  rw [Bool.eq_iff_iff, h, h]
  rfl

/-- To read nothing is to go on from where one is. -/
theorem reads_nil (hk : Blind k) (hR : ∀ {prev s next}, R prev s next → s = []) (p : Pos α) :
    Reads R k p ↔ R p.prev [] p.rest.head? ∧ (k p).isSome = true := by
  have hsame : (k ⟨p.prev, p.rest, []⟩).isSome = (k p).isSome := (hk p.prev p.rest p.groups).symm
  constructor
  · rintro ⟨s, t, hrest, hread, hend⟩
    cases hR hread
    cases (hrest : p.rest = t)
    rw [List.getLast?_nil, Option.none_or, hsame] at hend
    exact ⟨hread, hend⟩
  · rintro ⟨hread, hend⟩
    exact ⟨[], p.rest, rfl, hread, by rwa [List.getLast?_nil, Option.none_or, hsame]⟩

/-- The rounds of a star, greedy or lazy: `run n` makes at most `n` of them. -/
theorem rounds_reads {body : (Pos α → Option β) → Pos α → Option β} (run : Nat → Pos α → Option β)
    (hk : Blind k)
    (hbody : ∀ {k : Pos α → Option β}, Blind k → ∀ p, (body k p).isSome = true ↔ Reads R k p)
    (hzero : ∀ p, run 0 p = k p)
    (hsucc : ∀ n p, (run (n + 1) p).isSome = true ↔
      (body (fun q => if q.rest.length < p.rest.length then run n q else none) p).isSome = true ∨
        (k p).isSome = true)
    (n : Nat) (p : Pos α) (hn : p.rest.length ≤ n) :
    (run n p).isSome = true ↔ Reads (Rounds R) k p := by
  have hstop : ∀ p : Pos α, (k p).isSome = true → Reads (Rounds R) k p := by
    intro p h
    obtain ⟨s, t, hrest, rfl, hend⟩ :=
      (reads_nil (R := fun _ s _ => s = []) hk (fun h => h) p).mpr ⟨rfl, h⟩
    exact ⟨[], t, hrest, .nil, hend⟩
  have hnil : ∀ {p : Pos α} {t}, p.rest = t → (k ⟨p.prev, t, []⟩).isSome = true →
      (k p).isSome = true := by
    rintro p t rfl h
    rwa [← hk p.prev p.rest p.groups] at h
  induction n generalizing p with
  | zero =>
    rw [hzero]
    refine ⟨hstop p, ?_⟩
    rintro ⟨s, t, hrest, -, hend⟩
    have hlen := congrArg List.length hrest
    rw [List.length_append] at hlen
    obtain rfl : s = [] := List.eq_nil_of_length_eq_zero (by omega)
    exact hnil hrest hend
  | succ n ih =>
    have hnext : Blind fun q => if q.rest.length < p.rest.length then run n q else none := by
      intro prev t g
      by_cases ht : t.length < p.rest.length
      · have htn : t.length ≤ n := by omega
        simp only [if_pos ht]
        have hreads := ih ⟨prev, t, []⟩ htn
        exact Bool.eq_iff_iff.mpr ((ih ⟨prev, t, g⟩ htn).trans hreads.symm)
      · simp only [if_neg ht]
    rw [hsucc, hbody hnext]
    constructor
    · rintro (⟨s, t, hrest, hround, hrun⟩ | h)
      · -- one round, and the rounds behind it
        have ht : t.length < p.rest.length := by
          by_contra hlt
          simp only [if_neg hlt] at hrun
          cases hrun
        simp only [if_pos ht] at hrun
        have htn : t.length ≤ n := by omega
        obtain ⟨s', t', ht', hrounds, hend⟩ := (ih ⟨_, t, []⟩ htn).mp hrun
        obtain rfl : t = s' ++ t' := ht'
        have hs : s ≠ [] := by
          rintro rfl
          rw [hrest] at ht
          exact Nat.lt_irrefl _ ht
        rw [List.head?_append] at hround
        refine ⟨s ++ s', t', by rw [hrest, List.append_assoc], .cons hs hround hrounds, ?_⟩
        rwa [getLast?_append_or]
      · exact hstop p h
    · rintro ⟨s, t, hrest, hrounds, hend⟩
      cases hrounds with
      | nil => exact .inr (hnil hrest hend)
      | @cons _ _ u v hu hround hrest' =>
        left
        rw [List.append_assoc] at hrest
        have hpos := List.length_pos_iff.mpr hu
        have hlen := congrArg List.length hrest
        rw [List.length_append] at hlen
        have hv : (v ++ t).length < p.rest.length := by omega
        have hvn : (v ++ t).length ≤ n := by omega
        rw [← List.head?_append] at hround
        refine ⟨u, v ++ t, hrest, hround, ?_⟩
        simp only [if_pos hv]
        refine (ih ⟨_, v ++ t, []⟩ hvn).mpr ⟨v, t, rfl, hrest', ?_⟩
        rwa [← getLast?_append_or]

/-- The matcher finds an end exactly where a text of the expression starts. -/
theorem exec_isSome_iff (r : Regex α) {k : Pos α → Option β} (hk : Blind k) (p : Pos α) :
    (r.exec k p).isSome = true ↔ Reads r.Matches k p := by
  induction r generalizing k p with
  | eps =>
    rw [reads_nil (R := eps.Matches) hk fun h => h]
    exact (and_iff_right rfl).symm
  | chr c =>
    obtain ⟨prev, rest, g⟩ := p
    constructor
    · intro h
      cases rest with
      | nil => cases h
      | cons x xs =>
        by_cases hx : c x = true
        · rw [exec_chr_cons hx, hk] at h
          exact ⟨[x], xs, rfl, ⟨x, rfl, hx⟩, h⟩
        · rw [exec_chr_eq_none (by simpa using hx)] at h
          cases h
    · rintro ⟨s, t, hrest, ⟨x, rfl, hx⟩, hend⟩
      cases (hrest : rest = x :: t)
      rw [exec_chr_cons hx, hk]
      exact hend
  | seq a b iha ihb =>
    rw [exec, iha (blind_of_reads (ihb hk))]
    constructor
    · rintro ⟨u, t, hrest, hu, hend⟩
      obtain ⟨v, t', ht, hv, hend⟩ := (ihb hk _).mp hend
      obtain rfl : t = v ++ t' := ht
      rw [List.head?_append] at hu
      refine ⟨u ++ v, t', by rw [hrest, List.append_assoc], ⟨u, v, rfl, hu, hv⟩, ?_⟩
      rwa [getLast?_append_or]
    · rintro ⟨s, t, hrest, ⟨u, v, rfl, hu, hv⟩, hend⟩
      rw [List.append_assoc] at hrest
      rw [← List.head?_append] at hu
      refine ⟨u, v ++ t, hrest, hu, (ihb hk _).mpr ⟨v, t, rfl, hv, ?_⟩⟩
      rwa [← getLast?_append_or]
  | alt a b iha ihb =>
    rw [exec, Option.isSome_or, Bool.or_eq_true, iha hk, ihb hk]
    constructor
    · rintro (⟨s, t, hrest, h, hend⟩ | ⟨s, t, hrest, h, hend⟩)
      · exact ⟨s, t, hrest, .inl h, hend⟩
      · exact ⟨s, t, hrest, .inr h, hend⟩
    · rintro ⟨s, t, hrest, h | h, hend⟩
      · exact .inl ⟨s, t, hrest, h, hend⟩
      · exact .inr ⟨s, t, hrest, h, hend⟩
  | star a ih =>
    refine rounds_reads (loop a.exec k) hk ih (fun _ => rfl) (fun n p => ?_) _ p le_rfl
    rw [loop, Option.isSome_or, Bool.or_eq_true]
  | lazyStar a ih =>
    refine rounds_reads (lazyLoop a.exec k) hk ih (fun _ => rfl) (fun n p => ?_) _ p le_rfl
    rw [lazyLoop, Option.isSome_or, Bool.or_eq_true, or_comm]
  | group a ih =>
    have hopen : Blind fun q => k { q with
        groups := q.groups ++ [p.rest.take (p.rest.length - q.rest.length)] } := by
      intro prev t g
      rw [hk, hk _ _ ([] ++ _)]
    rw [exec, ih hopen]
    refine exists_congr fun s => exists_congr fun t => and_congr_right fun _ => and_congr_right fun _ => ?_
    rw [hk]
  | boundary word =>
    rw [reads_nil (R := (boundary word).Matches) hk And.left]
    unfold exec
    by_cases hword : (p.prev.any word != p.rest.head?.any word) = true
    · rw [if_pos hword]
      exact (and_iff_right ⟨rfl, hword⟩).symm
    · rw [if_neg hword]
      exact iff_of_false Bool.false_ne_true fun h => hword h.1.2

end Exec

theorem blind_some : Blind (some : Pos α → Option (Pos α)) := fun _ _ _ => rfl

theorem searchFrom_isSome_iff (r : Regex α) (prev : Option α) (s : List α) :
    (searchFrom r prev s).isSome = true ↔ ∃ before m after, s = before ++ m ++ after ∧
      r.Matches (before.getLast?.or prev) m after.head? := by
  have hhere : ∀ (prev : Option α) (s : List α), (r.exec some ⟨prev, s, []⟩).isSome = true ↔
      ∃ m after, s = m ++ after ∧ r.Matches prev m after.head? := by
    intro prev s
    rw [exec_isSome_iff r blind_some]
    exact exists_congr fun m => exists_congr fun after => and_congr_right fun _ => and_iff_left rfl
  induction s generalizing prev with
  | nil =>
    rw [searchFrom, hhere]
    constructor
    · rintro ⟨m, after, hs, hm⟩
      exact ⟨[], m, after, hs, hm⟩
    · rintro ⟨before, m, after, hs, hm⟩
      obtain ⟨hm', rfl⟩ := List.append_eq_nil_iff.mp hs.symm
      obtain ⟨rfl, rfl⟩ := List.append_eq_nil_iff.mp hm'
      exact ⟨[], [], rfl, hm⟩
  | cons x xs ih =>
    rw [searchFrom, Option.isSome_or, Bool.or_eq_true]
    refine (or_congr (hhere prev (x :: xs)) (ih (some x))).trans ?_
    constructor
    · rintro (⟨m, after, hs, hm⟩ | ⟨before, m, after, rfl, hm⟩)
      · exact ⟨[], m, after, hs, hm⟩
      · refine ⟨x :: before, m, after, rfl, ?_⟩
        rwa [← List.singleton_append, getLast?_append_or]
    · rintro ⟨before, m, after, hs, hm⟩
      cases before with
      | nil => exact .inl ⟨m, after, hs, hm⟩
      | cons y before =>
        obtain ⟨rfl, rfl⟩ := List.cons.inj hs
        rw [← List.singleton_append, getLast?_append_or] at hm
        exact .inr ⟨before, m, after, rfl, hm⟩

/-- A search succeeds exactly when some part of the text is read between its neighbours. -/
theorem search_isSome_iff (r : Regex α) (s : List α) :
    (r.search s).isSome = true ↔ ∃ before m after, s = before ++ m ++ after ∧
      r.Matches before.getLast? m after.head? := by
  rw [search, searchFrom_isSome_iff]
  simp only [Option.or_none]

/-! ## The texts of the usual expressions -/

section Texts

variable {prev next : Option α} {s : List α} {c : α → Bool} {a b : Regex α}

theorem matches_lit [DecidableEq α] {w : List α} : (lit w).Matches prev s next ↔ s = w := by
  induction w generalizing prev s with
  | nil => rfl
  | cons x w ih =>
    constructor
    · rintro ⟨u, v, rfl, ⟨y, rfl, hy⟩, hv⟩
      rw [ih.mp hv, beq_iff_eq.mp hy]
      rfl
    · rintro rfl
      exact ⟨[x], w, rfl, ⟨x, rfl, beq_self_eq_true x⟩, ih.mpr rfl⟩

theorem matches_opt : (opt a).Matches prev s next ↔ a.Matches prev s next ∨ s = [] := Iff.rfl

theorem matches_star_chr : (star (chr c)).Matches prev s next ↔ ∀ x ∈ s, c x = true := by
  constructor
  · intro h
    change Rounds (chr c).Matches prev s next at h
    induction h with
    | nil => simp
    | cons hs hround _ ih =>
      obtain ⟨x, rfl, hx⟩ := hround
      exact List.forall_mem_cons.mpr ⟨hx, ih⟩
  · intro h
    change Rounds (chr c).Matches prev s next
    induction s generalizing prev with
    | nil => exact .nil
    | cons x s ih =>
      obtain ⟨hx, hs⟩ := List.forall_mem_cons.mp h
      exact .cons (s := [x]) (by simp) ⟨x, rfl, hx⟩ (ih hs)

/-- `a` at least `n` times. -/
def atLeast (a : Regex α) : Nat → Regex α
  | 0 => .star a
  | n + 1 => .seq a (atLeast a n)

theorem matches_atLeast_chr {n : Nat} :
    ((chr c).atLeast n).Matches prev s next ↔ n ≤ s.length ∧ ∀ x ∈ s, c x = true := by
  induction n generalizing prev s with
  | zero =>
    rw [atLeast, matches_star_chr]
    simp
  | succ n ih =>
    constructor
    · rintro ⟨u, v, rfl, ⟨x, rfl, hx⟩, hv⟩
      obtain ⟨hlen, hall⟩ := ih.mp hv
      exact ⟨by simpa using hlen, List.forall_mem_cons.mpr ⟨hx, hall⟩⟩
    · rintro ⟨hlen, hall⟩
      cases s with
      | nil => cases hlen
      | cons x s =>
        obtain ⟨hx, hs⟩ := List.forall_mem_cons.mp hall
        exact ⟨[x], s, rfl, ⟨x, rfl, hx⟩, ih.mpr ⟨by simpa using hlen, hs⟩⟩

/-- One character of a class for each of the list. -/
def classes : List (α → Bool) → Regex α
  | [] => .eps
  | c :: cs => .seq (.chr c) (classes cs)

theorem matches_classes {cs : List (α → Bool)} :
    (classes cs).Matches prev s next ↔ List.Forall₂ (fun c x => c x = true) cs s := by
  induction cs generalizing prev s with
  | nil =>
    rw [List.forall₂_nil_left_iff]
    rfl
  | cons c cs ih =>
    rw [List.forall₂_cons_left_iff]
    constructor
    · rintro ⟨u, v, rfl, ⟨x, rfl, hx⟩, hv⟩
      exact ⟨x, v, hx, ih.mp hv, rfl⟩
    · rintro ⟨x, v, hx, hv, rfl⟩
      exact ⟨[x], v, rfl, ⟨x, rfl, hx⟩, ih.mpr hv⟩

end Texts

end Regex
