import Mathlib

/-!
# Backtracking regular expressions

The regular expressions of Python's `re`, over an arbitrary alphabet, with the order of
its backtracking: alternatives from left to right, a greedy star takes one more round
before it stops and a lazy star stops before it takes one more. `exec r k p` runs `r` at
position `p` and hands every end position, in that order, to the continuation `k` until
one succeeds.

* `matchStart` is `re.match`, `search` is `re.search` (both give the end position) and
  `erase` is `re.sub` with an empty replacement.
* `exec_lit` and `exec_plus_chr` say where a literal and a greedy run of one class end.
-/

/-- A regular expression over the alphabet `α`. -/
inductive Regex (α : Type) where
  | eps
  | chr (p : α → Bool)
  | seq (a b : Regex α)
  | alt (a b : Regex α)
  | star (a : Regex α)
  | lazyStar (a : Regex α)
  | group (a : Regex α)
  | boundary (word : α → Bool)

namespace Regex

variable {α β : Type}

/-- Where a match stands: the character before, the text ahead and the groups closed so
far, in the order they closed. -/
structure Pos (α : Type) where
  prev : Option α
  rest : List α
  groups : List (List α)
deriving DecidableEq, Repr

/-- Rounds of a greedy star; a round that consumes nothing is not repeated. -/
def loop (body : (Pos α → Option β) → Pos α → Option β) (k : Pos α → Option β) :
    Nat → Pos α → Option β
  | 0, p => k p
  | n + 1, p =>
    (body (fun q => if q.rest.length < p.rest.length then loop body k n q else none) p).or (k p)

/-- Rounds of a lazy star. -/
def lazyLoop (body : (Pos α → Option β) → Pos α → Option β) (k : Pos α → Option β) :
    Nat → Pos α → Option β
  | 0, p => k p
  | n + 1, p =>
    (k p).or (body (fun q => if q.rest.length < p.rest.length then lazyLoop body k n q else none) p)

def exec : Regex α → (Pos α → Option β) → Pos α → Option β
  | .eps, k, p => k p
  | .chr c, k, p => match p.rest with
    | [] => none
    | x :: xs => if c x then k { p with prev := some x, rest := xs } else none
  | .seq a b, k, p => a.exec (b.exec k) p
  | .alt a b, k, p => (a.exec k p).or (b.exec k p)
  -- a round consumes at least one character, so the text ahead bounds the rounds
  | .star a, k, p => loop a.exec k p.rest.length p
  | .lazyStar a, k, p => lazyLoop a.exec k p.rest.length p
  | .group a, k, p =>
    a.exec (fun q =>
      k { q with groups := q.groups ++ [p.rest.take (p.rest.length - q.rest.length)] }) p
  | .boundary word, k, p => if p.prev.any word != p.rest.head?.any word then k p else none

def plus (a : Regex α) : Regex α := .seq a (.star a)

def opt (a : Regex α) : Regex α := .alt a .eps

/-- The literal text `s`. -/
def lit [DecidableEq α] : List α → Regex α
  | [] => .eps
  | c :: cs => .seq (.chr fun x => x == c) (lit cs)

/-- `re.match`: the end of the first match at the start of `s`. -/
def matchStart (r : Regex α) (s : List α) : Option (Pos α) := r.exec some ⟨none, s, []⟩

def searchFrom (r : Regex α) : Option α → List α → Option (Pos α)
  | prev, [] => r.exec some ⟨prev, [], []⟩
  | prev, x :: xs => (r.exec some ⟨prev, x :: xs, []⟩).or (searchFrom r (some x) xs)

/-- `re.search`: the end of the leftmost match in `s`. -/
def search (r : Regex α) (s : List α) : Option (Pos α) := searchFrom r none s

def eraseFrom (r : Regex α) : Nat → Option α → List α → List α
  | 0, _, s => s
  | _ + 1, _, [] => []
  | n + 1, prev, x :: xs => match r.exec some ⟨prev, x :: xs, []⟩ with
    | some q =>
      if q.rest.length ≤ xs.length then eraseFrom r n q.prev q.rest
      else x :: eraseFrom r n (some x) xs
    | none => x :: eraseFrom r n (some x) xs

/-- `re.sub(r, "", s)`: `s` without the leftmost non-overlapping matches. -/
def erase (r : Regex α) (s : List α) : List α := eraseFrom r s.length none s

/-! ## Where a match ends

The continuation below does not look at the character before its position (only a
word boundary does), so it is assumed to give the same result for every such character. -/

theorem exec_chr_cons {c : α → Bool} {x : α} (h : c x = true) (xs : List α) (g : List (List α))
    (k : Pos α → Option β) (prev : Option α) :
    (Regex.chr c).exec k ⟨prev, x :: xs, g⟩ = k ⟨some x, xs, g⟩ := by
  simp [exec, h]

theorem exec_lit [DecidableEq α] {s t : List α} {g : List (List α)} {k : Pos α → Option β}
    {b : Option β} (hk : ∀ prev, k ⟨prev, t, g⟩ = b) (prev : Option α) :
    (lit s).exec k ⟨prev, s ++ t, g⟩ = b := by
  induction s generalizing prev with
  | nil => exact hk prev
  | cons c cs ih => simpa [lit, exec] using ih (some c)

/-- A literal of two characters looks two characters ahead. -/
theorem exec_lit_pair [DecidableEq α] {a b x : α} {xs : List α} {g : List (List α)}
    (k : Pos α → Option β) (prev : Option α) : (lit [a, b]).exec k ⟨prev, x :: xs, g⟩
      = if x == a && xs.head? == some b then k ⟨some b, xs.tail, g⟩ else none := by
  by_cases hx : x = a
  · subst hx
    cases xs with
    | nil => simp [lit, exec]
    | cons y ys =>
      by_cases hy : y = b
      · subst hy
        simp [lit, exec]
      · simp [lit, exec, hy]
  · simp [lit, exec, hx]

/-- A literal does not match a text with another first character. -/
theorem exec_lit_eq_none [DecidableEq α] {c : α} {cs s : List α} {g : List (List α)}
    {k : Pos α → Option β} (h : s.head? ≠ some c) (prev : Option α) :
    (lit (c :: cs)).exec k ⟨prev, s, g⟩ = none := by
  cases s with
  | nil => rfl
  | cons x xs =>
    have hx : x ≠ c := fun hxc => h (by rw [hxc]; rfl)
    simp [lit, exec, hx]

/-- A class does not match where the text ahead does not start with one of its characters. -/
theorem exec_chr_eq_none {c : α → Bool} {s : List α} {g : List (List α)} {k : Pos α → Option β}
    (h : s.head?.any c = false) (prev : Option α) : (Regex.chr c).exec k ⟨prev, s, g⟩ = none := by
  cases s with
  | nil => rfl
  | cons x xs =>
    have hx : c x = false := h
    simp [exec, hx]

theorem loop_chr {c : α → Bool} {ds rest : List α} {g : List (List α)} {k : Pos α → Option β}
    {b : β} (hds : ∀ x ∈ ds, c x = true) (hrest : rest.head?.any c = false)
    (hk : ∀ prev, k ⟨prev, rest, g⟩ = some b) (n : Nat) (hn : ds.length ≤ n) (prev : Option α) :
    loop (Regex.chr c).exec k n ⟨prev, ds ++ rest, g⟩ = some b := by
  induction ds generalizing n prev with
  | nil =>
    cases n with
    | zero => exact hk prev
    | succ n =>
      rw [loop, List.nil_append, exec_chr_eq_none hrest, Option.none_or, hk]
  | cons d ds ih =>
    obtain ⟨m, rfl⟩ : ∃ m, n = m + 1 := ⟨n - 1, by simp at hn; omega⟩
    have hrec := ih (fun x hx => hds x (by simp [hx])) m (by simpa using hn) (some d)
    rw [loop, List.cons_append, exec_chr_cons (hds d (by simp)), if_pos (by simp), hrec,
      Option.some_or]

/-- A greedy run of one class ends where the class does. -/
theorem exec_plus_chr {c : α → Bool} {ds rest : List α} {g : List (List α)}
    {k : Pos α → Option β} {b : β} (hne : ds ≠ []) (hds : ∀ x ∈ ds, c x = true)
    (hrest : rest.head?.any c = false) (hk : ∀ prev, k ⟨prev, rest, g⟩ = some b)
    (prev : Option α) : (plus (.chr c)).exec k ⟨prev, ds ++ rest, g⟩ = some b := by
  cases ds with
  | nil => exact absurd rfl hne
  | cons d ds =>
    have hds' : ∀ x ∈ ds, c x = true := fun x hx => hds x (by simp [hx])
    rw [plus, exec, List.cons_append, exec_chr_cons (hds d (by simp)), exec]
    exact loop_chr hds' hrest hk (ds ++ rest).length (by simp) (some d)

/-- The group around such a run holds its text. -/
theorem exec_group_plus_chr {c : α → Bool} {ds rest : List α} {g : List (List α)}
    {k : Pos α → Option β} {b : β} (hne : ds ≠ []) (hds : ∀ x ∈ ds, c x = true)
    (hrest : rest.head?.any c = false) (hk : ∀ prev, k ⟨prev, rest, g ++ [ds]⟩ = some b)
    (prev : Option α) :
    (group (plus (.chr c))).exec k ⟨prev, ds ++ rest, g⟩ = some b := by
  rw [exec]
  refine exec_plus_chr hne hds hrest (fun q => ?_) prev
  simpa using hk q

theorem exec_opt_of_some {a : Regex α} {k : Pos α → Option β} {p : Pos α} {b : β}
    (h : a.exec k p = some b) : (opt a).exec k p = some b := by
  rw [opt, exec, h, Option.some_or]

/-! ## What a match leaves -/

theorem loop_map {γ : Type} {a : Regex α} (h : β → γ)
    (ha : ∀ (k : Pos α → Option β) p, (a.exec k p).map h = a.exec (fun q => (k q).map h) p)
    (k : Pos α → Option β) (n : Nat) (p : Pos α) :
    (loop a.exec k n p).map h = loop a.exec (fun q => (k q).map h) n p := by
  induction n generalizing p with
  | zero => rfl
  | succ n ih =>
    rw [loop, loop, Option.map_or, ha]
    congr 2
    funext q
    split
    · exact ih q
    · rfl

theorem lazyLoop_map {γ : Type} {a : Regex α} (h : β → γ)
    (ha : ∀ (k : Pos α → Option β) p, (a.exec k p).map h = a.exec (fun q => (k q).map h) p)
    (k : Pos α → Option β) (n : Nat) (p : Pos α) :
    (lazyLoop a.exec k n p).map h = lazyLoop a.exec (fun q => (k q).map h) n p := by
  induction n generalizing p with
  | zero => rfl
  | succ n ih =>
    rw [lazyLoop, lazyLoop, Option.map_or, ha]
    congr 2
    funext q
    split
    · exact ih q
    · rfl

/-- What is done to the result may as well be done in the continuation. -/
theorem exec_map {γ : Type} (r : Regex α) (h : β → γ) (k : Pos α → Option β) (p : Pos α) :
    (r.exec k p).map h = r.exec (fun q => (k q).map h) p := by
  induction r generalizing k p with
  | eps => rfl
  | chr c =>
    unfold exec
    split
    · rfl
    · split <;> rfl
  | seq a b iha ihb =>
    rw [exec, exec, iha]
    congr 1
    funext q
    exact ihb k q
  | alt a b iha ihb => rw [exec, exec, Option.map_or, iha, ihb]
  | star a ih => exact loop_map h ih k _ p
  | lazyStar a ih => exact lazyLoop_map h ih k _ p
  | group a ih => rw [exec, exec, ih]
  | boundary word =>
    unfold exec
    split <;> rfl

/-- The text behind the match of `r` at the start of `s`. -/
def behind (r : Regex α) (prev : Option α) (s : List α) : Option (List α) :=
  r.exec (fun q => some q.rest) ⟨prev, s, []⟩

theorem exec_some_map (r : Regex α) (prev : Option α) (s : List α) :
    (r.exec some ⟨prev, s, []⟩).map Pos.rest = r.behind prev s := r.exec_map Pos.rest some _

/-- `erase` for a pattern of which only the text behind its match is known. -/
def eraseWith (f : List α → Option (List α)) : Nat → List α → List α
  | 0, s => s
  | _ + 1, [] => []
  | n + 1, x :: xs => match f (x :: xs) with
    | some rest =>
      if rest.length ≤ xs.length then eraseWith f n rest else x :: eraseWith f n xs
    | none => x :: eraseWith f n xs

section Erase

variable {r : Regex α} {f : List α → Option (List α)} (hf : ∀ prev s, r.behind prev s = f s)
include hf

theorem eraseFrom_eq (n : Nat) (prev : Option α) (s : List α) :
    eraseFrom r n prev s = eraseWith f n s := by
  induction n generalizing prev s with
  | zero => rfl
  | succ n ih =>
    cases s with
    | nil => rfl
    | cons x xs =>
      rw [eraseFrom, eraseWith, ← hf prev, ← exec_some_map]
      cases r.exec some ⟨prev, x :: xs, []⟩ with
      | none => exact congrArg (x :: ·) (ih _ _)
      | some q =>
        show (if q.rest.length ≤ xs.length then eraseFrom r n q.prev q.rest
          else x :: eraseFrom r n (some x) xs) = _
        rw [ih, ih]
        rfl

omit hf in
theorem eraseWith_eq {n : Nat} {s : List α} (hn : s.length ≤ n) :
    eraseWith f n s = eraseWith f s.length s := by
  induction n using Nat.strong_induction_on generalizing s with
  | _ n ih =>
    cases s with
    | nil => cases n <;> rfl
    | cons x xs =>
      obtain ⟨m, rfl⟩ : ∃ m, n = m + 1 := ⟨n - 1, by simp at hn; omega⟩
      have hm : xs.length ≤ m := by simpa using hn
      have hxs := ih m (Nat.lt_succ_self m) hm
      have hstep : ∀ k, xs.length ≤ k → k ≤ m → eraseWith f (k + 1) (x :: xs) =
          match f (x :: xs) with
          | some rest => if rest.length ≤ xs.length then eraseWith f rest.length rest
            else x :: eraseWith f xs.length xs
          | none => x :: eraseWith f xs.length xs := by
        intro k hk hkm
        have hlt : k < m + 1 := by omega
        rw [eraseWith, ih k hlt hk]
        cases f (x :: xs) with
        | none => rfl
        | some rest =>
          simp only
          split
          · next hrest => exact ih k hlt (hrest.trans hk)
          · rfl
      rw [hstep m hm le_rfl, List.length_cons, hstep xs.length le_rfl hm]

theorem erase_of_some {x : α} {xs rest : List α} (h : f (x :: xs) = some rest)
    (hrest : rest.length ≤ xs.length) : erase r (x :: xs) = erase r rest := by
  rw [erase, erase, eraseFrom_eq hf, eraseFrom_eq hf, List.length_cons, eraseWith, h]
  show (if rest.length ≤ xs.length then eraseWith f xs.length rest else _) = _
  rw [if_pos hrest, eraseWith_eq hrest]

theorem erase_of_none {x : α} {xs : List α} (h : f (x :: xs) = none) :
    erase r (x :: xs) = x :: erase r xs := by
  rw [erase, erase, eraseFrom_eq hf, eraseFrom_eq hf, List.length_cons, eraseWith, h]

end Erase

/-! ## What a search finds -/

theorem searchFrom_eq_none {r : Regex α} {prev : Option α} {s : List α}
    (h : searchFrom r prev s = none) {before after : List α} (hs : s = before ++ after) :
    r.behind (before.getLast?.or prev) after = none := by
  induction s generalizing prev before with
  | nil =>
    obtain ⟨rfl, rfl⟩ := List.append_eq_nil_iff.mp hs.symm
    rw [← exec_some_map, List.getLast?_nil, Option.none_or, show r.exec some ⟨prev, [], []⟩ = none from h]
    rfl
  | cons x xs ih =>
    rw [searchFrom, Option.or_eq_none_iff] at h
    cases before with
    | nil =>
      rw [← exec_some_map, List.getLast?_nil, Option.none_or, ← List.nil_append after, ← hs, h.1]
      rfl
    | cons y before =>
      obtain ⟨rfl, hxs⟩ := List.cons.inj hs
      have hrest := ih h.2 hxs
      cases before with
      | nil => exact hrest
      | cons z zs =>
        rw [List.getLast?_cons_cons]
        rwa [show (List.getLast? (z :: zs)).or (some x) = (List.getLast? (z :: zs)).or prev by
          rw [List.getLast?_cons]; rfl] at hrest

theorem searchFrom_eq_some {r : Regex α} {prev : Option α} {s : List α} {q : Pos α}
    (h : searchFrom r prev s = some q) : ∃ before after, s = before ++ after ∧
      r.behind (before.getLast?.or prev) after = some q.rest := by
  induction s generalizing prev with
  | nil => exact ⟨[], [], rfl, by rw [← exec_some_map]; exact congrArg (Option.map Pos.rest) h⟩
  | cons x xs ih =>
    rw [searchFrom] at h
    rcases Option.or_eq_some_iff.mp h with hx | ⟨-, hxs⟩
    · exact ⟨[], x :: xs, rfl, by rw [← exec_some_map]; exact congrArg (Option.map Pos.rest) hx⟩
    · obtain ⟨before, after, rfl, hq⟩ := ih hxs
      refine ⟨x :: before, after, rfl, ?_⟩
      cases before with
      | nil => exact hq
      | cons z zs =>
        rw [List.getLast?_cons_cons]
        rwa [show (List.getLast? (z :: zs)).or (some x) = (List.getLast? (z :: zs)).or prev by
          rw [List.getLast?_cons]; rfl] at hq

/-! ## What a group holds -/

/-- `r` consumes characters of the class `c` only. -/
def Over (c : α → Bool) : Regex α → Prop
  | .eps => True
  | .chr d => ∀ x, d x = true → c x = true
  | .seq a b => a.Over c ∧ b.Over c
  | .alt a b => a.Over c ∧ b.Over c
  | .star a => a.Over c
  | .lazyStar a => a.Over c
  | .group a => a.Over c
  | .boundary _ => True

/-- The groups of `r` consume characters of the class `c` only. -/
def GroupsOver (c : α → Bool) : Regex α → Prop
  | .eps => True
  | .chr _ => True
  | .seq a b => a.GroupsOver c ∧ b.GroupsOver c
  | .alt a b => a.GroupsOver c ∧ b.GroupsOver c
  | .star a => a.GroupsOver c
  | .lazyStar a => a.GroupsOver c
  | .group a => a.Over c ∧ a.GroupsOver c
  | .boundary _ => True

/-- From `p` to `q` some text is consumed and some groups are closed; under `O` the text and
under `G` the groups are of the class `c`. -/
def Moves (c : α → Bool) (O G : Prop) (p q : Pos α) : Prop :=
  ∃ ds gs, p.rest = ds ++ q.rest ∧ q.groups = p.groups ++ gs ∧ (O → ∀ x ∈ ds, c x = true) ∧
    (G → ∀ g ∈ gs, ∀ x ∈ g, c x = true)

section Groups

variable {c : α → Bool} {O O' G G' : Prop} {p q r : Pos α}

theorem Moves.refl (p : Pos α) : Moves c O G p p := ⟨[], [], rfl, by simp, by simp, by simp⟩

theorem Moves.trans (h : Moves c O G p q) (h' : Moves c O G q r) : Moves c O G p r := by
  obtain ⟨ds, gs, hrest, hgroups, hds, hgs⟩ := h
  obtain ⟨ds', gs', hrest', hgroups', hds', hgs'⟩ := h'
  refine ⟨ds ++ ds', gs ++ gs', ?_, ?_, fun hO => ?_, fun hG => ?_⟩
  · rw [hrest, hrest', List.append_assoc]
  · rw [hgroups', hgroups, List.append_assoc]
  · exact List.forall_mem_append.mpr ⟨hds hO, hds' hO⟩
  · exact List.forall_mem_append.mpr ⟨hgs hG, hgs' hG⟩

theorem Moves.mono (h : Moves c O G p q) (hO : O' → O) (hG : G' → G) : Moves c O' G' p q := by
  obtain ⟨ds, gs, hrest, hgroups, hds, hgs⟩ := h
  exact ⟨ds, gs, hrest, hgroups, fun h => hds (hO h), fun h => hgs (hG h)⟩

theorem loop_moves {body : (Pos α → Option β) → Pos α → Option β} {k : Pos α → Option β} {b : β}
    (hbody : ∀ {k p}, body k p = some b → ∃ q, Moves c O G p q ∧ k q = some b) (n : Nat)
    (h : loop body k n p = some b) : ∃ q, Moves c O G p q ∧ k q = some b := by
  induction n generalizing p with
  | zero => exact ⟨p, .refl p, h⟩
  | succ n ih =>
    rcases Option.or_eq_some_iff.mp h with hround | ⟨-, hstop⟩
    · obtain ⟨q, hq, hnext⟩ := hbody hround
      split at hnext
      · obtain ⟨r, hr, hk⟩ := ih hnext
        exact ⟨r, hq.trans hr, hk⟩
      · cases hnext
    · exact ⟨p, .refl p, hstop⟩

theorem lazyLoop_moves {body : (Pos α → Option β) → Pos α → Option β} {k : Pos α → Option β}
    {b : β} (hbody : ∀ {k p}, body k p = some b → ∃ q, Moves c O G p q ∧ k q = some b) (n : Nat)
    (h : lazyLoop body k n p = some b) : ∃ q, Moves c O G p q ∧ k q = some b := by
  induction n generalizing p with
  | zero => exact ⟨p, .refl p, h⟩
  | succ n ih =>
    rcases Option.or_eq_some_iff.mp h with hstop | ⟨-, hround⟩
    · exact ⟨p, .refl p, hstop⟩
    · obtain ⟨q, hq, hnext⟩ := hbody hround
      split at hnext
      · obtain ⟨r, hr, hk⟩ := ih hnext
        exact ⟨r, hq.trans hr, hk⟩
      · cases hnext

/-- A successful run hands an end position of `r` to its continuation. -/
theorem exec_moves (r : Regex α) {k : Pos α → Option β} {p : Pos α} {b : β}
    (h : r.exec k p = some b) : ∃ q, Moves c (r.Over c) (r.GroupsOver c) p q ∧ k q = some b := by
  induction r generalizing k p with
  | eps => exact ⟨p, .refl p, h⟩
  | chr d =>
    obtain ⟨prev, rest, groups⟩ := p
    cases rest with
    | nil => cases h
    | cons x xs =>
      by_cases hx : d x = true
      · rw [exec_chr_cons hx] at h
        refine ⟨⟨some x, xs, groups⟩, ⟨[x], [], rfl, (List.append_nil _).symm, fun hover => ?_,
          by simp⟩, h⟩
        exact List.forall_mem_singleton.mpr (hover x hx)
      · rw [exec_chr_eq_none (by simpa using hx)] at h
        cases h
  | seq a b iha ihb =>
    obtain ⟨q, hq, h⟩ := iha h
    obtain ⟨r, hr, hk⟩ := ihb h
    exact ⟨r, (hq.mono And.left And.left).trans (hr.mono And.right And.right), hk⟩
  | alt a b iha ihb =>
    rcases Option.or_eq_some_iff.mp h with ha | ⟨-, hb⟩
    · obtain ⟨q, hq, hk⟩ := iha ha
      exact ⟨q, hq.mono And.left And.left, hk⟩
    · obtain ⟨q, hq, hk⟩ := ihb hb
      exact ⟨q, hq.mono And.right And.right, hk⟩
  | star a ih => exact loop_moves ih _ h
  | lazyStar a ih => exact lazyLoop_moves ih _ h
  | group a ih =>
    obtain ⟨q, ⟨ds, gs, hrest, hgroups, hds, hgs⟩, hk⟩ := ih h
    have htext : p.rest.take (p.rest.length - q.rest.length) = ds := by
      rw [hrest, List.length_append, Nat.add_sub_cancel_right, List.take_left]
    rw [htext] at hk
    refine ⟨⟨q.prev, q.rest, q.groups ++ [ds]⟩, ⟨ds, gs ++ [ds], hrest, ?_, hds, fun hover => ?_⟩, hk⟩
    · rw [hgroups, List.append_assoc]
    · exact List.forall_mem_append.mpr ⟨hgs hover.2, List.forall_mem_singleton.mpr (hds hover.1)⟩
  | boundary word =>
    unfold exec at h
    split at h
    · exact ⟨p, .refl p, h⟩
    · cases h

/-- The groups of a match hold characters of the class of the groups. -/
theorem matchStart_groups {r : Regex α} (hr : r.GroupsOver c) {s : List α} {m : Pos α}
    (h : r.matchStart s = some m) : ∀ g ∈ m.groups, ∀ x ∈ g, c x = true := by
  obtain ⟨q, ⟨ds, gs, -, hgroups, -, hgs⟩, hq⟩ := exec_moves r h
  cases hq
  rw [hgroups]
  exact hgs hr

end Groups

end Regex
