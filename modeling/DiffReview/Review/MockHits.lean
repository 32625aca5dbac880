import DiffReview.Diff.Chunks
import DiffReview.Diff.Lines
import DiffReview.Review.Ordering

/-!
# DiffReview — what the mock provider reports

`mockReview` reports one finding for each pair of `mockHits`. For one rule these pairs are
the added lines it matches, in text order (`hits_of_rule`); for `MOCK-004` this needs that
grouping by hunk keeps the order of the lines. The id of a finding determines its rule,
path and line (`findingId_injective`), whatever the path contains.
-/

namespace DiffReview

open Py Raise

/-! ## Findings of the mock provider -/

/-- A finding can be built on exactly the lines with a number that the schema admits and
that CPython renders. -/
theorem exists_mockFinding_iff {rule : Rule} {l : NewFileLine} :
    (∃ f, mockFinding rule l = .ok f) ↔ 1 ≤ l.line ∧ l.line < 10 ^ maxStrDigits := by
  constructor
  · rintro ⟨f, h⟩
    obtain ⟨number, hnumber, h⟩ := bind_eq_ok.mp h
    refine ⟨?_, ?_⟩
    · by_contra hline
      rw [Finding.modelValidate, dif_neg hline] at h
      cases h
    · by_contra hline
      rw [orRaise_eq_ok, strInt_eq_none (Nat.not_lt.mp hline)] at hnumber
      cases hnumber
  · rintro ⟨hpos, hlt⟩
    unfold mockFinding
    rw [orRaise_eq_ok.mpr (strInt_eq_some hlt)]
    exact ⟨_, dif_pos hpos⟩

/-- A finding of the mock provider is its rule at its line. -/
theorem mockFinding_eq_ok {rule : Rule} {l : NewFileLine} {f : Finding}
    (h : mockFinding rule l = .ok f) :
    f.toFindingDict = ⟨findingId rule.ruleId l.path (decimal l.line), rule.ruleId, l.path, l.line,
      rule.severity, rule.category, rule.title, l.content⟩ := by
  obtain ⟨number, hnumber, h⟩ := bind_eq_ok.mp h
  rw [eq_decimal_of_strInt (orRaise_eq_ok.mp hnumber)] at h
  unfold Finding.modelValidate at h
  split at h
  · cases h
    rfl
  · cases h

def colon : Chr := Chr.ofChar ':'

/-- The id of a finding determines its rule, its path and its line, for every path. -/
theorem findingId_injective {r r' p p' : Str} {n n' : Nat} (hr : colon ∉ r) (hr' : colon ∉ r')
    (h : findingId r p (decimal n) = findingId r' p' (decimal n')) : r = r' ∧ p = p' ∧ n = n' := by
  have hsplit : ∀ r p s : Str, findingId r p s = r ++ colon :: (p ++ colon :: s) := by
    intro r p s
    rw [findingId, show lit ":" = [colon] from by decide]
    simp
  rw [hsplit, hsplit] at h
  -- the rule ends at the first colon and the number starts behind the last one
  obtain ⟨hrule, h⟩ := append_firstSep_inj hr hr' h
  have hcolon : isDecimal colon = false := by decide
  obtain ⟨hpath, hline⟩ :=
    append_lastSep_inj (notMem_decimal hcolon n) (notMem_decimal hcolon n') h
  exact ⟨hrule, hpath, decimal_injective hline⟩

/-! ## The rules -/

/-- The nine rules of the provider. -/
def allRules (p : Patterns) : List Rule := rules p ++ [emptyCatchRule]

theorem ruleIds_nodup (p : Patterns) : ((allRules p).map (·.ruleId)).Nodup := by
  show ([lit "MOCK-001", lit "MOCK-002", lit "MOCK-003", lit "MOCK-005", lit "MOCK-006",
    lit "MOCK-007", lit "MOCK-008", lit "MOCK-INJ", lit "MOCK-004"] : List Str).Nodup
  decide

theorem colon_notMem_ruleId {p : Patterns} {rule : Rule} (h : rule ∈ allRules p) :
    colon ∉ rule.ruleId := by
  have hall : ∀ r ∈ (allRules p).map (·.ruleId), colon ∉ r := by
    show ∀ r ∈ ([lit "MOCK-001", lit "MOCK-002", lit "MOCK-003", lit "MOCK-005", lit "MOCK-006",
      lit "MOCK-007", lit "MOCK-008", lit "MOCK-INJ", lit "MOCK-004"] : List Str), colon ∉ r
    decide
  exact hall _ (List.mem_map_of_mem h)

theorem rule_ext {p : Patterns} {rule rule' : Rule} (h : rule ∈ allRules p)
    (h' : rule' ∈ allRules p) (hid : rule.ruleId = rule'.ruleId) : rule = rule' :=
  List.inj_on_of_nodup_map (ruleIds_nodup p) h h' hid

theorem ruleId_ne_emptyCatch {p : Patterns} {rule : Rule} (h : rule ∈ rules p) :
    rule.ruleId ≠ emptyCatchRule.ruleId := by
  have hnd := ruleIds_nodup p
  rw [allRules, List.map_append, List.nodup_append] at hnd
  exact hnd.2.2 _ (List.mem_map_of_mem h) _ (by simp)

/-- Among elements with distinct keys, only `a` has the key of `a`. -/
theorem filter_key_eq_singleton {α κ : Type} [DecidableEq κ] {key : α → κ} {as : List α} {a : α}
    (hnd : (as.map key).Nodup) (ha : a ∈ as) : as.filter (fun b => key b = key a) = [a] := by
  induction as with
  | nil => cases ha
  | cons b as ih =>
    rw [List.map_cons, List.nodup_cons] at hnd
    rcases List.mem_cons.mp ha with rfl | ha
    · rw [List.filter_cons_of_pos (by simp)]
      congr 1
      refine List.filter_eq_nil_iff.mpr fun c hc => ?_
      have hne : key c ≠ key a := fun heq => hnd.1 (heq ▸ List.mem_map_of_mem hc)
      simpa using hne
    · have hne : key b ≠ key a := fun heq => hnd.1 (heq ▸ List.mem_map_of_mem ha)
      rw [List.filter_cons_of_neg (by simpa using hne), ih hnd.2 ha]

/-! ## Grouping by hunk -/

/-- What the dictionary of hunks holds after the lines `pre`. -/
structure Grouped (pre : List NewFileLine)
    (d : Table (Prod.fst : Int × List NewFileLine → Int)) : Prop where
  flatten : d.rows.flatMap Prod.snd = pre
  hunk_eq : ∀ r ∈ d.rows, ∀ l ∈ r.2, l.hunk = r.1
  ne_nil : ∀ r ∈ d.rows, r.2 ≠ []
  increasing : d.rows.Pairwise fun a b => a.1 < b.1

theorem Grouped.key_le {pre : List NewFileLine} {l : NewFileLine}
    {d : Table (Prod.fst : Int × List NewFileLine → Int)} (h : Grouped pre d)
    (hle : ∀ a ∈ pre, a.hunk ≤ l.hunk) : ∀ r ∈ d.rows, r.1 ≤ l.hunk := by
  intro r hr
  obtain ⟨a, ha⟩ := List.exists_mem_of_ne_nil _ (h.ne_nil r hr)
  rw [← h.hunk_eq r hr a ha]
  exact hle a (h.flatten ▸ List.mem_flatMap.mpr ⟨r, hr, ha⟩)

theorem appendToHunk_rows_of_none {l : NewFileLine}
    {d : Table (Prod.fst : Int × List NewFileLine → Int)} (hget : d.get? l.hunk = none) :
    (appendToHunk d l).rows = d.rows ++ [(l.hunk, [l])] := by
  rw [appendToHunk, Table.upsert, dif_pos hget, hget]
  rfl

theorem appendToHunk_rows_of_last {l : NewFileLine} {init : List (Int × List NewFileLine)}
    {group : List NewFileLine} {d : Table (Prod.fst : Int × List NewFileLine → Int)}
    (hrows : d.rows = init ++ [(l.hunk, group)]) (hne : ∀ r ∈ init, r.1 ≠ l.hunk) :
    (appendToHunk d l).rows = init ++ [(l.hunk, group ++ [l])] := by
  have hget : d.get? l.hunk = some (l.hunk, group) :=
    Table.get?_eq_some_iff.mpr ⟨by rw [hrows]; simp, rfl⟩
  rw [appendToHunk, Table.upsert, dif_neg (by rw [hget]; simp), hget, Table.rows_replace, hrows,
    List.map_append, List.map_singleton, if_pos rfl]
  congr 1
  exact (List.map_congr_left fun r hr => if_neg (hne r hr)).trans (List.map_id _)

/-- The hunk of the next line is new, or its group is the last one. -/
theorem Grouped.none_or_last {pre : List NewFileLine} {l : NewFileLine}
    {d : Table (Prod.fst : Int × List NewFileLine → Int)} (h : Grouped pre d)
    (hle : ∀ a ∈ pre, a.hunk ≤ l.hunk) :
    (d.get? l.hunk = none ∧ ∀ r ∈ d.rows, r.1 < l.hunk) ∨
      ∃ init group, d.rows = init ++ [(l.hunk, group)] ∧ ∀ r ∈ init, r.1 < l.hunk := by
  have hkeys := h.key_le hle
  rcases Option.eq_none_or_eq_some (d.get? l.hunk) with hget | ⟨row, hget⟩
  · refine .inl ⟨hget, fun r hr => lt_of_le_of_ne (hkeys r hr) fun heq => ?_⟩
    exact Table.get?_eq_none_iff.mp hget (heq ▸ List.mem_map_of_mem hr)
  · obtain ⟨hmem, hkey⟩ := Table.get?_eq_some_iff.mp hget
    obtain ⟨init, last, hrows⟩ : ∃ init last, d.rows = init ++ [last] :=
      ⟨_, _, (List.dropLast_append_getLast (List.ne_nil_of_mem hmem)).symm⟩
    have hinc := h.increasing
    rw [hrows] at hinc
    have hinit : ∀ r ∈ init, r.1 < last.1 := fun r hr =>
      (List.pairwise_append.mp hinc).2.2 r hr last (by simp)
    have hlast : last.1 = l.hunk := by
      rcases List.mem_append.mp (hrows ▸ hmem) with hr | hr
      · have hlt := hinit row hr
        have hle' := hkeys last (by rw [hrows]; simp)
        rw [hkey] at hlt
        omega
      · rw [← List.mem_singleton.mp hr, hkey]
    refine .inr ⟨init, last.2, ?_, fun r hr => hlast ▸ hinit r hr⟩
    rw [hrows, ← hlast]

/-- A line of the newest hunk, or of a new one, goes to the end. -/
theorem Grouped.append {pre : List NewFileLine} {l : NewFileLine}
    {d : Table (Prod.fst : Int × List NewFileLine → Int)} (h : Grouped pre d)
    (hle : ∀ a ∈ pre, a.hunk ≤ l.hunk) : Grouped (pre ++ [l]) (appendToHunk d l) := by
  -- in both cases the rows are some old rows and a last one that ends with `l`
  have key : ∀ init group, (appendToHunk d l).rows = init ++ [(l.hunk, group ++ [l])] →
      init.flatMap Prod.snd ++ group = pre → (∀ r ∈ init, r ∈ d.rows) →
      (∀ a ∈ group, a.hunk = l.hunk) → init.Pairwise (fun a b => a.1 < b.1) →
      (∀ r ∈ init, r.1 < l.hunk) → Grouped (pre ++ [l]) (appendToHunk d l) := by
    intro init group hrows hflat hsub hgroup hinc hlt
    refine ⟨?_, ?_, ?_, ?_⟩
    · rw [hrows, List.flatMap_append, List.flatMap_singleton, ← hflat, List.append_assoc]
    · intro r hr a ha
      rw [hrows] at hr
      rcases List.mem_append.mp hr with hr | hr
      · exact h.hunk_eq r (hsub r hr) a ha
      · rw [List.mem_singleton.mp hr] at ha ⊢
        rcases List.mem_append.mp ha with ha | ha
        · exact hgroup a ha
        · rw [List.mem_singleton.mp ha]
    · intro r hr
      rw [hrows] at hr
      rcases List.mem_append.mp hr with hr | hr
      · exact h.ne_nil r (hsub r hr)
      · rw [List.mem_singleton.mp hr]
        simp
    · rw [hrows]
      refine List.pairwise_append.mpr ⟨hinc, List.pairwise_singleton _ _, ?_⟩
      intro a ha b hb
      rw [List.mem_singleton.mp hb]
      exact hlt a ha
  rcases h.none_or_last hle with ⟨hget, hlt⟩ | ⟨init, group, hrows, hlt⟩
  · refine key d.rows [] (appendToHunk_rows_of_none hget) ?_ (fun _ hr => hr) (by simp)
      h.increasing hlt
    rw [h.flatten, List.append_nil]
  · refine key init group
      (appendToHunk_rows_of_last hrows fun r hr => (hlt r hr).ne) ?_ ?_ ?_ ?_ hlt
    · rw [← h.flatten, hrows, List.flatMap_append, List.flatMap_singleton]
    · intro r hr
      rw [hrows]
      simp [hr]
    · intro a ha
      exact h.hunk_eq (l.hunk, group) (by rw [hrows]; simp) a ha
    · have hinc := h.increasing
      rw [hrows] at hinc
      exact (List.pairwise_append.mp hinc).1

/-- Grouping lines whose hunk numbers never go down keeps their order. -/
theorem byHunk_flatten {lines : List NewFileLine}
    (h : lines.Pairwise fun a b => a.hunk ≤ b.hunk) : (byHunk lines).flatten = lines := by
  have hgrouped : Grouped lines (lines.foldl appendToHunk Table.empty) := by
    induction lines using List.reverseRecOn with
    | nil => exact ⟨rfl, by simp [Table.empty], by simp [Table.empty], by simp [Table.empty]⟩
    | append_singleton lines l ih =>
      rw [List.foldl_append, List.foldl_cons, List.foldl_nil]
      obtain ⟨hpre, -, hle⟩ := List.pairwise_append.mp h
      exact (ih hpre).append fun a ha => hle a ha l (by simp)
  rw [byHunk, ← List.flatMap_def]
  exact hgrouped.flatten

theorem emptyCatchInHunk_sublist (isWord : Chr → Bool) (lines : List NewFileLine) :
    (emptyCatchInHunk isWord lines).Sublist (lines.filter (·.added)) := by
  induction lines with
  | nil => exact List.Sublist.refl _
  | cons l rest ih =>
    rw [emptyCatchInHunk]
    by_cases hadded : l.added = true
    · rw [List.filter_cons_of_pos hadded]
      split
      · exact ih.cons_cons l
      · exact ih.cons l
    · rw [List.filter_cons_of_neg hadded, if_neg (by simp [hadded])]
      exact ih

/-- The swallowed exceptions of a file are added lines of it, in text order. -/
theorem emptyCatchLines_sublist (isWord : Chr → Bool) {file : FileDiff}
    (h : LinesOrdered file.path file.lines) :
    (emptyCatchLines isWord file).Sublist file.addedLines := by
  have hgroups : ∀ groups : List (List NewFileLine),
      (groups.flatMap (emptyCatchInHunk isWord)).Sublist (groups.flatten.filter (·.added)) := by
    intro groups
    induction groups with
    | nil => exact List.Sublist.refl _
    | cons g gs ih =>
      rw [List.flatMap_cons, List.flatten_cons, List.filter_append]
      exact (emptyCatchInHunk_sublist isWord g).append ih
  have hsub := hgroups (byHunk file.lines)
  rw [byHunk_flatten h.hunk_le] at hsub
  exact hsub

/-- A sublist of a list without repetition is the part of it that lies in the sublist. -/
theorem filter_mem_of_sublist {α : Type} [DecidableEq α] {as bs : List α} (h : as.Sublist bs)
    (hnd : bs.Nodup) : bs.filter (fun b => b ∈ as) = as := by
  induction h with
  | slnil => rfl
  | @cons as bs b h ih =>
    obtain ⟨hb, hnd⟩ := List.nodup_cons.mp hnd
    rw [List.filter_cons_of_neg (by simpa using fun hmem => hb (h.subset hmem)), ih hnd]
  | @cons_cons as bs b h ih =>
    obtain ⟨hb, hnd⟩ := List.nodup_cons.mp hnd
    rw [List.filter_cons_of_pos (by simp)]
    congr 1
    rw [← ih hnd]
    refine List.filter_congr fun c hc => ?_
    have hne : c ≠ b := fun heq => hb (heq ▸ hc)
    rw [ih hnd]
    simp [hne]

end DiffReview
