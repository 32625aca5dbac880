import DiffReview.Review.MockHits

/-!
# DiffReview — the mock review is exact

The declarative reading of a mock review (`ExactMockReview`): in strictly ascending order,
exactly one finding for each rule, path and line such that the rule matches an added line
there, with the content of the last such line. `mockReview_exact` proves it of the parsed,
chunked, scanned, deduplicated and sorted result.
-/

namespace DiffReview

open Py Raise

/-- Whether `rule` reports the added line `l` of `file`. -/
def ruleMatches (p : Patterns) (file : FileDiff) (rule : Rule) (l : NewFileLine) : Bool :=
  if rule.ruleId = emptyCatchRule.ruleId then l ∈ emptyCatchLines p.isWord file
  else rule.pattern l.content

/-- The added lines that `rule` matches, in text order. -/
def matchedLines (p : Patterns) (files : List FileDiff) (rule : Rule) : List NewFileLine :=
  files.flatMap fun file => file.addedLines.filter (ruleMatches p file rule)

/-- The last added line with this path and number that `rule` matches. -/
def lastMatch (p : Patterns) (files : List FileDiff) (rule : Rule) (path : Str) (line : Nat) :
    Option NewFileLine :=
  ((matchedLines p files rule).filter fun l => l.path = path ∧ l.line = line).getLast?

structure ExactMockReview (p : Patterns) (files : List FileDiff) (full : List Finding) : Prop where
  ascending : full.Pairwise fun f g => f.sortKey < g.sortKey
  sound : ∀ f ∈ full, ∃ rule ∈ allRules p, ∃ l, lastMatch p files rule f.path f.line = some l ∧
    f.evidence = l.content ∧ mockFinding rule l = .ok f
  complete : ∀ rule ∈ allRules p, ∀ l ∈ matchedLines p files rule,
    ∃! f, f ∈ full ∧ f.ruleId = rule.ruleId ∧ f.path = l.path ∧ f.line = l.line

/-! ## The pairs reported for one rule -/

theorem fileHits_of_lineRule {p : Patterns} {rule : Rule} (h : rule ∈ rules p) (file : FileDiff) :
    ((fileHits p file).filter fun hit => hit.1.ruleId = rule.ruleId).map Prod.snd
      = file.addedLines.filter fun l => rule.pattern l.content := by
  have hne := ruleId_ne_emptyCatch h
  have hnd : ((rules p).map (·.ruleId)).Nodup := by
    have hnd := ruleIds_nodup p
    rw [allRules, List.map_append] at hnd
    exact (List.nodup_append.mp hnd).1
  -- a line is reported once for the rule, when its pattern matches
  have hline : ∀ l : NewFileLine,
      ((((rules p).filter fun r => r.pattern l.content).map fun r => (r, l)).filter
        fun hit => hit.1.ruleId = rule.ruleId) = if rule.pattern l.content then [(rule, l)] else [] := by
    intro l
    rw [List.filter_map, List.filter_filter]
    have hcomm : (rules p).filter (fun r =>
        ((fun hit : Rule × NewFileLine => decide (hit.1.ruleId = rule.ruleId)) ∘ fun r => (r, l)) r
          && r.pattern l.content)
        = ((rules p).filter fun r => r.ruleId = rule.ruleId).filter fun r => r.pattern l.content := by
      rw [List.filter_filter]
      exact List.filter_congr fun r _ => Bool.and_comm _ _
    rw [hcomm, filter_key_eq_singleton hnd h]
    split <;> simp [*]
  have hcatch : ∀ ls : List NewFileLine, (ls.map fun l => (emptyCatchRule, l)).filter
      (fun hit => hit.1.ruleId = rule.ruleId) = [] := by
    intro ls
    simp [List.filter_map, List.filter_eq_nil_iff, Ne.symm hne]
  rw [fileHits, List.filter_append, hcatch, List.append_nil]
  induction file.addedLines with
  | nil => rfl
  | cons l ls ih =>
    rw [List.flatMap_cons, List.filter_append, List.map_append, ih, hline]
    by_cases hm : rule.pattern l.content = true
    · simp [hm]
    · simp [hm]

theorem fileHits_of_emptyCatch {p : Patterns} (file : FileDiff) :
    ((fileHits p file).filter fun hit => hit.1.ruleId = emptyCatchRule.ruleId).map Prod.snd
      = emptyCatchLines p.isWord file := by
  have hlines : ((file.addedLines.flatMap fun line =>
      ((rules p).filter fun rule => rule.pattern line.content).map fun rule => (rule, line)).filter
        fun hit => hit.1.ruleId = emptyCatchRule.ruleId) = [] := by
    refine List.filter_eq_nil_iff.mpr fun hit hmem => ?_
    obtain ⟨l, -, hmem⟩ := List.mem_flatMap.mp hmem
    obtain ⟨rule, hrule, rfl⟩ := List.mem_map.mp hmem
    simpa using ruleId_ne_emptyCatch (List.mem_filter.mp hrule).1
  rw [fileHits, List.filter_append, hlines, List.nil_append]
  simp [List.filter_map, Function.comp_def]

/-- For each rule, the reported lines are the added lines it matches, in text order. -/
theorem hits_of_rule {p : Patterns} {files : List FileDiff} {rule : Rule}
    (hrule : rule ∈ allRules p) (hfiles : ∀ file ∈ files, LinesOrdered file.path file.lines) :
    ((files.flatMap (fileHits p)).filter fun hit => hit.1.ruleId = rule.ruleId).map Prod.snd
      = matchedLines p files rule := by
  have hfile : ∀ file ∈ files,
      ((fileHits p file).filter fun hit => hit.1.ruleId = rule.ruleId).map Prod.snd
        = file.addedLines.filter (ruleMatches p file rule) := by
    intro file hf
    rcases List.mem_append.mp hrule with hr | hr
    · rw [fileHits_of_lineRule hr]
      refine List.filter_congr fun l _ => ?_
      rw [ruleMatches, if_neg (ruleId_ne_emptyCatch hr)]
    · rw [List.mem_singleton.mp hr, fileHits_of_emptyCatch]
      have hsub := emptyCatchLines_sublist p.isWord (hfiles file hf)
      have hnd : file.addedLines.Nodup := (hfiles file hf).nodup.filter _
      have hmem : emptyCatchLines p.isWord file
          = file.addedLines.filter fun l => l ∈ emptyCatchLines p.isWord file :=
        (filter_mem_of_sublist hsub hnd).symm
      refine hmem.trans (List.filter_congr fun l _ => ?_)
      rw [ruleMatches, if_pos rfl]
  rw [matchedLines]
  induction files with
  | nil => rfl
  | cons file files ih =>
    rw [List.flatMap_cons, List.filter_append, List.map_append, List.flatMap_cons,
      hfile file (by simp), ih (fun f hf => hfiles f (by simp [hf])) fun f hf => hfile f (by simp [hf])]

theorem mem_hits {p : Patterns} {files : List FileDiff} {hit : Rule × NewFileLine}
    (h : hit ∈ files.flatMap (fileHits p)) : hit.1 ∈ allRules p := by
  obtain ⟨file, -, h⟩ := List.mem_flatMap.mp h
  rcases List.mem_append.mp h with h | h
  · obtain ⟨l, -, h⟩ := List.mem_flatMap.mp h
    obtain ⟨rule, hrule, rfl⟩ := List.mem_map.mp h
    exact List.mem_append_left _ (List.mem_filter.mp hrule).1
  · obtain ⟨l, -, rfl⟩ := List.mem_map.mp h
    exact List.mem_append_right _ (by simp)

theorem mem_matchedLines_of_hit {p : Patterns} {files : List FileDiff} {rule : Rule}
    {l : NewFileLine} (hfiles : ∀ file ∈ files, LinesOrdered file.path file.lines)
    (h : (rule, l) ∈ files.flatMap (fileHits p)) : l ∈ matchedLines p files rule := by
  rw [← hits_of_rule (mem_hits h) hfiles]
  exact List.mem_map.mpr ⟨(rule, l), List.mem_filter.mpr ⟨h, by simp⟩, rfl⟩

theorem hit_of_mem_matchedLines {p : Patterns} {files : List FileDiff} {rule : Rule}
    {l : NewFileLine} (hrule : rule ∈ allRules p)
    (hfiles : ∀ file ∈ files, LinesOrdered file.path file.lines)
    (h : l ∈ matchedLines p files rule) : (rule, l) ∈ files.flatMap (fileHits p) := by
  rw [← hits_of_rule hrule hfiles] at h
  obtain ⟨⟨rule', l'⟩, hmem, rfl⟩ := List.mem_map.mp h
  obtain ⟨hhit, hid⟩ := List.mem_filter.mp hmem
  rw [rule_ext hrule (mem_hits hhit) (by simpa using Eq.symm (by simpa using hid))]
  exact hhit

/-! ## The ordered result -/

theorem getLast?_of_forall₂ {α β : Type} {R : α → β → Prop} {as : List α} {bs : List β}
    (h : List.Forall₂ R as bs) {b : β} (hb : bs.getLast? = some b) :
    ∃ a, as.getLast? = some a ∧ R a b := by
  induction h with
  | nil => cases hb
  | @cons a b' as bs hab htail ih =>
    cases htail with
    | nil =>
      cases hb
      exact ⟨a, rfl, hab⟩
    | cons hab' htail' =>
      obtain ⟨a', ha', hR⟩ := ih (by simpa using hb)
      exact ⟨a', by simpa using ha', hR⟩

/-- Two findings of the provider have the same id when rule, path and line agree. -/
theorem mockFinding_id_iff {p : Patterns} {rule rule' : Rule} {l l' : NewFileLine} {f g : Finding}
    (hrule : rule ∈ allRules p) (hrule' : rule' ∈ allRules p) (hf : mockFinding rule l = .ok f)
    (hg : mockFinding rule' l' = .ok g) :
    g.id = f.id ↔ g.ruleId = f.ruleId ∧ g.path = f.path ∧ g.line = f.line := by
  rw [mockFinding_eq_ok hf, mockFinding_eq_ok hg]
  constructor
  · exact findingId_injective (colon_notMem_ruleId hrule') (colon_notMem_ruleId hrule)
  · rintro ⟨hr, hp, hl⟩
    simp only at hr hp hl ⊢
    rw [hr, hp, hl]

section Exact

variable {p : Patterns} {files : List FileDiff} {fs : List Finding}

/-- The finding kept for an id is the one of the last line that its rule matches there. -/
theorem lastMatch_of_mem_orderedAll (hfiles : ∀ file ∈ files, LinesOrdered file.path file.lines)
    (hfs : (files.flatMap (fileHits p)).mapM (fun hit => mockFinding hit.1 hit.2) = .ok fs)
    {f : Finding} (h : f ∈ orderedAll fs) :
    ∃ rule ∈ allRules p, ∃ l, lastMatch p files rule f.path f.line = some l ∧
      f.evidence = l.content ∧ mockFinding rule l = .ok f := by
  obtain ⟨⟨rule, l⟩, hhit, hf⟩ := mem_of_mapM_eq_ok hfs (mem_of_mem_orderedAll h)
  have hrule := mem_hits hhit
  -- pair by pair, having the id of `f` is having its rule, path and line
  have hpairs : List.Forall₂ (fun (hit : Rule × NewFileLine) g =>
      hit ∈ files.flatMap (fileHits p) ∧ mockFinding hit.1 hit.2 = .ok g)
      (files.flatMap (fileHits p)) fs := by
    have hall := mapM_eq_ok.mp hfs
    rw [List.forall₂_iff_get] at hall ⊢
    exact ⟨hall.1, fun i h₁ h₂ => ⟨List.get_mem _ _, hall.2 i h₁ h₂⟩⟩
  have hkey : ∀ (hit : Rule × NewFileLine) (g : Finding), (hit ∈ files.flatMap (fileHits p) ∧
      mockFinding hit.1 hit.2 = .ok g) →
      ((hit.1.ruleId = rule.ruleId ∧ hit.2.path = l.path ∧ hit.2.line = l.line) ↔ g.id = f.id) := by
    rintro hit g ⟨hmem, hg⟩
    rw [mockFinding_id_iff hrule (mem_hits hmem) hf hg, mockFinding_eq_ok hf, mockFinding_eq_ok hg]
  have hfilter := List.rel_filter (R := fun (hit : Rule × NewFileLine) g =>
      hit ∈ files.flatMap (fileHits p) ∧ mockFinding hit.1 hit.2 = .ok g)
    (p := fun hit => decide (hit.1.ruleId = rule.ruleId ∧ hit.2.path = l.path ∧ hit.2.line = l.line))
    (q := fun g => decide (g.id = f.id))
    (fun {hit g} hR => by simpa using hkey hit g hR) hpairs
  obtain ⟨⟨rule', l'⟩, hlast, hmem, hf'⟩ := getLast?_of_forall₂ hfilter (mem_orderedAll.mp h)
  have hR := (hkey (rule', l') f ⟨hmem, hf'⟩).mpr rfl
  have heq : rule' = rule := rule_ext (mem_hits hmem) hrule hR.1
  subst heq
  refine ⟨rule', hrule, l', ?_, ?_, hf'⟩
  · rw [mockFinding_eq_ok hf', lastMatch, ← hits_of_rule hrule hfiles, List.filter_map,
      List.getLast?_map, List.filter_filter]
    have hcongr : ((files.flatMap (fileHits p)).filter fun hit =>
        ((fun l : NewFileLine => decide (l.path = l'.path ∧ l.line = l'.line)) ∘ Prod.snd) hit
          && decide (hit.1.ruleId = rule'.ruleId))
        = (files.flatMap (fileHits p)).filter fun hit =>
          decide (hit.1.ruleId = rule'.ruleId ∧ hit.2.path = l.path ∧ hit.2.line = l.line) := by
      refine List.filter_congr fun hit _ => ?_
      rw [hR.2.1, hR.2.2, Bool.eq_iff_iff]
      simp
      tauto
    rw [hcongr, hlast]
    rfl
  · rw [mockFinding_eq_ok hf']

theorem orderedAll_exact (hfiles : ∀ file ∈ files, LinesOrdered file.path file.lines)
    (hfs : (files.flatMap (fileHits p)).mapM (fun hit => mockFinding hit.1 hit.2) = .ok fs) :
    ExactMockReview p files (orderedAll fs) := by
  have hsound := fun f hf => lastMatch_of_mem_orderedAll (f := f) hfiles hfs hf
  -- two kept findings with one rule, path and line are the same finding
  have hunique : ∀ f ∈ orderedAll fs, ∀ g ∈ orderedAll fs, g.ruleId = f.ruleId → g.path = f.path →
      g.line = f.line → g = f := by
    intro f hf g hg hr hp hl
    obtain ⟨rule, hrule, l, -, -, hmf⟩ := hsound f hf
    obtain ⟨rule', hrule', l', -, -, hmg⟩ := hsound g hg
    have hid := (mockFinding_id_iff hrule hrule' hmf hmg).mpr
      ⟨hr, hp, hl⟩
    exact List.inj_on_of_nodup_map (orderedAll_ids_nodup fs) hg hf hid
  refine ⟨?_, hsound, ?_⟩
  · have hne : (orderedAll fs).Pairwise fun f g => f ≠ g :=
      List.Nodup.of_map _ (orderedAll_ids_nodup fs)
    refine ((orderedAll_sorted fs).and hne).imp_of_mem fun {f g} hf hg h => ?_
    refine lt_of_le_of_ne h.1 fun heq => h.2 ?_
    obtain ⟨hr, hp, hl⟩ := Finding.sortKey_eq_iff.mp heq
    exact hunique g hg f hf hr hp hl
  · intro rule hrule l hl
    have hhit := hit_of_mem_matchedLines hrule hfiles hl
    obtain ⟨f, hf⟩ := exists_mapM_eq_ok.mp ⟨fs, hfs⟩ (rule, l) hhit
    have hmem : f ∈ fs := by
      have hall := mapM_eq_ok.mp hfs
      obtain ⟨i, hi, hget⟩ := List.getElem_of_mem hhit
      have hlen := hall.length_eq
      have hfi := (List.forall₂_iff_get.mp hall).2 i hi (hlen ▸ hi)
      rw [List.get_eq_getElem, hget, hf] at hfi
      exact Except.ok.inj hfi ▸ List.get_mem _ _
    obtain ⟨g, hg, hid⟩ := exists_mem_orderedAll_id hmem
    obtain ⟨rule', hrule', l', -, -, hmg⟩ := hsound g hg
    have hkey := (mockFinding_id_iff hrule hrule' hf hmg).mp hid
    rw [mockFinding_eq_ok hf] at hkey
    refine ⟨g, ⟨hg, hkey⟩, ?_⟩
    rintro g' ⟨hg', hr, hp, hl⟩
    exact hunique g hg g' hg' (hr.trans hkey.1.symm) (hp.trans hkey.2.1.symm) (hl.trans hkey.2.2.symm)

end Exact

/-! ## The whole review -/

theorem mockReview_eq {p : Patterns} {files : List FileDiff} {chunks : List ReviewChunk}
    (h : chunks.flatMap (·.files) = files) :
    mockReview p chunks = (files.flatMap (fileHits p)).mapM fun hit => mockFinding hit.1 hit.2 := by
  rw [mockReview, mockHits, ← h, List.flatMap_assoc]

/-- Parsing, chunking under any limit, scanning and ordering give the exact review. -/
theorem mockReview_exact {p : Patterns} {diff : Str} {maximumBytes : Int} {files : List FileDiff}
    {chunks : List ReviewChunk} {fs : List Finding} (hfiles : parseUnifiedDiff diff = .ok files)
    (hchunks : chunkFileDiffs files maximumBytes = .ok chunks)
    (hfs : mockReview p chunks = .ok fs) : ExactMockReview p files (orderedAll fs) := by
  rw [mockReview_eq (chunkFileDiffs_files hchunks)] at hfs
  exact orderedAll_exact (fun file hf => parseUnifiedDiff_linesOrdered hfiles hf) hfs

/-- What the line patterns give on `eval(`. -/
def samplePatterns : Patterns where
  evalUsage content := content = lit "eval("
  hardcodedCredential _ := false
  sqlConcatenation _ := false
  looseNull _ := false
  deepClone _ := false
  consoleLog _ := false
  unresolvedMarker _ := false
  promptInjection _ := false
  isWord c := Chr.ofChar 'a' ≤ c && c ≤ Chr.ofChar 'z'

end DiffReview
