import DiffReview.Review.LlmReview
import DiffReview.Review.MockIds

/-!
# DiffReview — the order in which findings are emitted

`_ordered_findings` forgets the order of its input exactly when the input leaves it no
choice: one value for each id, and one id for each sort key (`orderFree_iff`). Mock findings
have both as soon as those with one id agree. The findings of the LLM provider need not: all
of them carry the rule `LLM-REVIEW`, and their id is path, line and title alone.
-/

namespace DiffReview

open Py Raise

/-- Findings with one id are one finding. -/
def Consistent (fs : List Finding) : Prop := ∀ f ∈ fs, ∀ g ∈ fs, f.id = g.id → f = g

/-- Findings with one path, line and rule have one id. -/
def DistinctKeys (fs : List Finding) : Prop :=
  ∀ f ∈ fs, ∀ g ∈ fs, f.sortKey = g.sortKey → f.id = g.id

/-- Every permutation of the list that `Returned` admits is ordered to the same result. -/
def OrderFree (Returned : List Finding → Prop) (fs : List Finding) : Prop :=
  ∀ gs, fs.Perm gs → Returned gs →
    ∀ maximum, orderedFindings fs maximum = orderedFindings gs maximum

/-- What `MockProvider.review` can return. -/
def MockReturns (p : Patterns) (fs : List Finding) : Prop := ∃ chunks, mockReview p chunks = .ok fs

/-- What `CerebrasProvider.review` can return, whatever the model proposes. -/
def LlmReturns (env : LlmEnv) (fs : List Finding) : Prop :=
  ∃ answers chunks, llmReview env answers chunks = .ok fs

/-! ## Without a choice -/

section Perm

variable {fs gs : List Finding}

theorem Consistent.perm (hperm : fs.Perm gs) (h : Consistent fs) : Consistent gs := by
  intro f hf g hg
  exact h f (hperm.mem_iff.mpr hf) g (hperm.mem_iff.mpr hg)

theorem mem_orderedAll_of_consistent (h : Consistent fs) {f : Finding} :
    f ∈ orderedAll fs ↔ f ∈ fs := by
  refine ⟨mem_of_mem_orderedAll, fun hf => ?_⟩
  obtain ⟨g, hg, hid⟩ := exists_mem_orderedAll_id hf
  have hsame : g = f := h g (mem_of_mem_orderedAll hg) f hf hid
  rwa [← hsame]

theorem orderedAll_eq_of_perm (hperm : fs.Perm gs) (h : Consistent fs) (hkeys : DistinctKeys fs) :
    orderedAll fs = orderedAll gs := by
  have hnodup : ∀ fs, (orderedAll fs).Nodup := fun fs => List.Nodup.of_map _ (orderedAll_ids_nodup fs)
  have hmem : ∀ f, f ∈ orderedAll fs ↔ f ∈ orderedAll gs := by
    intro f
    rw [mem_orderedAll_of_consistent h, mem_orderedAll_of_consistent (h.perm hperm),
      hperm.mem_iff]
  refine eq_of_perm_of_sorted ((List.perm_ext_iff_of_nodup (hnodup fs) (hnodup gs)).mpr hmem) ?_
    (orderedAll_sorted fs) (orderedAll_sorted gs)
  intro f hf g hg hkey
  have hf' := mem_of_mem_orderedAll hf
  have hg' := mem_of_mem_orderedAll hg
  exact h f hf' g hg' (hkeys f hf' g hg' hkey)

end Perm

/-! ## With a choice -/

theorem OrderFree.orderedAll_eq {Returned : List Finding → Prop} {fs gs : List Finding}
    (h : OrderFree Returned fs) (hperm : fs.Perm gs) (hgs : Returned gs) :
    orderedAll fs = orderedAll gs := by
  have hsame := h gs hperm hgs fs.length
  rwa [orderedFindings_of_length_le le_rfl, orderedFindings_of_length_le hperm.length_eq.ge] at hsame

/-- The last finding of a list is kept. -/
theorem mem_orderedAll_concat (fs : List Finding) (f : Finding) : f ∈ orderedAll (fs ++ [f]) := by
  rw [mem_orderedAll, IsLastWithId, List.filter_append, List.filter_cons_of_pos (by simp),
    List.filter_nil, List.getLast?_concat]

theorem consistent_of_orderFree {fs : List Finding} (h : ∀ gs, fs.Perm gs →
    orderedAll fs = orderedAll gs) : Consistent fs := by
  intro f hf g hg hid
  -- each of the two is kept when it stands last
  have hkept : ∀ x ∈ fs, x ∈ orderedAll fs := by
    intro x hx
    obtain ⟨as, bs, rfl⟩ := List.append_of_mem hx
    have hlast : (as ++ x :: bs).Perm ((as ++ bs) ++ [x]) :=
      List.perm_middle.trans (List.perm_append_singleton _ _).symm
    rw [h _ hlast]
    exact mem_orderedAll_concat _ x
  exact List.inj_on_of_nodup_map (orderedAll_ids_nodup fs) (hkept f hf) (hkept g hg) hid

/-- Two findings with different ids that stand first keep their order when they tie. -/
theorem pair_sublist_orderedAll {f g : Finding} {rest : List Finding}
    (h : Consistent (f :: g :: rest)) (hid : f.id ≠ g.id) (hkey : f.sortKey = g.sortKey) :
    [f, g].Sublist (orderedAll (f :: g :: rest)) := by
  have hpair : [f.id, g.id] <+: (dedupById (f :: g :: rest)).keys := by
    have hnodup : ([f, g].map (·.id)).Nodup := by simp [hid]
    have hfirst : (dedupById [f, g]).keys = [f.id, g.id] := by
      rw [dedupById, Table.keys, Table.rows_fromRows_of_nodup hnodup]
      rfl
    rw [← hfirst]
    exact Table.prefix_keys_fromRows_append [f, g] rest
  -- under these two ids stand these two findings
  obtain ⟨ids, hids⟩ := hpair
  obtain ⟨f', rows, hrows, hf', hrest⟩ := List.map_eq_cons_iff.mp hids.symm
  obtain ⟨g', rows', rfl, hg', -⟩ := List.map_eq_cons_iff.mp hrest
  have hmem : ∀ x ∈ (dedupById (f :: g :: rest)).rows, x ∈ f :: g :: rest :=
    fun x hx => Table.mem_of_mem_rows_fromRows hx
  have hf : f' = f := h f' (hmem f' (by simp [hrows])) f (by simp) hf'
  have hg : g' = g := h g' (hmem g' (by simp [hrows])) g (by simp) hg'
  have hsub : [f, g].Sublist (dedupById (f :: g :: rest)).rows := by
    rw [hrows, hf, hg]
    exact (List.nil_sublist _).cons_cons g |>.cons_cons f
  exact List.pair_sublist_insertionSort hkey.le hsub

/-- Two elements of a list without repetition stand in one order only. -/
theorem not_both_sublist {α : Type} {a b : α} {l : List α} (hl : l.Nodup) (hab : [a, b].Sublist l)
    (hba : [b, a].Sublist l) : False := by
  induction l with
  | nil => cases hab
  | cons x l ih =>
    obtain ⟨hx, hl⟩ := List.nodup_cons.mp hl
    rcases List.sublist_cons_iff.mp hab with hab | ⟨_, hfirst, hb⟩
    · rcases List.sublist_cons_iff.mp hba with hba | ⟨_, hfirst, -⟩
      · exact ih hl hab hba
      · have hb : b ∈ l := hab.subset (by simp)
        rw [(List.cons.inj hfirst).1] at hb
        exact hx hb
    · obtain ⟨rfl, rfl⟩ := List.cons.inj hfirst
      rcases List.sublist_cons_iff.mp hba with hba | ⟨_, hfirst, ha⟩
      · have ha : a ∈ l := hba.subset (by simp)
        exact hx ha
      · obtain ⟨rfl, rfl⟩ := List.cons.inj hfirst
        exact hx (ha.subset (by simp))

theorem distinctKeys_of_orderFree {fs : List Finding} (h : ∀ gs, fs.Perm gs →
    orderedAll fs = orderedAll gs) : DistinctKeys fs := by
  have hconsistent := consistent_of_orderFree h
  intro f hf g hg hkey
  by_contra hid
  have hne : g ≠ f := fun heq => hid (by rw [heq])
  -- both orders of the two in front of the others
  obtain ⟨rest, hrest⟩ : ∃ rest, fs.Perm (f :: g :: rest) := by
    obtain ⟨as, bs, rfl⟩ := List.append_of_mem hf
    have hg' : g ∈ as ++ bs := by simpa [hne] using hg
    exact ⟨(as ++ bs).erase g, List.perm_middle.trans ((List.perm_cons_erase hg').cons f)⟩
  have hswap : fs.Perm (g :: f :: rest) := hrest.trans (List.Perm.swap g f rest)
  have hfirst := pair_sublist_orderedAll (hconsistent.perm hrest) hid hkey
  have hsecond := pair_sublist_orderedAll (hconsistent.perm hswap) (Ne.symm hid) hkey.symm
  rw [← h _ hrest] at hfirst
  rw [← h _ hswap] at hsecond
  exact not_both_sublist (List.Nodup.of_map _ (orderedAll_ids_nodup fs)) hfirst hsecond

theorem orderFree_of_distinct {Returned : List Finding → Prop} {fs : List Finding}
    (hconsistent : Consistent fs) (hkeys : DistinctKeys fs) : OrderFree Returned fs := by
  intro gs hperm _ maximum
  rw [orderedFindings_eq_take, orderedFindings_eq_take, orderedAll_eq_of_perm hperm hconsistent hkeys]

/-- Of a provider that can return its findings in any order. -/
theorem orderFree_iff {Returned : List Finding → Prop} {fs : List Finding}
    (hall : ∀ gs, fs.Perm gs → Returned gs) :
    OrderFree Returned fs ↔ Consistent fs ∧ DistinctKeys fs := by
  constructor
  · intro h
    have hsame : ∀ gs, fs.Perm gs → orderedAll fs = orderedAll gs :=
      fun gs hperm => h.orderedAll_eq hperm (hall gs hperm)
    exact ⟨consistent_of_orderFree hsame, distinctKeys_of_orderFree hsame⟩
  · rintro ⟨hconsistent, hkeys⟩
    exact orderFree_of_distinct hconsistent hkeys

/-! ## The providers -/

/-- Mock findings of one path, line and rule have one id. -/
theorem MockReturns.distinctKeys {p : Patterns} {fs : List Finding} (h : MockReturns p fs) :
    DistinctKeys fs := by
  obtain ⟨chunks, hfs⟩ := h
  intro f hf g hg hkey
  obtain ⟨rule, hrule, l, hmf⟩ := exists_mockFinding_of_mem hfs hf
  obtain ⟨rule', hrule', l', hmg⟩ := exists_mockFinding_of_mem hfs hg
  exact (mockFinding_id_iff hrule' hrule hmg hmf).mpr (Finding.sortKey_eq_iff.mp hkey)

/-- One chunk and one proposal for each finding. -/
theorem llmReturns_of_groundProposal {env : LlmEnv} (hgraph : buildGraph env = .ok ())
    {fs : List Finding} (h : ∀ f ∈ fs, ∃ chunk p,
      groundProposal env.sha256 (evidenceMap chunk) p = .ok (some f.modelDump)) :
    LlmReturns env fs := by
  have : Nonempty ReviewChunk := ⟨⟨[]⟩⟩
  have : Nonempty LLMFindingProposal := ⟨⟨[], 1, le_rfl, .low, .style, [], []⟩⟩
  choose! chunk proposal hground using h
  refine ⟨fun i => .ok (fs[i]?.toList.map proposal), fs.map chunk, ?_⟩
  have hitems : invokeGraph env (fun i => .ok (fs[i]?.toList.map proposal)) (fs.map chunk)
      = .ok (fs.map Finding.modelDump) := by
    have hturns : ((fs.map chunk).zipIdx.mapM fun c => analyzeChunk env.sha256 c.1
        (.ok (fs[c.2]?.toList.map proposal))) = .ok (fs.map fun f => [f.modelDump]) := by
      refine mapM_eq_ok.mpr (List.forall₂_iff_get.mpr ⟨by simp, fun i hi hi' => ?_⟩)
      have hlt : i < fs.length := by simpa using hi'
      have hmem : fs[i] ∈ fs := List.getElem_mem hlt
      simp only [List.get_eq_getElem, List.getElem_zipIdx, List.getElem_map, Nat.zero_add,
        List.getElem?_eq_getElem hlt, Option.toList_some, List.map_singleton, analyzeChunk,
        List.mapM_cons, hground fs[i] hmem]
      rfl
    rw [invokeGraph, hturns]
    show Except.ok (fs.map fun f => [f.modelDump]).flatten = _
    rw [← List.flatMap_def, ← List.map_eq_flatMap]
  have hvalid : (fs.map Finding.modelDump).mapM Finding.modelValidate = .ok fs := by
    rw [mapM_eq_ok, List.forall₂_map_left_iff]
    exact List.forall₂_same.mpr fun f _ => Finding.modelValidate_modelDump f
  unfold llmReview
  rw [hgraph]
  exact bind_eq_ok.mpr ⟨(), rfl, bind_eq_ok.mpr ⟨_, hitems, hvalid⟩⟩

/-- Nothing binds the order in which the model's findings come. -/
theorem LlmReturns.perm {env : LlmEnv} {fs gs : List Finding} (h : LlmReturns env fs)
    (hperm : fs.Perm gs) : LlmReturns env gs := by
  obtain ⟨answers, chunks, hfs⟩ := h
  obtain ⟨_, hgraph, -⟩ := bind_eq_ok.mp hfs
  refine llmReturns_of_groundProposal hgraph fun f hf => ?_
  obtain ⟨chunk, p, -, hground⟩ := exists_groundProposal_of_mem hfs (hperm.mem_iff.mpr hf)
  exact ⟨chunk, p, hground⟩

/-- Mock findings that agree under each id are ordered whatever their order was; for findings
of the LLM provider this needs one value for each id and one id for each path and line. -/
theorem emission_order_iff {p : Patterns} {env : LlmEnv} {fs gs : List Finding}
    (hmock : MockReturns p fs) (hllm : LlmReturns env gs) :
    (Consistent fs → OrderFree (MockReturns p) fs) ∧
      (OrderFree (LlmReturns env) gs ↔ Consistent gs ∧ DistinctKeys gs) :=
  ⟨fun hconsistent => orderFree_of_distinct hconsistent hmock.distinctKeys,
    orderFree_iff fun _ hperm => hllm.perm hperm⟩

/-! ## Two proposals for one line -/

/-- SHA-256 gives this digest for the title below. -/
def evalEnv : LlmEnv where
  sha256 _ := lit "bd685bda9e5b232022f0300dd02b7c9c3a68ff3c9d8ebda8231b7a1ce26259cd"
  foreignText _ := []
  cerebrasApiKey := some (lit "key")

def evalProposal (severity : Severity) : LLMFindingProposal :=
  ⟨lit "x", 1, le_rfl, severity, .security, lit "Unsafe eval", []⟩

def evalFinding (severity : Severity) : Finding where
  id := lit "LLM-REVIEW:x:1:bd685bda9e"
  ruleId := lit "LLM-REVIEW"
  path := lit "x"
  line := 1
  severity := severity
  category := .security
  title := lit "Unsafe eval"
  evidence := lit "eval("
  line_pos := le_rfl

def evalChunk : ReviewChunk := ⟨[⟨lit "x", [], [⟨lit "x", 1, lit "eval(", true, 0⟩]⟩]⟩

set_option maxRecDepth 20000 in
theorem llmReview_evalChunk (s t : Severity) : llmReview evalEnv
    (fun _ => .ok [evalProposal s, evalProposal t]) [evalChunk]
      = .ok [evalFinding s, evalFinding t] := by
  cases s <;> cases t <;> exact eq_ok_of_toOption (by decide)

theorem emission_order_iff_sample :
    (Consistent colonFindings → OrderFree (MockReturns samplePatterns) colonFindings) ∧
      (OrderFree (LlmReturns evalEnv) [evalFinding .high, evalFinding .high] ↔
        Consistent [evalFinding .high, evalFinding .high] ∧
          DistinctKeys [evalFinding .high, evalFinding .high]) := by
  obtain ⟨files, -, h⟩ := bind_eq_ok.mp colonReview_eq_ok
  obtain ⟨chunks, -, hmock⟩ := bind_eq_ok.mp h
  exact emission_order_iff ⟨chunks, hmock⟩ ⟨_, _, llmReview_evalChunk .high .high⟩

/-- One title at one line, once as critical and once as low: the last of them is kept. -/
theorem last_proposal_wins :
    LlmReturns evalEnv [evalFinding .critical, evalFinding .low] ∧
      LlmReturns evalEnv [evalFinding .low, evalFinding .critical] ∧
      [evalFinding .critical, evalFinding .low].Perm [evalFinding .low, evalFinding .critical] ∧
      orderedFindings [evalFinding .critical, evalFinding .low] 100 = [evalFinding .low] ∧
      orderedFindings [evalFinding .low, evalFinding .critical] 100 = [evalFinding .critical] ∧
      ¬OrderFree (LlmReturns evalEnv) [evalFinding .critical, evalFinding .low] := by
  have hreturns : ∀ s t, LlmReturns evalEnv [evalFinding s, evalFinding t] :=
    fun s t => ⟨_, _, llmReview_evalChunk s t⟩
  have hswap : [evalFinding .critical, evalFinding .low].Perm [evalFinding .low, evalFinding .critical] :=
    List.Perm.swap _ _ _
  refine ⟨hreturns _ _, hreturns _ _, hswap, by decide, by decide, fun h => ?_⟩
  have hsame := h _ hswap (hreturns _ _) 100
  exact absurd hsame (by decide)

end DiffReview
