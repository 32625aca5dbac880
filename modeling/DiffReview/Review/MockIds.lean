import DiffReview.Diff.Chunks
import DiffReview.Review.MockReview

/-!
# DiffReview — the ids of mock findings

The id of a mock finding is its rule, its path and its line, whatever the path contains.
So deduplication merges only findings of one rule, path and line, and the sort keys of what
it leaves are distinct: any sort gives the same list.
-/

namespace DiffReview

open Py Raise

/-- A finding that the mock provider builds from some diff, chunked under some limit. -/
def MockBuilt (p : Patterns) (f : Finding) : Prop :=
  ∃ diff maximumBytes files chunks fs, parseUnifiedDiff diff = .ok files ∧
    chunkFileDiffs files maximumBytes = .ok chunks ∧ mockReview p chunks = .ok fs ∧ f ∈ fs

/-- A finding of a mock review is one of its rules at some line. -/
theorem exists_mockFinding_of_mem {p : Patterns} {chunks : List ReviewChunk} {fs : List Finding}
    (h : mockReview p chunks = .ok fs) {f : Finding} (hf : f ∈ fs) :
    ∃ rule ∈ allRules p, ∃ l, mockFinding rule l = .ok f := by
  obtain ⟨⟨rule, l⟩, hhit, hmock⟩ := mem_of_mapM_eq_ok h hf
  have hrule : (rule, l).1 ∈ allRules p := by
    rw [mockHits, ← List.flatMap_assoc] at hhit
    exact mem_hits hhit
  exact ⟨rule, hrule, l, hmock⟩

theorem MockBuilt.exists_mockFinding {p : Patterns} {f : Finding} (h : MockBuilt p f) :
    ∃ rule ∈ allRules p, ∃ l, mockFinding rule l = .ok f := by
  obtain ⟨diff, maximumBytes, files, chunks, fs, -, -, hfs, hf⟩ := h
  exact exists_mockFinding_of_mem hfs hf

theorem MockBuilt.id_eq_iff {p : Patterns} {f g : Finding} (hf : MockBuilt p f)
    (hg : MockBuilt p g) : f.id = g.id ↔ f.SamePlace g := by
  obtain ⟨rule, hrule, l, hmf⟩ := hf.exists_mockFinding
  obtain ⟨rule', hrule', l', hmg⟩ := hg.exists_mockFinding
  exact mockFinding_id_iff hrule' hrule hmg hmf

/-- What the ids of findings promise for the list `fs` of them. -/
structure ExactIds (fs : List Finding) : Prop where
  id_iff : ∀ f ∈ fs, ∀ g ∈ fs, f.id = g.id ↔ f.SamePlace g
  /-- Deduplication keeps one finding of each rule, path and line. -/
  kept : ∀ f ∈ fs, ∃! g, g ∈ (dedupById fs).rows ∧ g.SamePlace f
  distinct : (dedupById fs).rows.Pairwise fun f g => f.sortKey ≠ g.sortKey
  ascending : (orderedAll fs).Pairwise fun f g => f.sortKey < g.sortKey
  /-- Whatever a sort does with ties, it gives the same list. -/
  unstable : ∀ sorted : List Finding, sorted.Perm (dedupById fs).rows →
    (sorted.Pairwise fun f g => f.sortKey ≤ g.sortKey) → sorted = orderedAll fs

theorem exactIds_of_id_iff {fs : List Finding}
    (hids : ∀ f ∈ fs, ∀ g ∈ fs, f.id = g.id ↔ f.SamePlace g) : ExactIds fs := by
  have hmem : ∀ {f}, f ∈ (dedupById fs).rows → f ∈ fs := Table.mem_of_mem_rows_fromRows
  -- two kept findings of one rule, path and line have one id
  have hsame : ∀ f ∈ (dedupById fs).rows, ∀ g ∈ (dedupById fs).rows, f.SamePlace g → f = g := by
    intro f hf g hg hplace
    have hid : f.id = g.id := (hids f (hmem hf) g (hmem hg)).mpr hplace
    exact List.inj_on_of_nodup_map (dedupById fs).nodup hf hg hid
  have hnodup : (dedupById fs).rows.Nodup := List.Nodup.of_map _ (dedupById fs).nodup
  have hdistinct : (dedupById fs).rows.Pairwise fun f g => f.sortKey ≠ g.sortKey := by
    refine List.Pairwise.imp_of_mem (fun {f g} hf hg hne hkey => hne ?_) hnodup
    exact hsame f hf g hg (Finding.sortKey_eq_iff.mp hkey)
  refine ⟨hids, fun f hf => ?_, hdistinct, ?_, fun sorted hperm hsorted => ?_⟩
  · obtain ⟨g, hg, hid⟩ := exists_mem_orderedAll_id hf
    have hplace : g.SamePlace f := (hids g (mem_of_mem_orderedAll hg) f hf).mp hid
    refine ⟨g, ⟨mem_dedup_iff_mem_orderedAll.mpr hg, hplace⟩, ?_⟩
    rintro g' ⟨hg', hplace'⟩
    have hid' : g'.id = f.id := (hids g' (hmem hg') f hf).mpr hplace'
    exact List.inj_on_of_nodup_map (dedupById fs).nodup hg'
      (mem_dedup_iff_mem_orderedAll.mpr hg) (hid'.trans hid.symm)
  · have hne : (orderedAll fs).Pairwise fun f g => f.sortKey ≠ g.sortKey :=
      ((orderedAll_perm fs).symm.pairwise_iff fun {f g} => Ne.symm).mp hdistinct
    exact ((orderedAll_sorted fs).and hne).imp fun h => lt_of_le_of_ne h.1 h.2
  · refine eq_of_perm_of_sorted (hperm.trans (orderedAll_perm fs).symm) ?_ hsorted
      (orderedAll_sorted fs)
    intro f hf g hg hkey
    exact hsame f (hperm.mem_iff.mp hf) g (hperm.mem_iff.mp hg) (Finding.sortKey_eq_iff.mp hkey)

theorem mock_ids_exact {p : Patterns} {fs : List Finding} (h : ∀ f ∈ fs, MockBuilt p f) :
    ExactIds fs :=
  exactIds_of_id_iff fun f hf g hg => (h f hf).id_eq_iff (h g hg)

/-- A diff of a file whose path is full of separators and digits. -/
def colonDiff : Str := lit "--- a/x:1:2\n+++ b/x:1:2\n@@ -0,0 +1,2 @@\n+eval(\n+eval(\n"

/-- What the mock provider builds from it. -/
def colonReview : Except PyError (List Finding) := do
  let files ← parseUnifiedDiff colonDiff
  let chunks ← chunkFileDiffs files 65536
  mockReview samplePatterns chunks

def colonFindings : List Finding := colonReview.toOption.getD []

set_option maxRecDepth 20000 in
theorem colonReview_eq_ok : colonReview = .ok colonFindings := by
  have hsome : colonReview.toOption.isSome = true := by decide
  obtain ⟨fs, hfs⟩ := Option.isSome_iff_exists.mp hsome
  rw [colonFindings, hfs]
  exact eq_ok_of_toOption hfs

theorem colonFindings_mockBuilt : ∀ f ∈ colonFindings, MockBuilt samplePatterns f := by
  intro f hf
  obtain ⟨files, hparse, h⟩ := bind_eq_ok.mp colonReview_eq_ok
  obtain ⟨chunks, hchunks, hfs⟩ := bind_eq_ok.mp h
  exact ⟨colonDiff, 65536, files, chunks, colonFindings, hparse, hchunks, hfs, hf⟩

set_option maxRecDepth 20000 in
theorem mock_ids_exact_sample : ExactIds colonFindings ∧
    colonFindings.map (·.id) = [lit "MOCK-001:x:1:2:1", lit "MOCK-001:x:1:2:2"] :=
  ⟨mock_ids_exact colonFindings_mockBuilt, by decide⟩

end DiffReview
