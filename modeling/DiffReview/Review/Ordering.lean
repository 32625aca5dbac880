import DiffReview.Spec.Worker

/-!
# DiffReview — the ordering of findings

What `orderedFindings` (the `_ordered_findings` of the worker) returns: the last finding
of each id, once, in the order of the sort key, cut at the maximum. A list that is already
so ordered and free of repeated ids is only cut, which is why the cached path, that orders
the stored list again, agrees with the fresh one.
-/

namespace DiffReview

open Py

/-- `f` is the last finding of `fs` with its id. -/
def IsLastWithId (fs : List Finding) (f : Finding) : Prop :=
  (fs.filter fun g => g.id = f.id).getLast? = some f

theorem mem_dedupById {fs : List Finding} {f : Finding} :
    f ∈ (dedupById fs).rows ↔ IsLastWithId fs f := by
  rw [IsLastWithId, List.getLast?_filter]
  exact Table.mem_rows_fromRows

/-- The untruncated result of the ordering. -/
def orderedAll (fs : List Finding) : List Finding :=
  (dedupById fs).rows.insertionSort fun f g => f.sortKey ≤ g.sortKey

theorem orderedFindings_eq_take (fs : List Finding) (maximum : Nat) :
    orderedFindings fs maximum = (orderedAll fs).take maximum := rfl

theorem mem_orderedAll {fs : List Finding} {f : Finding} :
    f ∈ orderedAll fs ↔ IsLastWithId fs f := by
  rw [orderedAll, List.mem_insertionSort, mem_dedupById]

theorem mem_of_mem_orderedAll {fs : List Finding} {f : Finding} (h : f ∈ orderedAll fs) :
    f ∈ fs := by
  rw [orderedAll, List.mem_insertionSort] at h
  exact Table.mem_of_mem_rows_fromRows h

theorem orderedAll_sorted (fs : List Finding) :
    (orderedAll fs).Pairwise fun f g => f.sortKey ≤ g.sortKey := by
  have htotal : Std.Total fun f g : Finding => f.sortKey ≤ g.sortKey :=
    ⟨fun f g => le_total f.sortKey g.sortKey⟩
  have htrans : IsTrans Finding fun f g => f.sortKey ≤ g.sortKey :=
    ⟨fun f g h => le_trans⟩
  exact List.pairwise_insertionSort _ _

theorem orderedAll_ids_nodup (fs : List Finding) : ((orderedAll fs).map (·.id)).Nodup := by
  have hperm := (List.perm_insertionSort (fun f g : Finding => f.sortKey ≤ g.sortKey)
    (dedupById fs).rows).map (·.id)
  exact hperm.nodup_iff.mpr (dedupById fs).nodup

/-- The ids that remain are those of the list. -/
theorem exists_mem_orderedAll_id {fs : List Finding} {f : Finding} (h : f ∈ fs) :
    ∃ g ∈ orderedAll fs, g.id = f.id := by
  have hkey : f.id ∈ (dedupById fs).keys :=
    Table.mem_keys_fromRows.mpr (List.mem_map_of_mem h)
  obtain ⟨g, hg, hid⟩ := List.mem_map.mp hkey
  exact ⟨g, List.mem_insertionSort _ |>.mpr hg, hid⟩

/-- An ordered list without repeated ids is its own ordering. -/
theorem orderedAll_of_sorted {fs : List Finding} (hids : (fs.map (·.id)).Nodup)
    (hsorted : fs.Pairwise fun f g => f.sortKey ≤ g.sortKey) : orderedAll fs = fs := by
  rw [orderedAll, dedupById, Table.rows_fromRows_of_nodup hids]
  exact hsorted.insertionSort_eq

/-- The ordering of a stored list is a prefix of it: the second pass only cuts. -/
theorem orderedFindings_orderedFindings (fs : List Finding) (m n : Nat) :
    orderedFindings (orderedFindings fs m) n = (orderedFindings fs m).take n := by
  have hsub : (orderedFindings fs m).Sublist (orderedAll fs) := List.take_sublist _ _
  rw [orderedFindings_eq_take (orderedFindings fs m) n,
    orderedAll_of_sorted ((hsub.map _).nodup (orderedAll_ids_nodup fs))
      ((orderedAll_sorted fs).sublist hsub)]

/-! ## Ties -/

/-- The same rule, path and line. -/
def Finding.SamePlace (f g : Finding) : Prop :=
  f.ruleId = g.ruleId ∧ f.path = g.path ∧ f.line = g.line

theorem Finding.sortKey_eq_iff {f g : Finding} : f.sortKey = g.sortKey ↔ f.SamePlace g := by
  rw [Finding.sortKey, Finding.sortKey, toLex_inj, Prod.mk.injEq, toLex_inj, Prod.mk.injEq,
    Finding.SamePlace]
  constructor
  · rintro ⟨hpath, hline, hrule⟩
    exact ⟨hrule, hpath, hline⟩
  · rintro ⟨hrule, hpath, hline⟩
    exact ⟨hpath, hline, hrule⟩

theorem mem_dedup_iff_mem_orderedAll {fs : List Finding} {f : Finding} :
    f ∈ (dedupById fs).rows ↔ f ∈ orderedAll fs := by
  rw [orderedAll, List.mem_insertionSort]

theorem orderedAll_perm (fs : List Finding) : (orderedAll fs).Perm (dedupById fs).rows :=
  List.perm_insertionSort _ _

/-- Sorted lists of the same findings are the same list when no two of them tie. -/
theorem eq_of_perm_of_sorted {fs gs : List Finding} (hperm : fs.Perm gs)
    (hkeys : ∀ f ∈ fs, ∀ g ∈ fs, f.sortKey = g.sortKey → f = g)
    (hfs : fs.Pairwise fun f g => f.sortKey ≤ g.sortKey)
    (hgs : gs.Pairwise fun f g => f.sortKey ≤ g.sortKey) : fs = gs := by
  refine List.Perm.eq_of_pairwise (fun f g hf hg hfg hgf => ?_) hfs hgs hperm
  have hkey : f.sortKey = g.sortKey := le_antisymm hfg hgf
  exact hkeys f hf g (hperm.mem_iff.mpr hg) hkey

/-! ## Truncation -/

/-- What the ordering of a list promises, for every list of findings. -/
structure OrderedExactly (fs : List Finding) : Prop where
  /-- A smaller maximum only cuts more off. -/
  cut : ∀ n m, n ≤ m → orderedFindings fs n = (orderedFindings fs m).take n
  /-- The cached path agrees with the fresh one. -/
  again : ∀ n m, n ≤ m → orderedFindings (orderedFindings fs m) n = orderedFindings fs n
  sorted : ∀ maximum, fs.length ≤ maximum →
    (orderedFindings fs maximum).Pairwise fun f g => f.sortKey ≤ g.sortKey
  ids_nodup : ∀ maximum, fs.length ≤ maximum → ((orderedFindings fs maximum).map (·.id)).Nodup
  ids : ∀ maximum, fs.length ≤ maximum →
    ∀ id, id ∈ (orderedFindings fs maximum).map (·.id) ↔ id ∈ fs.map (·.id)
  last : ∀ maximum, fs.length ≤ maximum →
    ∀ f ∈ orderedFindings fs maximum, (fs.filter fun g => g.id = f.id).getLast? = some f

theorem orderedFindings_take (fs : List Finding) {n m : Nat} (h : n ≤ m) :
    orderedFindings fs n = (orderedFindings fs m).take n := by
  rw [orderedFindings_eq_take, orderedFindings_eq_take, List.take_take, Nat.min_eq_left h]

theorem orderedAll_length_le (fs : List Finding) : (orderedAll fs).length ≤ fs.length := by
  -- the ids are distinct ids of the list
  have hsub : (orderedAll fs).map (·.id) ⊆ fs.map (·.id) := by
    intro id hid
    obtain ⟨f, hf, rfl⟩ := List.mem_map.mp hid
    have hmem := mem_of_mem_orderedAll hf
    exact List.mem_map_of_mem hmem
  have hle := ((orderedAll_ids_nodup fs).subperm hsub).length_le
  simpa using hle

/-- A maximum that no list of findings exceeds cuts nothing off. -/
theorem orderedFindings_of_length_le {fs : List Finding} {maximum : Nat}
    (h : fs.length ≤ maximum) : orderedFindings fs maximum = orderedAll fs := by
  rw [orderedFindings_eq_take, List.take_of_length_le]
  exact (orderedAll_length_le fs).trans h

theorem orderedFindings_exact (fs : List Finding) : OrderedExactly fs := by
  refine ⟨fun n m h => orderedFindings_take fs h, fun n m h => ?again, ?sorted, ?nodup, ?ids, ?last⟩
  case again => rw [orderedFindings_orderedFindings, orderedFindings_take fs h]
  all_goals
    intro maximum h
    rw [orderedFindings_of_length_le h]
  case sorted => exact orderedAll_sorted fs
  case nodup => exact orderedAll_ids_nodup fs
  case ids =>
    intro id
    constructor
    · intro hid
      obtain ⟨f, hf, rfl⟩ := List.mem_map.mp hid
      have hmem := mem_of_mem_orderedAll hf
      exact List.mem_map_of_mem hmem
    · intro hid
      obtain ⟨f, hf, rfl⟩ := List.mem_map.mp hid
      obtain ⟨g, hg, hsame⟩ := exists_mem_orderedAll_id hf
      exact List.mem_map.mpr ⟨g, hg, hsame⟩
  case last =>
    intro f hf
    exact mem_orderedAll.mp hf

end DiffReview
