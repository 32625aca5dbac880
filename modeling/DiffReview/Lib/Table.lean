import Mathlib

/-!
# Keyed tables

Rows under a primary key, in insertion order: a database table, and a Python dictionary
when the rows are key/value pairs. The uniqueness of the keys is a field, so every
operation keeps it by construction.

* `get?` reads a row, `insert?` adds one (`none` is the unique violation), `replace`
  writes the row with the same key and `upsert` is `d[k] = v`: it keeps the position of
  the first insertion and the value of the last.
* `Before` is the order of insertion, which no `replace` changes.
-/

structure Table {κ ρ : Type} (key : ρ → κ) where
  rows : List ρ
  nodup : (rows.map key).Nodup

namespace Table

variable {κ ρ : Type} {key : ρ → κ} [DecidableEq κ]

def empty : Table key := ⟨[], List.nodup_nil⟩

/-- The keys in the order of insertion. -/
def keys (t : Table key) : List κ := t.rows.map key

def get? (t : Table key) (k : κ) : Option ρ := t.rows.find? fun r => key r = k

theorem get?_eq_none_iff {t : Table key} {k : κ} : t.get? k = none ↔ k ∉ t.keys := by
  rw [get?, List.find?_eq_none, keys, List.mem_map]
  simp

theorem get?_eq_some_iff {t : Table key} {k : κ} {r : ρ} :
    t.get? k = some r ↔ r ∈ t.rows ∧ key r = k := by
  constructor
  · intro h
    exact ⟨List.mem_of_find?_eq_some h, by simpa using List.find?_some h⟩
  · rintro ⟨hr, rfl⟩
    cases h : t.get? (key r) with
    | none => exact absurd (List.mem_map_of_mem hr) (get?_eq_none_iff.mp h)
    | some r' =>
      have hkey : key r' = key r := by simpa using List.find?_some h
      have hmem : r' ∈ t.rows := List.mem_of_find?_eq_some h
      rw [List.inj_on_of_nodup_map t.nodup hmem hr hkey]

theorem key_of_get? {t : Table key} {k : κ} {r : ρ} (h : t.get? k = some r) : key r = k :=
  (get?_eq_some_iff.mp h).2

theorem mem_keys_of_get? {t : Table key} {k : κ} {r : ρ} (h : t.get? k = some r) : k ∈ t.keys := by
  by_contra hk
  rw [get?_eq_none_iff.mpr hk] at h
  cases h

theorem get?_of_mem {t : Table key} {r : ρ} (h : r ∈ t.rows) : t.get? (key r) = some r :=
  get?_eq_some_iff.mpr ⟨h, rfl⟩

def insert (t : Table key) (r : ρ) (h : t.get? (key r) = none) : Table key :=
  ⟨t.rows ++ [r], by
    rw [List.map_append, List.map_singleton, List.nodup_append]
    refine ⟨t.nodup, List.nodup_singleton _, ?_⟩
    intro a ha b hb hab
    rw [List.mem_singleton.mp hb] at hab
    exact get?_eq_none_iff.mp h (hab ▸ ha)⟩

def insert? (t : Table key) (r : ρ) : Option (Table key) :=
  if h : t.get? (key r) = none then some (t.insert r h) else none

/-- Writes `r` over the row with its key; without such a row nothing changes. -/
def replace (t : Table key) (r : ρ) : Table key :=
  ⟨t.rows.map fun r' => if key r' = key r then r else r', by
    rw [List.map_map]
    refine (List.map_congr_left fun r' _ => ?_) ▸ t.nodup
    by_cases h : key r' = key r <;> simp [h]⟩

theorem rows_replace (t : Table key) (r : ρ) :
    (t.replace r).rows = t.rows.map fun r' => if key r' = key r then r else r' := rfl

def upsert (t : Table key) (r : ρ) : Table key :=
  if h : t.get? (key r) = none then t.insert r h else t.replace r

/-- `{key(r): r for r in rs}` -/
def fromRows (rs : List ρ) : Table key := rs.foldl upsert empty

/-! ## Reading after a write -/

theorem get?_insert (t : Table key) (r : ρ) (h : t.get? (key r) = none) (k : κ) :
    (t.insert r h).get? k = if k = key r then some r else t.get? k := by
  rw [get?, insert, List.find?_append, ← get?]
  split
  · subst k
    simp [h]
  · next hk => simp [Ne.symm hk]

theorem keys_insert (t : Table key) (r : ρ) (h : t.get? (key r) = none) :
    (t.insert r h).keys = t.keys ++ [key r] := by
  simp [keys, insert]

theorem insert?_eq_some_iff {t t' : Table key} {r : ρ} :
    t.insert? r = some t' ↔ ∃ h : t.get? (key r) = none, t' = t.insert r h := by
  unfold insert?
  split
  · next h => simp [h, eq_comm]
  · next h => simp [h]

theorem get?_of_insert? {t t' : Table key} {r : ρ} (h : t.insert? r = some t') :
    t.get? (key r) = none := (insert?_eq_some_iff.mp h).1

theorem get?_insert? {t t' : Table key} {r : ρ} (h : t.insert? r = some t') (k : κ) :
    t'.get? k = if k = key r then some r else t.get? k := by
  obtain ⟨hnone, rfl⟩ := insert?_eq_some_iff.mp h
  exact get?_insert t r hnone k

/-- An insertion leaves the other rows as they are. -/
theorem get?_insert?_of_get? {t t' : Table key} {r r' : ρ} (h : t.insert? r = some t') {k : κ}
    (hk : t.get? k = some r') : t'.get? k = some r' := by
  rw [get?_insert? h, if_neg, hk]
  rintro rfl
  exact nomatch (get?_of_insert? h).symm.trans hk

theorem keys_insert? {t t' : Table key} {r : ρ} (h : t.insert? r = some t') :
    t'.keys = t.keys ++ [key r] := by
  obtain ⟨hnone, rfl⟩ := insert?_eq_some_iff.mp h
  exact keys_insert t r hnone

@[simp] theorem keys_replace (t : Table key) (r : ρ) : (t.replace r).keys = t.keys := by
  rw [keys, keys, rows_replace, List.map_map]
  refine List.map_congr_left fun r' _ => ?_
  by_cases h : key r' = key r <;> simp [h]

theorem get?_replace_self {t : Table key} {r : ρ} (h : key r ∈ t.keys) :
    (t.replace r).get? (key r) = some r := by
  obtain ⟨r', hr', hkey⟩ := List.mem_map.mp h
  refine get?_eq_some_iff.mpr ⟨List.mem_map.mpr ⟨r', hr', ?_⟩, rfl⟩
  rw [if_pos hkey]

theorem get?_replace_ne (t : Table key) (r : ρ) {k : κ} (h : k ≠ key r) :
    (t.replace r).get? k = t.get? k := by
  rw [get?, get?, rows_replace]
  induction t.rows with
  | nil => rfl
  | cons r' rows ih =>
    rw [List.map_cons, List.find?_cons, List.find?_cons]
    by_cases hr' : key r' = key r
    · rw [if_pos hr', show decide (key r = k) = false from by simp [Ne.symm h],
        show decide (key r' = k) = false from by simp [hr', Ne.symm h]]
      exact ih
    · rw [if_neg hr']
      split
      · rfl
      · exact ih

theorem get?_replace {t : Table key} {r : ρ} (h : key r ∈ t.keys) (k : κ) :
    (t.replace r).get? k = if k = key r then some r else t.get? k := by
  split
  · subst k
    exact get?_replace_self h
  · exact get?_replace_ne t r ‹_›

theorem get?_upsert (t : Table key) (r : ρ) (k : κ) :
    (t.upsert r).get? k = if k = key r then some r else t.get? k := by
  unfold upsert
  split
  · exact get?_insert t r _ k
  · next h => exact get?_replace (by simpa [get?_eq_none_iff] using h) k

/-- A dictionary holds, under each key, the last row given for it. -/
theorem get?_fromRows (rs : List ρ) (k : κ) :
    (fromRows rs : Table key).get? k = rs.reverse.find? fun r => key r = k := by
  induction rs using List.reverseRecOn with
  | nil => rfl
  | append_singleton rs r ih =>
    rw [fromRows, List.foldl_append, List.foldl_cons, List.foldl_nil, get?_upsert, ← fromRows, ih,
      List.reverse_append, List.reverse_singleton, List.singleton_append, List.find?_cons]
    by_cases h : k = key r
    · simp [h]
    · simp [h, Ne.symm h]

theorem mem_rows_fromRows {rs : List ρ} {r : ρ} :
    r ∈ (fromRows rs : Table key).rows ↔ (rs.reverse.find? fun r' => key r' = key r) = some r := by
  rw [← get?_fromRows, get?_eq_some_iff]
  simp

theorem mem_of_mem_rows_fromRows {rs : List ρ} {r : ρ} (h : r ∈ (fromRows rs : Table key).rows) :
    r ∈ rs :=
  List.mem_reverse.mp (List.mem_of_find?_eq_some (mem_rows_fromRows.mp h))

theorem mem_keys_fromRows {rs : List ρ} {k : κ} :
    k ∈ (fromRows rs : Table key).keys ↔ k ∈ rs.map key := by
  rw [← not_iff_not, ← get?_eq_none_iff, get?_fromRows, List.find?_eq_none]
  simp

/-- Rows with distinct keys are kept as they are. -/
theorem rows_fromRows_of_nodup {rs : List ρ} (h : (rs.map key).Nodup) :
    (fromRows rs : Table key).rows = rs := by
  induction rs using List.reverseRecOn with
  | nil => rfl
  | append_singleton rs r ih =>
    rw [List.map_append, List.map_singleton, List.nodup_append] at h
    have hrows := ih h.1
    have hnone : (fromRows rs : Table key).get? (key r) = none := by
      rw [get?_eq_none_iff, mem_keys_fromRows]
      exact fun hr => h.2.2 _ hr _ (by simp) rfl
    rw [fromRows, List.foldl_append, List.foldl_cons, List.foldl_nil, ← fromRows, upsert,
      dif_pos hnone]
    exact congrArg (· ++ [r]) hrows

/-- A write that keeps a column leaves that column of the table as it is. -/
theorem map_rows_replace {α : Type} {f : ρ → α} {t : Table key} {r : ρ}
    (h : ∀ r', t.get? (key r) = some r' → f r = f r') :
    (t.replace r).rows.map f = t.rows.map f := by
  rw [rows_replace, List.map_map]
  refine List.map_congr_left fun r' hr' => ?_
  by_cases hkey : key r' = key r
  · have hget : t.get? (key r) = some r' := get?_eq_some_iff.mpr ⟨hr', hkey⟩
    simp [hkey, h r' hget]
  · simp [hkey]

/-- A write moves one row out of a count and one into it. -/
theorem countP_replace {t : Table key} {r old : ρ} (h : t.get? (key r) = some old) (p : ρ → Bool) :
    (t.replace r).rows.countP p + (if p old then 1 else 0)
      = t.rows.countP p + if p r then 1 else 0 := by
  obtain ⟨hmem, hkey⟩ := get?_eq_some_iff.mp h
  obtain ⟨rows, rows', hrows⟩ := List.append_of_mem hmem
  have hnd := t.nodup
  rw [hrows, List.map_append, List.map_cons, List.nodup_append, List.nodup_cons] at hnd
  -- no other row has the key
  have hother : ∀ r' ∈ rows ++ rows', key r' ≠ key r := by
    intro r' hr' heq
    rcases List.mem_append.mp hr' with hr' | hr'
    · exact hnd.2.2 _ (List.mem_map_of_mem hr') _ (List.mem_cons_self) (heq.trans hkey.symm)
    · exact hnd.2.1.1 ((heq.trans hkey.symm) ▸ List.mem_map_of_mem hr')
  have hkeep : ∀ l : List ρ, (∀ r' ∈ l, r' ∈ rows ++ rows') →
      (l.map fun r' => if key r' = key r then r else r') = l := by
    intro l hl
    refine (List.map_congr_left fun r' hr' => ?_).trans (List.map_id l)
    exact if_neg (hother r' (hl r' hr'))
  rw [rows_replace, hrows, List.map_append, List.map_cons, hkeep rows fun _ => List.mem_append_left _,
    hkeep rows' fun _ => List.mem_append_right _, if_pos hkey, List.countP_append, List.countP_append,
    List.countP_cons, List.countP_cons]
  omega

/-- A dictionary keeps the keys it has, in their order, in front of the new ones. -/
theorem prefix_keys_upsert (t : Table key) (r : ρ) : t.keys <+: (t.upsert r).keys := by
  unfold upsert
  split
  · rw [keys_insert]
    exact List.prefix_append _ _
  · rw [keys_replace]

theorem prefix_keys_fromRows_append (rs rs' : List ρ) :
    (fromRows rs : Table key).keys <+: (fromRows (rs ++ rs') : Table key).keys := by
  induction rs' using List.reverseRecOn with
  | nil => rw [List.append_nil]
  | append_singleton rs' r ih =>
    have hlast : (fromRows (rs ++ (rs' ++ [r])) : Table key) = (fromRows (rs ++ rs')).upsert r := by
      rw [← List.append_assoc]
      exact List.foldl_concat _ _ _ _
    rw [hlast]
    exact ih.trans (prefix_keys_upsert _ r)

theorem rows_insert? {t t' : Table key} {r : ρ} (h : t.insert? r = some t') :
    t'.rows = t.rows ++ [r] := by
  obtain ⟨hnone, rfl⟩ := insert?_eq_some_iff.mp h
  rfl

/-! ## The order of insertion -/

/-- The row of `a` was inserted before the row of `b`. -/
def Before (t : Table key) (a b : κ) : Prop := [a, b].Sublist t.keys

omit [DecidableEq κ] in
theorem Before.ne {t : Table key} {a b : κ} (h : t.Before a b) : a ≠ b := by
  have hnd : [a, b].Nodup := h.nodup t.nodup
  simpa using hnd

/-- A column that increases with the rows increases along `Before`. -/
theorem Before.lt_of_pairwise {t : Table key} {a b : κ} {ra rb : ρ} {f : ρ → Nat}
    (h : t.Before a b) (hf : (t.rows.map f).Pairwise (· < ·)) (ha : t.get? a = some ra)
    (hb : t.get? b = some rb) : f ra < f rb := by
  obtain ⟨rows, hsub, hrows⟩ := List.sublist_map_iff.mp h
  obtain ⟨ra', rest, rfl, rfl, hrest⟩ := List.map_eq_cons_iff.mp hrows.symm
  obtain ⟨rb', rest', rfl, rfl, hnil⟩ := List.map_eq_cons_iff.mp hrest
  have hra : ra' = ra := by
    rw [get?_of_mem (hsub.subset (by simp))] at ha
    exact Option.some.inj ha
  have hrb : rb' = rb := by
    rw [get?_of_mem (hsub.subset (by simp))] at hb
    exact Option.some.inj hb
  have hlt := hf.sublist (hsub.map f)
  rw [List.map_cons, List.map_cons, List.pairwise_cons] at hlt
  rw [← hra, ← hrb]
  exact hlt.1 _ (by simp)

@[simp] theorem before_replace {t : Table key} {r : ρ} {a b : κ} :
    (t.replace r).Before a b ↔ t.Before a b := by
  rw [Before, Before, keys_replace]

theorem before_insert?_of_before {t t' : Table key} {r : ρ} (h : t.insert? r = some t') {a b : κ}
    (hab : t.Before a b) : t'.Before a b := by
  rw [Before, keys_insert? h]
  exact hab.trans (List.sublist_append_left _ _)

/-- A new row comes after every row that is already there. -/
theorem before_insert?_new {t t' : Table key} {r : ρ} (h : t.insert? r = some t') {a : κ}
    (ha : a ∈ t.keys) : t'.Before a (key r) := by
  rw [Before, keys_insert? h]
  exact (List.singleton_sublist.mpr ha).append (List.Sublist.refl _)

end Table
