import Mathlib

/-!
# Exclusive leases

Workers that hold keys: a key is open while it is being worked on, and a worker acquires a
key that is not open, and releases it by closing it. Then every open key has exactly one
holder. A worker that abandons its key, leaving it open, breaks this for good: no other
worker may take an open key.

* `Sound` (what is held is open, and held once) survives every move, abandoning included.
* `NoOrphan` (what is open is held) survives every move but that one, and never survives it.
-/

namespace Lease

variable {ω κ : Type}

structure Leases (ω κ : Type) where
  isOpen : Set κ
  holder : ω → Option κ

/-- What is held is open, by an allowed worker and by one only. -/
structure Sound (allowed : ω → Prop) (l : Leases ω κ) : Prop where
  held : ∀ {w k}, l.holder w = some k → k ∈ l.isOpen
  allowed : ∀ {w k}, l.holder w = some k → allowed w
  distinct : ∀ {w w' k}, l.holder w = some k → l.holder w' = some k → w = w'

/-- Every open key has exactly one holder. -/
def NoOrphan (l : Leases ω κ) : Prop := ∀ k ∈ l.isOpen, ∃! w, l.holder w = some k

variable [DecidableEq ω]

/-- The moves that a key survives. -/
inductive Move (allowed : ω → Prop) (l : Leases ω κ) : Leases ω κ → Prop where
  | keep : Move allowed l l
  | acquire {w : ω} {k : κ} (hw : allowed w) (hfree : l.holder w = none) (hk : k ∉ l.isOpen) :
      Move allowed l ⟨insert k l.isOpen, Function.update l.holder w (some k)⟩
  | release {w : ω} {k : κ} (hw : l.holder w = some k) :
      Move allowed l ⟨l.isOpen \ {k}, Function.update l.holder w none⟩

/-- A worker forgets its key, which stays open. -/
def abandon (l : Leases ω κ) (w : ω) : Leases ω κ := ⟨l.isOpen, Function.update l.holder w none⟩

variable {allowed : ω → Prop} {l l' : Leases ω κ}

/-- Forgetting a key changes the holder of that worker alone. -/
theorem holder_of_update_none {w v : ω} {k : κ}
    (h : Function.update l.holder w none v = some k) : v ≠ w ∧ l.holder v = some k := by
  rw [Function.update_apply] at h
  split at h
  · cases h
  · next hne => exact ⟨hne, h⟩

theorem Sound.move (h : Sound allowed l) (hmove : Move allowed l l') : Sound allowed l' := by
  cases hmove with
  | keep => exact h
  | @acquire w k hw hfree hk =>
    have hcases : ∀ {v j}, Function.update l.holder w (some k) v = some j →
        v = w ∧ j = k ∨ v ≠ w ∧ l.holder v = some j := by
      intro v j hv
      rw [Function.update_apply] at hv
      split at hv
      · next heq => exact .inl ⟨heq, (Option.some.inj hv).symm⟩
      · next hne => exact .inr ⟨hne, hv⟩
    refine ⟨fun {v j} hv => ?_, fun {v j} hv => ?_, fun {v v' j} hv hv' => ?_⟩
    · rcases hcases hv with ⟨-, rfl⟩ | ⟨-, hv⟩
      · exact Set.mem_insert _ _
      · exact Set.mem_insert_of_mem _ (h.held hv)
    · rcases hcases hv with ⟨rfl, -⟩ | ⟨-, hv⟩
      · exact hw
      · exact h.allowed hv
    · -- the key acquired was not open, so nobody else holds it
      rcases hcases hv with ⟨hvw, hjk⟩ | ⟨-, hold⟩
      · rcases hcases hv' with ⟨hvw', -⟩ | ⟨-, hold'⟩
        · exact hvw.trans hvw'.symm
        · exact absurd (hjk ▸ h.held hold') hk
      · rcases hcases hv' with ⟨-, hjk⟩ | ⟨-, hold'⟩
        · exact absurd (hjk ▸ h.held hold) hk
        · exact h.distinct hold hold'
  | @release w k hw =>
    refine ⟨fun {v j} hv => ?_, fun hv => h.allowed (holder_of_update_none hv).2,
      fun hv hv' => h.distinct (holder_of_update_none hv).2 (holder_of_update_none hv').2⟩
    obtain ⟨hne, hv⟩ := holder_of_update_none hv
    exact ⟨h.held hv, fun heq => hne (h.distinct hv (heq ▸ hw))⟩

theorem Sound.abandon (h : Sound allowed l) (w : ω) : Sound allowed (abandon l w) :=
  ⟨fun hv => h.held (holder_of_update_none hv).2, fun hv => h.allowed (holder_of_update_none hv).2,
    fun hv hv' => h.distinct (holder_of_update_none hv).2 (holder_of_update_none hv').2⟩

omit [DecidableEq ω] in
theorem Sound.noOrphan_iff (h : Sound allowed l) :
    NoOrphan l ↔ ∀ k ∈ l.isOpen, ∃ w, l.holder w = some k := by
  refine forall₂_congr fun k _ => ⟨ExistsUnique.exists, ?_⟩
  rintro ⟨w, hw⟩
  exact ⟨w, hw, fun v hv => h.distinct hv hw⟩

theorem NoOrphan.move (hall : NoOrphan l) (h : Sound allowed l) (hmove : Move allowed l l') :
    NoOrphan l' := by
  rw [(h.move hmove).noOrphan_iff]
  rw [h.noOrphan_iff] at hall
  cases hmove with
  | keep => exact hall
  | @acquire w k hw hfree hk =>
    intro j hj
    rcases Set.mem_insert_iff.mp hj with rfl | hj
    · exact ⟨w, Function.update_self _ _ _⟩
    · obtain ⟨v, hv⟩ := hall j hj
      have hne : v ≠ w := by
        rintro rfl
        rw [hfree] at hv
        cases hv
      exact ⟨v, (Function.update_of_ne hne _ _).trans hv⟩
  | @release w k hw =>
    rintro j ⟨hj, hne⟩
    obtain ⟨v, hv⟩ := hall j hj
    have hvw : v ≠ w := by
      rintro rfl
      rw [hw] at hv
      exact hne (Option.some.inj hv).symm
    exact ⟨v, (Function.update_of_ne hvw _ _).trans hv⟩

/-- An abandoned key is an orphan. -/
theorem Sound.not_noOrphan_abandon (h : Sound allowed l) {w : ω} {k : κ} (hw : l.holder w = some k) :
    ¬NoOrphan (Lease.abandon l w) := by
  intro hall
  obtain ⟨v, hv, -⟩ := hall k (h.held hw)
  obtain ⟨hne, hv⟩ := holder_of_update_none hv
  exact hne (h.distinct hv hw)

/-- Without orphans there are no more open keys than workers. -/
theorem NoOrphan.length_le {n : Nat} {l : Leases Nat κ} (hall : NoOrphan l) (h : Sound (· < n) l)
    {keys : List κ} (hnodup : keys.Nodup) (hopen : ∀ k ∈ keys, k ∈ l.isOpen) : keys.length ≤ n := by
  have hholder : ∀ k ∈ keys, ∃ w, w < n ∧ l.holder w = some k := by
    intro k hk
    obtain ⟨w, hw, -⟩ := hall k (hopen k hk)
    exact ⟨w, h.allowed hw, hw⟩
  choose! f hf using hholder
  have hinj : (keys.map f).Nodup := by
    refine hnodup.map_on fun a ha b hb hab => ?_
    have ha := (hf a ha).2
    rw [hab, (hf b hb).2] at ha
    exact (Option.some.inj ha).symm
  have hsub : keys.map f ⊆ List.range n := by
    intro w hw
    obtain ⟨k, hk, rfl⟩ := List.mem_map.mp hw
    exact List.mem_range.mpr (hf k hk).1
  have hle := (hinj.subperm hsub).length_le
  rwa [List.length_map, List.length_range] at hle

end Lease
