import Mathlib

/-!
# Cutting a list into consecutive blocks

Elements with a size, cut into blocks under a size bound that a block of a single element
may exceed. `greedy` fills each block as far as the bound allows. Its result is such a cut
(`greedy_isCut`), and no other has fewer blocks (`length_greedy_le`).
-/

namespace Blocks

variable {α : Type} (size : α → Nat) (bound : Int)

def total (block : List α) : Nat := (block.map size).sum

/-- A block of two or more elements keeps to the bound. -/
def Fits (block : List α) : Prop := 2 ≤ block.length → (total size block : Int) ≤ bound

/-- `blocks` cuts `xs`: nothing is lost, moved or repeated, no block is empty, every block
of two or more elements fits and an element above the bound is alone. -/
structure IsCut (xs : List α) (blocks : List (List α)) : Prop where
  flatten : blocks.flatten = xs
  ne_nil : ∀ block ∈ blocks, block ≠ []
  fits : ∀ block ∈ blocks, Fits size bound block
  alone : ∀ block ∈ blocks, ∀ x ∈ block, bound < size x → block = [x]

/-- Fills `current` until the next element overflows it. -/
def greedy : List α → List α → List (List α)
  | [], [] => []
  | c :: cs, [] => [c :: cs]
  | current, x :: xs =>
    if current ≠ [] ∧ bound < total size current + size x then current :: greedy [x] xs
    else greedy (current ++ [x]) xs

variable {size bound}

theorem total_append (a b : List α) : total size (a ++ b) = total size a + total size b := by
  rw [total, List.map_append, List.sum_append]
  rfl

theorem total_singleton (x : α) : total size [x] = size x := by
  rw [total, List.map_singleton, List.sum_singleton]

theorem size_le_total {block : List α} {x : α} (hx : x ∈ block) : size x ≤ total size block :=
  List.single_le_sum (fun _ _ => Nat.zero_le _) _ (List.mem_map_of_mem hx)

theorem fits_singleton (x : α) : Fits size bound [x] := fun h => by simp at h

theorem Fits.tail {x : α} {block : List α} (h : Fits size bound (x :: block)) :
    Fits size bound block := by
  intro hlength
  have hle := h (by rw [List.length_cons]; omega)
  rw [← List.singleton_append, total_append] at hle
  omega

/-- A block that fits has an element above the bound only when it has no other. -/
theorem Fits.alone {block : List α} (h : Fits size bound block) {x : α} (hx : x ∈ block)
    (hlarge : bound < size x) : block = [x] := by
  have hshort : block.length < 2 := by
    by_contra hlong
    have hle := h (not_lt.mp hlong)
    have hsize : size x ≤ total size block := size_le_total hx
    omega
  match block, hshort, hx with
  | [y], _, hx => rw [List.mem_singleton.mp hx]

theorem greedy_cons (current : List α) (x : α) (xs : List α) :
    greedy size bound current (x :: xs) =
      if current ≠ [] ∧ bound < total size current + size x then
        current :: greedy size bound [x] xs
      else greedy size bound (current ++ [x]) xs := by
  cases current <;> rw [greedy]

theorem greedy_nil_cons (x : α) (xs : List α) :
    greedy size bound [] (x :: xs) = greedy size bound [x] xs := by
  rw [greedy_cons, if_neg (by simp), List.nil_append]

/-- An element above the bound is a block of its own. -/
theorem greedy_large {x : α} (hx : bound < size x) (xs : List α) :
    greedy size bound [x] xs = [x] :: greedy size bound [] xs := by
  cases xs with
  | nil => rfl
  | cons y ys =>
    have hover : bound < total size [x] + size y := by
      rw [total_singleton]
      omega
    rw [greedy_cons, if_pos ⟨List.cons_ne_nil _ _, hover⟩, greedy_nil_cons]

/-! ## The result is a cut -/

theorem greedy_isCut {current : List α} (hcur : Fits size bound current) (xs : List α) :
    IsCut size bound (current ++ xs) (greedy size bound current xs) := by
  induction xs generalizing current with
  | nil =>
    cases current with
    | nil => exact ⟨rfl, nofun, nofun, nofun⟩
    | cons c cs =>
      refine ⟨by simp [greedy], ?_, ?_, ?_⟩
      · exact List.forall_mem_singleton.mpr (List.cons_ne_nil _ _)
      · exact List.forall_mem_singleton.mpr hcur
      · exact List.forall_mem_singleton.mpr fun x hx => hcur.alone hx
  | cons x xs ih =>
    rw [greedy_cons]
    split
    · next hover =>
      have hrest := ih (fits_singleton x)
      refine ⟨?_, List.forall_mem_cons.mpr ⟨hover.1, hrest.ne_nil⟩,
        List.forall_mem_cons.mpr ⟨hcur, hrest.fits⟩,
        List.forall_mem_cons.mpr ⟨fun y hy => hcur.alone hy, hrest.alone⟩⟩
      rw [List.flatten_cons, hrest.flatten, List.singleton_append]
    · next hover =>
      have hnext : Fits size bound (current ++ [x]) := by
        intro hlength
        have hne : current ≠ [] := by
          rintro rfl
          simp at hlength
        rw [total_append, total_singleton]
        have := not_and.mp hover hne
        omega
      rw [List.append_cons]
      exact ih hnext

/-! ## No cut has fewer blocks -/

/-- What fits on top of `current` is taken in whole. -/
theorem greedy_append {current block : List α} (hne : current ≠ [])
    (hfits : (total size (current ++ block) : Int) ≤ bound) (xs : List α) :
    greedy size bound current (block ++ xs) = greedy size bound (current ++ block) xs := by
  induction block generalizing current with
  | nil => rw [List.nil_append, List.append_nil]
  | cons x block ih =>
    rw [List.append_cons] at hfits
    have hsplit : total size (current ++ [x] ++ block)
        = total size current + size x + total size block := by
      rw [total_append, total_append, total_singleton]
    have hroom : ¬(current ≠ [] ∧ bound < total size current + size x) := by omega
    rw [List.cons_append, greedy_cons, if_neg hroom, ih (by simp) hfits, List.append_assoc,
      List.singleton_append]

/-- A whole block that fits by itself costs at most one block more. -/
theorem length_greedy_append_le {current block : List α} (hne : current ≠ [])
    (hfits : Fits size bound block) (xs : List α) : ∃ next, next ≠ [] ∧
      (greedy size bound current (block ++ xs)).length
        ≤ (greedy size bound next xs).length + 1 := by
  induction block generalizing current with
  | nil => exact ⟨current, hne, Nat.le_succ _⟩
  | cons x block ih =>
    rw [List.cons_append, greedy_cons]
    split
    · -- the rest of the block follows `x` into the new block
      refine ⟨x :: block, List.cons_ne_nil _ _, le_of_eq ?_⟩
      rw [List.length_cons]
      cases block with
      | nil => rfl
      | cons y block =>
        have hle := hfits (by simp)
        rw [greedy_append (List.cons_ne_nil _ _) hle, List.singleton_append]
    · exact ih (by simp) hfits.tail

theorem length_greedy_le_succ {blocks : List (List α)}
    (hfits : ∀ block ∈ blocks, Fits size bound block) {current : List α} (hne : current ≠ []) :
    (greedy size bound current blocks.flatten).length ≤ blocks.length + 1 := by
  induction blocks generalizing current with
  | nil =>
    obtain ⟨c, cs, rfl⟩ := List.exists_cons_of_ne_nil hne
    exact le_rfl
  | cons block blocks ih =>
    obtain ⟨hblock, hblocks⟩ := List.forall_mem_cons.mp hfits
    obtain ⟨next, hnext, hle⟩ := length_greedy_append_le hne hblock blocks.flatten
    have hrest := ih hblocks hnext
    rw [List.flatten_cons, List.length_cons]
    omega

/-- The exchange argument: the first block of the other cut is taken in whole, and from
there on the greedy cut stays ahead. -/
theorem length_greedy_le {xs : List α} {blocks : List (List α)} (h : IsCut size bound xs blocks) :
    (greedy size bound [] xs).length ≤ blocks.length := by
  obtain ⟨rfl, hne, hfits, -⟩ := h
  cases blocks with
  | nil => exact le_rfl
  | cons block blocks =>
    obtain ⟨hblock, hblocks⟩ := List.forall_mem_cons.mp hfits
    obtain ⟨x, block, rfl⟩ := List.exists_cons_of_ne_nil (hne block List.mem_cons_self)
    have hfirst : greedy size bound [x] (block ++ blocks.flatten)
        = greedy size bound (x :: block) blocks.flatten := by
      cases block with
      | nil => rfl
      | cons y block => exact greedy_append (List.cons_ne_nil _ _) (hblock (by simp)) _
    rw [List.flatten_cons, List.cons_append, greedy_nil_cons, hfirst, List.length_cons]
    exact length_greedy_le_succ hblocks (List.cons_ne_nil _ _)

/-! ## Two blocks in a row are more than the bound -/

theorem bound_mul_length_greedy_le {current : List α} (hne : current ≠ []) (xs : List α) :
    bound * ((greedy size bound current xs).length - 1)
      ≤ total size current + 2 * (total size xs : Int) := by
  induction xs generalizing current with
  | nil =>
    obtain ⟨c, cs, rfl⟩ := List.exists_cons_of_ne_nil hne
    have hone : (greedy size bound (c :: cs) []).length = 1 := rfl
    rw [hone]
    omega
  | cons x xs ih =>
    have hxs : total size (x :: xs) = size x + total size xs := by
      rw [← List.singleton_append, total_append, total_singleton]
    rw [greedy_cons]
    split
    · next hover =>
      have hrest := ih (List.cons_ne_nil x [])
      rw [total_singleton] at hrest
      rw [List.length_cons, hxs]
      push_cast
      have hstep : bound * (((greedy size bound [x] xs).length : Int) + 1 - 1)
          = bound * (((greedy size bound [x] xs).length : Int) - 1) + bound := by ring
      rw [hstep]
      omega
    · have hrest := ih (List.append_ne_nil_of_right_ne_nil current (List.cons_ne_nil x []))
      rw [total_append, total_singleton] at hrest
      rw [hxs]
      omega

end Blocks
