import Mathlib

/-!
# Code that may raise

Rules for computations in `Except`: what a successful `bind`, `mapM` or `foldlM` says
about its parts, and an invariant rule for loops whose body may raise.
-/

namespace Raise

variable {ε α β γ : Type}

theorem eq_ok_of_toOption {x : Except ε α} {a : α} (h : x.toOption = some a) : x = .ok a := by
  cases x with
  | error e => cases h
  | ok a' => exact congrArg Except.ok (Option.some.inj h)

theorem bind_eq_ok {x : Except ε α} {f : α → Except ε β} {b : β} :
    x >>= f = .ok b ↔ ∃ a, x = .ok a ∧ f a = .ok b := by
  cases x with
  | error e => exact ⟨nofun, fun ⟨_, h, _⟩ => nomatch h⟩
  | ok a => exact ⟨fun h => ⟨a, rfl, h⟩, fun ⟨a', h, hf⟩ => by cases h; exact hf⟩

theorem bind_eq_error {x : Except ε α} {f : α → Except ε β} {e : ε} :
    x >>= f = .error e ↔ x = .error e ∨ ∃ a, x = .ok a ∧ f a = .error e := by
  cases x with
  | error e' =>
    constructor
    · intro h
      cases h
      exact .inl rfl
    · rintro (h | ⟨a, h, -⟩)
      · cases h
        rfl
      · cases h
  | ok a =>
    constructor
    · intro h
      exact .inr ⟨a, rfl, h⟩
    · rintro (h | ⟨a', h, hf⟩)
      · cases h
      · cases h
        exact hf

theorem map_eq_ok {x : Except ε α} {f : α → β} {b : β} :
    x.map f = .ok b ↔ ∃ a, x = .ok a ∧ f a = b := by
  cases x with
  | error e => exact ⟨nofun, fun ⟨_, h, _⟩ => nomatch h⟩
  | ok a =>
    constructor
    · intro h
      exact ⟨a, rfl, Except.ok.inj h⟩
    · rintro ⟨a', h, rfl⟩
      cases h
      rfl

theorem mapM_nil {f : α → Except ε β} : ([] : List α).mapM f = .ok [] := rfl

theorem mapM_cons_eq_ok {f : α → Except ε β} {a : α} {as : List α} {bs : List β} :
    (a :: as).mapM f = .ok bs ↔ ∃ b bs', f a = .ok b ∧ as.mapM f = .ok bs' ∧ bs = b :: bs' := by
  rw [List.mapM_cons, bind_eq_ok]
  constructor
  · rintro ⟨b, hb, h⟩
    obtain ⟨bs', hbs', h⟩ := bind_eq_ok.mp h
    exact ⟨b, bs', hb, hbs', (Except.ok.inj h).symm⟩
  · rintro ⟨b, bs', hb, hbs', rfl⟩
    exact ⟨b, hb, bind_eq_ok.mpr ⟨bs', hbs', rfl⟩⟩

theorem mapM_append_eq_ok {f : α → Except ε β} {as cs : List α} {bs : List β} :
    (as ++ cs).mapM f = .ok bs ↔
      ∃ bs₁ bs₂, as.mapM f = .ok bs₁ ∧ cs.mapM f = .ok bs₂ ∧ bs = bs₁ ++ bs₂ := by
  rw [List.mapM_append, bind_eq_ok]
  constructor
  · rintro ⟨bs₁, h₁, h⟩
    obtain ⟨bs₂, h₂, h⟩ := bind_eq_ok.mp h
    exact ⟨bs₁, bs₂, h₁, h₂, (Except.ok.inj h).symm⟩
  · rintro ⟨bs₁, bs₂, h₁, h₂, rfl⟩
    exact ⟨bs₁, h₁, bind_eq_ok.mpr ⟨bs₂, h₂, rfl⟩⟩

/-- A loop over a list succeeds with `bs` exactly when each turn gives its element of `bs`. -/
theorem mapM_eq_ok {f : α → Except ε β} {as : List α} {bs : List β} :
    as.mapM f = .ok bs ↔ List.Forall₂ (fun a b => f a = .ok b) as bs := by
  induction as generalizing bs with
  | nil =>
    rw [mapM_nil, List.forall₂_nil_left_iff, Except.ok.injEq]
    exact eq_comm
  | cons a as ih =>
    rw [mapM_cons_eq_ok, List.forall₂_cons_left_iff]
    constructor
    · rintro ⟨b, bs', hb, hbs', rfl⟩
      exact ⟨b, bs', hb, ih.mp hbs', rfl⟩
    · rintro ⟨b, bs', hb, hbs', rfl⟩
      exact ⟨b, bs', hb, ih.mpr hbs', rfl⟩

theorem exists_mapM_eq_ok {f : α → Except ε β} {as : List α} :
    (∃ bs, as.mapM f = .ok bs) ↔ ∀ a ∈ as, ∃ b, f a = .ok b := by
  induction as with
  | nil => exact iff_of_true ⟨[], rfl⟩ (by simp)
  | cons a as ih =>
    rw [List.forall_mem_cons, ← ih]
    constructor
    · rintro ⟨bs, h⟩
      obtain ⟨b, bs', hb, hbs', -⟩ := mapM_cons_eq_ok.mp h
      exact ⟨⟨b, hb⟩, bs', hbs'⟩
    · rintro ⟨⟨b, hb⟩, bs', hbs'⟩
      exact ⟨b :: bs', mapM_cons_eq_ok.mpr ⟨b, bs', hb, hbs', rfl⟩⟩

theorem mem_of_mapM_eq_ok {f : α → Except ε β} {as : List α} {bs : List β} (h : as.mapM f = .ok bs)
    {b : β} (hb : b ∈ bs) : ∃ a ∈ as, f a = .ok b := by
  induction as generalizing bs with
  | nil =>
    cases h
    cases hb
  | cons a as ih =>
    obtain ⟨b', bs', hb', hbs', rfl⟩ := mapM_cons_eq_ok.mp h
    rcases List.mem_cons.mp hb with rfl | hb
    · exact ⟨a, by simp, hb'⟩
    · obtain ⟨a', ha', hf⟩ := ih hbs' hb
      exact ⟨a', by simp [ha'], hf⟩

theorem exists_mem_of_mapM_eq_ok {f : α → Except ε β} {as : List α} {bs : List β}
    (h : as.mapM f = .ok bs) {a : α} (ha : a ∈ as) : ∃ b ∈ bs, f a = .ok b := by
  have hall := List.forall₂_iff_get.mp (mapM_eq_ok.mp h)
  obtain ⟨i, hi, rfl⟩ := List.getElem_of_mem ha
  have hi' : i < bs.length := hall.1 ▸ hi
  exact ⟨bs[i], List.getElem_mem hi', hall.2 i hi hi'⟩

/-- A loop ends with the first error of its turns. -/
theorem mapM_append_cons_error {f : α → Except ε β} {as cs : List α} {a : α} {bs : List β} {e : ε}
    (has : as.mapM f = .ok bs) (ha : f a = .error e) : (as ++ a :: cs).mapM f = .error e := by
  rw [List.mapM_append, has, List.mapM_cons, ha]
  rfl

/-- Turns that all succeed or raise `e` make a loop that succeeds or raises `e`. -/
theorem mapM_ok_or_error {f : α → Except ε β} {as : List α} {e : ε}
    (h : ∀ a ∈ as, (∃ b, f a = .ok b) ∨ f a = .error e) :
    (∃ bs, as.mapM f = .ok bs) ∨ as.mapM f = .error e := by
  induction as with
  | nil => exact .inl ⟨[], rfl⟩
  | cons a as ih =>
    obtain ⟨ha, has⟩ := List.forall_mem_cons.mp h
    rw [List.mapM_cons]
    rcases ha with ⟨b, hb⟩ | he
    · rw [hb]
      rcases ih has with ⟨bs, hbs⟩ | he
      · exact .inl ⟨b :: bs, bind_eq_ok.mpr ⟨b, rfl, bind_eq_ok.mpr ⟨bs, hbs, rfl⟩⟩⟩
      · rw [he]
        exact .inr rfl
    · rw [he]
      exact .inr rfl

/-- The invariant rule of a loop whose body may raise: `P` may speak about the part of the
list already run through. -/
theorem foldlM_invariant {f : β → α → Except ε β} {as : List α} {b b' : β}
    {P : List α → β → Prop} (h : as.foldlM f b = .ok b') (h₀ : P [] b)
    (hstep : ∀ pre a c c', a ∈ as → P pre c → f c a = .ok c' → P (pre ++ [a]) c') : P as b' := by
  induction as using List.reverseRecOn generalizing b' with
  | nil =>
    cases h
    exact h₀
  | append_singleton as a ih =>
    rw [List.foldlM_append, bind_eq_ok] at h
    obtain ⟨c, hc, h⟩ := h
    rw [List.foldlM_cons, bind_eq_ok] at h
    obtain ⟨c', hc', h⟩ := h
    cases h
    exact hstep as a c b' (by simp)
      (ih hc fun pre a' d d' ha' => hstep pre a' d d' (by simp [ha'])) hc'

end Raise
