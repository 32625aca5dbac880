import DiffReview.Lib.Str

/-!
# Comments and braces

The comments of a C-like text: `//` runs to the end of the line and `/*` to the next `*/`,
and both are recognised from left to right. `codeBody` is the text up to the matching brace
without its comments, and `leadingComments` the comments a text starts with. Proofs about
either go by `text_induction`, which takes off one blank or one comment at a time.
-/

namespace Py

def slash : Chr := Chr.ofChar '/'

def asterisk : Chr := Chr.ofChar '*'

def openBrace : Chr := Chr.ofChar '\x7b'

def closeBrace : Chr := Chr.ofChar '\x7d'

/-- Where a text is read: outside comments, inside one, or at the second character of the
mark that opens or closes a block comment. -/
inductive CommentMode where
  | code
  | line
  | opening
  | block
  | closing

/-- A `//` starts at the character `c` before `cs`. -/
def startsLine (c : Chr) (cs : Str) : Bool := c == slash && cs.head? == some slash

/-- A `/*` starts at the character `c` before `cs`. -/
def startsBlock (c : Chr) (cs : Str) : Bool := c == slash && cs.head? == some asterisk

/-- A `*/` starts at the character `c` before `cs`. -/
def endsBlock (c : Chr) (cs : Str) : Bool := c == asterisk && cs.head? == some slash

/-- The text up to the brace that closes `depth` open ones, without its comments; braces in
comments do not count. `none` when the text ends first. -/
def codeBody : CommentMode → Nat → Str → Option Str
  | _, _, [] => none
  | .code, depth, c :: cs =>
    if startsLine c cs then codeBody .line depth cs
    else if startsBlock c cs then codeBody .opening depth cs
    else if c = openBrace then (codeBody .code (depth + 1) cs).map (c :: ·)
    else if c = closeBrace then
      if depth ≤ 1 then some [] else (codeBody .code (depth - 1) cs).map (c :: ·)
    else (codeBody .code depth cs).map (c :: ·)
  | .line, depth, c :: cs =>
    if c = lf then (codeBody .code depth cs).map (c :: ·) else codeBody .line depth cs
  | .opening, depth, _ :: cs => codeBody .block depth cs
  | .block, depth, c :: cs =>
    if endsBlock c cs then codeBody .closing depth cs else codeBody .block depth cs
  | .closing, depth, _ :: cs => codeBody .code depth cs

/-- The comments at the start of a text, with nothing but blanks around them; `read` is what
has been read of the comment that is open. The end of the text ends a `//` comment, but not
a `/*` comment. -/
def leadingComments : CommentMode → Str → Str → List Str
  | .line, read, [] => [read]
  | _, _, [] => []
  | .code, _, c :: cs =>
    if startsLine c cs then leadingComments .line [c] cs
    else if startsBlock c cs then leadingComments .opening [c] cs
    else if isSpace c then leadingComments .code [] cs
    else []
  | .line, read, c :: cs =>
    if c = lf then read :: leadingComments .code [] cs else leadingComments .line (read ++ [c]) cs
  | .opening, read, c :: cs => leadingComments .block (read ++ [c]) cs
  | .block, read, c :: cs =>
    if endsBlock c cs then leadingComments .closing (read ++ [c]) cs
    else leadingComments .block (read ++ [c]) cs
  | .closing, read, c :: cs => (read ++ [c]) :: leadingComments .code [] cs

/-- The depth of the open braces behind a text, comments or not; `none` when it closes the
last one. -/
def braceDepth : Nat → Str → Option Nat
  | depth, [] => some depth
  | depth, c :: cs =>
    if c = openBrace then braceDepth (depth + 1) cs
    else if c = closeBrace then if depth ≤ 1 then none else braceDepth (depth - 1) cs
    else braceDepth depth cs

/-- The first comment of some that closes the last brace is a `//` comment. -/
def closedInLine : Nat → List Str → Bool
  | _, [] => false
  | depth, c :: comments => match braceDepth depth c with
    | none => startswith c [slash, slash]
    | some depth => closedInLine depth comments

/-! ## The depth of the braces -/

theorem braceDepth_append (depth : Nat) (u t : Str) :
    braceDepth depth (u ++ t) = (braceDepth depth u).bind fun d => braceDepth d t := by
  induction u generalizing depth with
  | nil => rfl
  | cons c u ih =>
    rw [List.cons_append, braceDepth, braceDepth, ih, ih, ih]
    split
    · rfl
    · split
      · split <;> rfl
      · rfl

theorem braceDepth_pos {depth depth' : Nat} {u : Str} (hpos : 1 ≤ depth)
    (h : braceDepth depth u = some depth') : 1 ≤ depth' := by
  induction u generalizing depth with
  | nil =>
    cases h
    exact hpos
  | cons c u ih =>
    rw [braceDepth] at h
    split at h
    · exact ih (by omega) h
    · split at h
      · split at h
        · cases h
        · exact ih (by omega) h
      · exact ih hpos h

/-! ## The end of a block comment -/

/-- The text behind the first `*/`. -/
def behindBlock : Str → Option Str
  | [] => none
  | c :: cs => if endsBlock c cs then some cs.tail else behindBlock cs

/-- A text with a `*/` is cut at the first one. -/
theorem behindBlock_cases (s : Str) : behindBlock s = none ∨
    ∃ x t, s = x ++ asterisk :: slash :: t ∧ behindBlock (x ++ [asterisk]) = none := by
  induction s with
  | nil => exact .inl rfl
  | cons c cs ih =>
    cases hend : endsBlock c cs with
    | true =>
      obtain ⟨hc, hcs⟩ := Bool.and_eq_true_iff.mp hend
      rw [beq_iff_eq] at hc hcs
      obtain ⟨t, rfl⟩ := List.head?_eq_some_iff.mp hcs
      exact .inr ⟨[], t, by rw [hc]; rfl, rfl⟩
    | false =>
      rcases ih with hnone | ⟨x, t, rfl, hx⟩
      · refine .inl ?_
        rw [behindBlock, hend]
        exact hnone
      · refine .inr ⟨c :: x, t, rfl, ?_⟩
        have hhead : (x ++ [asterisk]).head? = (x ++ asterisk :: slash :: t).head? := by
          cases x <;> rfl
        rw [List.cons_append, behindBlock, endsBlock, hhead, ← endsBlock, hend]
        exact hx

/-- Behind a piece without a `*/` the end of the comment is the next one. -/
theorem behindBlock_append {x t : Str} (hx : behindBlock (x ++ [asterisk]) = none) :
    behindBlock (x ++ asterisk :: slash :: t) = some t := by
  induction x with
  | nil => rfl
  | cons c x ih =>
    have hhead : (x ++ [asterisk]).head? = (x ++ asterisk :: slash :: t).head? := by
      cases x <;> rfl
    rw [List.cons_append, behindBlock, endsBlock, hhead, ← endsBlock] at hx
    rw [List.cons_append, behindBlock]
    split at hx
    · cases hx
    · next hend => rw [if_neg hend, ih hx]

theorem prefix_behindBlock {s t : Str} (hs : behindBlock s = none) (ht : t <+: s) :
    behindBlock t = none := by
  induction t generalizing s with
  | nil => rfl
  | cons c t ih =>
    obtain ⟨u, rfl⟩ := ht
    rw [List.cons_append, behindBlock] at hs
    split at hs
    · cases hs
    · next hend =>
      have hnot : endsBlock c t = false := by
        cases t with
        | nil => simp [endsBlock]
        | cons d t => exact (Bool.not_eq_true _).mp hend
      rw [behindBlock, hnot]
      exact ih hs (List.prefix_append t u)

/-! ## Induction along a text -/

/-- A text is empty, or starts with a blank, with a comment that ends, with one that does
not, or with another character. -/
theorem text_induction {P : Str → Prop} (nil : P [])
    (blank : ∀ c t, isSpace c = true → P t → P (c :: t))
    (line : ∀ x t, lf ∉ x → P t → P (slash :: slash :: x ++ lf :: t))
    (openLine : ∀ x, lf ∉ x → P (slash :: slash :: x))
    (block : ∀ x t, behindBlock (x ++ [asterisk]) = none → P t →
      P (slash :: asterisk :: x ++ asterisk :: slash :: t))
    (openBlock : ∀ x, behindBlock x = none → P (slash :: asterisk :: x))
    (stop : ∀ c t, isSpace c = false → startsLine c t = false → startsBlock c t = false →
      P (c :: t)) (s : Str) : P s := by
  induction hn : s.length using Nat.strong_induction_on generalizing s with
  | _ n ih =>
    have hshort : ∀ t : Str, t.length < s.length → P t := fun t ht => ih t.length (hn ▸ ht) t rfl
    clear ih
    cases s with
    | nil => exact nil
    | cons c cs =>
      cases hline : startsLine c cs with
      | true =>
        obtain ⟨hc, hcs⟩ := Bool.and_eq_true_iff.mp hline
        rw [beq_iff_eq] at hc hcs
        obtain ⟨cs, rfl⟩ := List.head?_eq_some_iff.mp hcs
        subst hc
        by_cases hmem : lf ∈ cs
        · obtain ⟨x, t, rfl, hx⟩ := List.eq_append_cons_of_mem hmem
          exact line x t hx (hshort t (by simp; omega))
        · exact openLine cs hmem
      | false =>
        cases hblock : startsBlock c cs with
        | true =>
          obtain ⟨hc, hcs⟩ := Bool.and_eq_true_iff.mp hblock
          rw [beq_iff_eq] at hc hcs
          obtain ⟨cs, rfl⟩ := List.head?_eq_some_iff.mp hcs
          subst hc
          rcases behindBlock_cases cs with hnone | ⟨x, t, rfl, hx⟩
          · exact openBlock cs hnone
          · exact block x t hx (hshort t (by simp; omega))
        | false =>
          cases hspace : isSpace c with
          | true => exact blank c cs hspace (hshort cs (by simp))
          | false => exact stop c cs hspace hline hblock

/-! ## What a comment leaves of a body -/

section CodeBody

variable {depth : Nat} {x t : Str}

theorem codeBody_line (hx : lf ∉ x) :
    codeBody .line depth (x ++ lf :: t) = (codeBody .code depth t).map (lf :: ·) := by
  induction x with
  | nil => rfl
  | cons c x ih =>
    have hc : c ≠ lf := fun h => hx (h ▸ List.mem_cons_self)
    rw [List.cons_append, codeBody, if_neg hc]
    exact ih fun h => hx (List.mem_cons_of_mem _ h)

theorem codeBody_openLine (hx : lf ∉ x) : codeBody .line depth x = none := by
  induction x with
  | nil => rfl
  | cons c x ih =>
    have hc : c ≠ lf := fun h => hx (h ▸ List.mem_cons_self)
    rw [codeBody, if_neg hc]
    exact ih fun h => hx (List.mem_cons_of_mem _ h)

theorem codeBody_block (s : Str) :
    codeBody .block depth s = (behindBlock s).bind (codeBody .code depth) := by
  induction s with
  | nil => rfl
  | cons c cs ih =>
    rw [codeBody, behindBlock]
    split
    · next hend =>
      obtain ⟨-, hcs⟩ := Bool.and_eq_true_iff.mp hend
      obtain ⟨t, rfl⟩ := List.head?_eq_some_iff.mp (beq_iff_eq.mp hcs)
      rfl
    · exact ih

end CodeBody

/-- The body behind an opening brace is closed and holds nothing but comments and blanks. -/
def EmptyBody (text : Str) : Prop :=
  ∃ body, codeBody .code 1 text = some body ∧ ∀ c ∈ body, isSpace c = true

section EmptyBody

variable {x t : Str} {c : Chr}

theorem isSpace_ne (hc : isSpace c = true) : c ≠ slash ∧ c ≠ openBrace ∧ c ≠ closeBrace := by
  refine ⟨?_, ?_, ?_⟩ <;> rintro rfl <;> cases hc

theorem emptyBody_cons_iff {s : Str} (h : codeBody .code 1 s = (codeBody .code 1 t).map (c :: ·)) :
    EmptyBody s ↔ isSpace c = true ∧ EmptyBody t := by
  unfold EmptyBody
  rw [h]
  constructor
  · rintro ⟨_, hmap, hblank⟩
    obtain ⟨body, hbody, rfl⟩ := Option.map_eq_some_iff.mp hmap
    obtain ⟨hc, hrest⟩ := List.forall_mem_cons.mp hblank
    exact ⟨hc, body, hbody, hrest⟩
  · rintro ⟨hc, body, hbody, hblank⟩
    exact ⟨c :: body, by rw [hbody]; rfl, List.forall_mem_cons.mpr ⟨hc, hblank⟩⟩

theorem emptyBody_nil : ¬EmptyBody [] := by
  rintro ⟨body, hbody, -⟩
  cases hbody

theorem emptyBody_blank (hc : isSpace c = true) : EmptyBody (c :: t) ↔ EmptyBody t := by
  obtain ⟨hslash, hopen, hclose⟩ := isSpace_ne hc
  have hstart : ∀ d, (c == slash && t.head? == some d) = false := by simp [hslash]
  have hbody : codeBody .code 1 (c :: t) = (codeBody .code 1 t).map (c :: ·) := by
    rw [codeBody, startsLine, hstart, startsBlock, hstart, if_neg hopen, if_neg hclose]
    rfl
  rw [emptyBody_cons_iff hbody]
  exact and_iff_right hc

theorem emptyBody_line (hx : lf ∉ x) :
    EmptyBody (slash :: slash :: x ++ lf :: t) ↔ EmptyBody t := by
  have hslash : lf ∉ slash :: x := by simpa using ⟨by decide, hx⟩
  have hbody : codeBody .code 1 (slash :: slash :: x ++ lf :: t)
      = (codeBody .code 1 t).map (lf :: ·) := codeBody_line hslash
  rw [emptyBody_cons_iff hbody]
  exact and_iff_right rfl

theorem emptyBody_openLine (hx : lf ∉ x) : ¬EmptyBody (slash :: slash :: x) := by
  have hslash : lf ∉ slash :: x := by simpa using ⟨by decide, hx⟩
  have hbody : codeBody .code 1 (slash :: slash :: x) = none := codeBody_openLine hslash
  rintro ⟨body, hsome, -⟩
  cases hbody.symm.trans hsome

theorem emptyBody_block (hx : behindBlock (x ++ [asterisk]) = none) :
    EmptyBody (slash :: asterisk :: x ++ asterisk :: slash :: t) ↔ EmptyBody t := by
  have hbody : codeBody .code 1 (slash :: asterisk :: x ++ asterisk :: slash :: t)
      = codeBody .code 1 t := by
    show codeBody .block 1 (x ++ asterisk :: slash :: t) = _
    rw [codeBody_block, behindBlock_append hx]
    rfl
  rw [EmptyBody, hbody]
  rfl

theorem emptyBody_openBlock (hx : behindBlock x = none) : ¬EmptyBody (slash :: asterisk :: x) := by
  have hbody : codeBody .code 1 (slash :: asterisk :: x) = none := by
    show codeBody .block 1 x = none
    rw [codeBody_block, hx]
    rfl
  rintro ⟨body, hsome, -⟩
  cases hbody.symm.trans hsome

theorem emptyBody_stop (hspace : isSpace c = false) (hline : startsLine c t = false)
    (hblock : startsBlock c t = false) : EmptyBody (c :: t) ↔ c = closeBrace := by
  unfold EmptyBody
  rw [codeBody, hline, hblock, if_neg Bool.false_ne_true, if_neg Bool.false_ne_true]
  by_cases hclose : c = closeBrace
  · refine iff_of_true ⟨[], ?_, nofun⟩ hclose
    rw [hclose]
    rfl
  · refine iff_of_false ?_ hclose
    rintro ⟨body, hbody, hblank⟩
    -- the body starts with `c`, which is not blank
    have hmem : c ∈ body := by
      rw [if_neg hclose] at hbody
      split at hbody
      · obtain ⟨body, -, rfl⟩ := Option.map_eq_some_iff.mp hbody
        exact List.mem_cons_self
      · obtain ⟨body, -, rfl⟩ := Option.map_eq_some_iff.mp hbody
        exact List.mem_cons_self
    rw [hblank c hmem] at hspace
    cases hspace

end EmptyBody

/-! ## The comments at the start -/

section LeadingComments

variable {x t : Str} {c : Chr}

theorem leadingComments_blank (hc : isSpace c = true) :
    leadingComments .code [] (c :: t) = leadingComments .code [] t := by
  obtain ⟨hslash, -, -⟩ := isSpace_ne hc
  have hstart : ∀ d, (c == slash && t.head? == some d) = false := by simp [hslash]
  rw [leadingComments, startsLine, hstart, startsBlock, hstart, hc]
  rfl

theorem leadingComments_readLine (read : Str) (hx : lf ∉ x) :
    leadingComments .line read (x ++ lf :: t)
      = (read ++ x) :: leadingComments .code [] t := by
  induction x generalizing read with
  | nil => rw [List.append_nil]; rfl
  | cons c x ih =>
    have hc : c ≠ lf := fun h => hx (h ▸ List.mem_cons_self)
    rw [List.cons_append, leadingComments, if_neg hc,
      ih _ fun h => hx (List.mem_cons_of_mem _ h)]
    simp

theorem leadingComments_line (hx : lf ∉ x) :
    leadingComments .code [] (slash :: slash :: x ++ lf :: t)
      = (slash :: slash :: x) :: leadingComments .code [] t := by
  have hslash : lf ∉ slash :: x := by simpa using ⟨by decide, hx⟩
  exact leadingComments_readLine [slash] hslash

theorem leadingComments_readOpenLine (read : Str) (hx : lf ∉ x) :
    leadingComments .line read x = [read ++ x] := by
  induction x generalizing read with
  | nil => rw [List.append_nil]; rfl
  | cons c x ih =>
    have hc : c ≠ lf := fun h => hx (h ▸ List.mem_cons_self)
    rw [leadingComments, if_neg hc, ih _ fun h => hx (List.mem_cons_of_mem _ h)]
    simp

theorem leadingComments_openLine (hx : lf ∉ x) :
    leadingComments .code [] (slash :: slash :: x) = [slash :: slash :: x] := by
  have hslash : lf ∉ slash :: x := by simpa using ⟨by decide, hx⟩
  exact leadingComments_readOpenLine [slash] hslash

theorem leadingComments_readBlock (read : Str)
    (hx : behindBlock (x ++ [asterisk]) = none) :
    leadingComments .block read (x ++ asterisk :: slash :: t)
      = (read ++ x ++ [asterisk, slash]) :: leadingComments .code [] t := by
  induction x generalizing read with
  | nil =>
    show ((read ++ [asterisk]) ++ [slash]) :: leadingComments .code [] t = _
    simp
  | cons c x ih =>
    have hhead : (x ++ [asterisk]).head? = (x ++ asterisk :: slash :: t).head? := by
      cases x <;> rfl
    rw [List.cons_append, behindBlock, endsBlock, hhead, ← endsBlock] at hx
    rw [List.cons_append, leadingComments]
    split at hx
    · cases hx
    · next hend =>
      rw [if_neg hend, ih _ hx]
      simp

theorem leadingComments_block (hx : behindBlock (x ++ [asterisk]) = none) :
    leadingComments .code [] (slash :: asterisk :: x ++ asterisk :: slash :: t)
      = (slash :: asterisk :: x ++ [asterisk, slash]) :: leadingComments .code [] t :=
  leadingComments_readBlock [slash, asterisk] hx

theorem leadingComments_readOpenBlock (read : Str) (hx : behindBlock x = none) :
    leadingComments .block read x = [] := by
  induction x generalizing read with
  | nil => rfl
  | cons c x ih =>
    rw [behindBlock] at hx
    rw [leadingComments]
    split at hx
    · cases hx
    · next hend => rw [if_neg hend, ih _ hx]

theorem leadingComments_openBlock (hx : behindBlock x = none) :
    leadingComments .code [] (slash :: asterisk :: x) = [] :=
  leadingComments_readOpenBlock [slash, asterisk] hx

theorem leadingComments_stop (hspace : isSpace c = false) (hline : startsLine c t = false)
    (hblock : startsBlock c t = false) : leadingComments .code [] (c :: t) = [] := by
  rw [leadingComments, hline, hblock, hspace]
  rfl

end LeadingComments

end Py
