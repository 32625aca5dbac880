import Mathlib

/-!
# Python text

Strings of the embedded Python programs, as lists of code points, with the `str`
methods they call. A Python string may hold lone surrogates, which `Char` excludes, so
a character is a code point below `0x110000` and `encode("utf-8")` can fail.

* `splitlines` is `str.splitlines(keepends=True)`: it breaks at every Unicode line
  boundary, not only at LF.
* `decimal` is `str(n)` of a natural number and `int` reads a digit string back, both
  with CPython's limit of `maxStrDigits` digits (`strInt`, `int`).
* `encode` is UTF-8 and is injective (`encode_injective`).
-/

namespace Py

/-- One element of a Python `str`: a code point, lone surrogates included. -/
abbrev Chr := Fin 0x110000

instance instNeZeroChr : NeZero 0x110000 := ⟨by decide⟩

/-- A Python `str`. -/
abbrev Str := List Chr

def Chr.ofChar (c : Char) : Chr :=
  ⟨c.toNat, by
    rcases c.valid with h | h
    · have h' : c.toNat < 0xd800 := h
      omega
    · exact h.2⟩

instance : Coe Char Chr := ⟨Chr.ofChar⟩

/-- The string a source literal denotes. -/
def lit (s : String) : Str := s.toList.map Chr.ofChar

/-! ## Character classes -/

/-- `c.isspace()`, which is also what `\s` matches. -/
def isSpace (c : Chr) : Bool :=
  (9 ≤ c.val && c.val ≤ 13) || (28 ≤ c.val && c.val ≤ 32) || c.val == 0x85 || c.val == 0xa0
    || c.val == 0x1680 || (0x2000 ≤ c.val && c.val ≤ 0x200a) || c.val == 0x2028
    || c.val == 0x2029 || c.val == 0x202f || c.val == 0x205f || c.val == 0x3000

/-- The characters `str.splitlines` breaks at. -/
def isLineBreak (c : Chr) : Bool :=
  (10 ≤ c.val && c.val ≤ 13) || (28 ≤ c.val && c.val ≤ 30) || c.val == 0x85
    || c.val == 0x2028 || c.val == 0x2029

/-- The zero of each run of ten decimal digits (category `Nd`) of Unicode 15. -/
def decimalZeros : List Nat :=
  [0x30, 0x660, 0x6f0, 0x7c0, 0x966, 0x9e6, 0xa66, 0xae6, 0xb66, 0xbe6, 0xc66, 0xce6, 0xd66,
    0xde6, 0xe50, 0xed0, 0xf20, 0x1040, 0x1090, 0x17e0, 0x1810, 0x1946, 0x19d0, 0x1a80, 0x1a90,
    0x1b50, 0x1bb0, 0x1c40, 0x1c50, 0xa620, 0xa8d0, 0xa900, 0xa9d0, 0xa9f0, 0xaa50, 0xabf0,
    0xff10, 0x104a0, 0x10d30, 0x11066, 0x110f0, 0x11136, 0x111d0, 0x112f0, 0x11450, 0x114d0,
    0x11650, 0x116c0, 0x11730, 0x118e0, 0x11950, 0x11c50, 0x11d50, 0x11da0, 0x11f50, 0x16a60,
    0x16ac0, 0x16b50, 0x1d7ce, 0x1d7d8, 0x1d7e2, 0x1d7ec, 0x1d7f6, 0x1e140, 0x1e2f0, 0x1e4f0,
    0x1e950, 0x1fbf0]

/-- The value of a decimal digit of any script, as `int()` reads it. -/
def digitValue (c : Chr) : Option Nat :=
  (decimalZeros.find? fun z => z ≤ c.val && c.val < z + 10).map fun z => c.val - z

/-- What `\d` matches. -/
def isDecimal (c : Chr) : Bool := (digitValue c).isSome

/-! ## String methods -/

def startswith (s p : Str) : Bool := p.isPrefixOf s

def lf : Chr := Chr.ofChar '\n'

def cr : Chr := Chr.ofChar '\r'

/-- `s.strip()`. -/
def strip (s : Str) : Str := (s.dropWhile isSpace).rdropWhile isSpace

/-- `s.rstrip("\r\n")`. -/
def rstripNewline (s : Str) : Str := s.rdropWhile fun c => c == cr || c == lf

/-- `s.split(sep, 1)[0]`. -/
def beforeFirst (sep : Chr) (s : Str) : Str := s.takeWhile fun c => c != sep

/-- `s.split()`: the maximal runs of characters that are not whitespace. -/
def split (s : Str) : List Str := (s.splitOnP isSpace).filter fun w => w != []

/-- `sep.join(parts)`. -/
def join (sep : Str) (parts : List Str) : Str := sep.intercalate parts

/-- `s.splitlines(keepends=True)`. A CR before an LF does not end the line: the LF does. -/
def splitlines : Str → List Str
  | [] => []
  | c :: cs =>
    if isLineBreak c && !(c == cr && cs.head? == some lf) then [c] :: splitlines cs
    else match splitlines cs with
      | [] => [[c]]
      | l :: ls => (c :: l) :: ls

/-- A line without a line boundary, ended by LF, is split off whole. -/
theorem splitlines_line (l rest : Str) (h : ∀ c ∈ l, isLineBreak c = false) :
    splitlines (l ++ lf :: rest) = (l ++ [lf]) :: splitlines rest := by
  induction l with
  | nil =>
    rw [List.nil_append, splitlines, if_pos]
    · rfl
    · rw [show isLineBreak lf = true from by decide, show (lf == cr) = false from by decide]
      rfl
  | cons c cs ih =>
    have hc : isLineBreak c = false := h c (by simp)
    have hcs := ih fun d hd => h d (by simp [hd])
    rw [List.cons_append, splitlines, if_neg (by simp [hc]), hcs]
    rfl

/-- A text made of such lines is split into exactly these lines. -/
theorem splitlines_flatten (ls : List Str) (h : ∀ l ∈ ls, ∀ c ∈ l, isLineBreak c = false) :
    splitlines (ls.flatMap fun l => l ++ [lf]) = ls.map fun l => l ++ [lf] := by
  induction ls with
  | nil => rfl
  | cons l ls ih =>
    rw [List.flatMap_cons, List.append_assoc, List.singleton_append,
      splitlines_line l _ (h l (by simp)), ih fun l' hl' => h l' (by simp [hl'])]
    rfl

/-! ## The lines of a text -/

/-- Reading one character of a text: it ends its line or joins the next one. -/
theorem splitlines_cons_break {c : Chr} {cs : Str} (hc : isLineBreak c = true)
    (hcrlf : c = cr → cs.head? ≠ some lf) : splitlines (c :: cs) = [c] :: splitlines cs := by
  rw [splitlines, if_pos]
  have hnot : (c == cr && cs.head? == some lf) = false := by
    rw [Bool.and_eq_false_iff, beq_eq_false_iff_ne, beq_eq_false_iff_ne]
    exact Decidable.or_iff_not_imp_left.mpr fun h => hcrlf (not_not.mp h)
  rw [hc, hnot]
  rfl

theorem splitlines_cons_join {c : Chr} {cs : Str}
    (hc : ¬(isLineBreak c = true ∧ (c = cr → cs.head? ≠ some lf))) : splitlines (c :: cs) =
      (c :: (splitlines cs).headD []) :: (splitlines cs).tail := by
  rw [splitlines, if_neg]
  · cases splitlines cs <;> rfl
  · intro hsplit
    rw [Bool.and_eq_true, Bool.not_eq_true', Bool.and_eq_false_iff, beq_eq_false_iff_ne,
      beq_eq_false_iff_ne] at hsplit
    exact hc ⟨hsplit.1, fun hcr => hsplit.2.resolve_left (not_not.mpr hcr)⟩

/-- The lines are the text, cut. -/
theorem flatten_splitlines (s : Str) : (splitlines s).flatten = s := by
  induction s with
  | nil => rfl
  | cons c cs ih =>
    rw [splitlines]
    split
    · rw [List.flatten_cons, ih, List.singleton_append]
    · cases hcs : splitlines cs with
      | nil =>
        rw [hcs] at ih
        rw [← ih]
        rfl
      | cons l ls =>
        rw [hcs, List.flatten_cons] at ih
        rw [List.flatten_cons, List.cons_append, ih]

theorem ne_nil_of_mem_splitlines {s l : Str} (h : l ∈ splitlines s) : l ≠ [] := by
  induction s generalizing l with
  | nil => cases h
  | cons c cs ih =>
    rw [splitlines] at h
    split at h
    · rcases List.mem_cons.mp h with rfl | h
      · exact List.cons_ne_nil _ _
      · exact ih h
    · cases hcs : splitlines cs with
      | nil =>
        rw [hcs] at h
        rw [List.mem_singleton.mp h]
        exact List.cons_ne_nil _ _
      | cons l' ls =>
        rw [hcs] at h
        rcases List.mem_cons.mp h with rfl | h
        · exact List.cons_ne_nil _ _
        · exact ih (hcs ▸ List.mem_cons_of_mem _ h)

theorem splitlines_ne_nil {s : Str} (h : s ≠ []) : splitlines s ≠ [] := fun hnil => by
  have := flatten_splitlines s
  rw [hnil] at this
  exact h this.symm

/-- A cut behind a line boundary is a cut between two lines. -/
theorem splitlines_append {a b : Str} (h : ∀ c, a.getLast? = some c →
    isLineBreak c = true ∧ (c = cr → b.head? ≠ some lf)) :
    splitlines (a ++ b) = splitlines a ++ splitlines b := by
  induction a with
  | nil => rfl
  | cons c cs ih =>
    by_cases hcs : cs = []
    · subst hcs
      obtain ⟨hbreak, hcrlf⟩ := h c rfl
      rw [List.singleton_append, splitlines_cons_break hbreak hcrlf,
        splitlines_cons_break hbreak fun _ hnil => by cases hnil]
      rfl
    · have hhead : (cs ++ b).head? = cs.head? := List.head?_append_of_ne_nil _ hcs
      have ih := ih fun d hd => h d (by rw [List.getLast?_cons_of_ne_nil hcs, hd])
      rw [List.cons_append]
      by_cases hc : isLineBreak c = true ∧ (c = cr → cs.head? ≠ some lf)
      · rw [splitlines_cons_break hc.1 hc.2, splitlines_cons_break hc.1 (hhead ▸ hc.2), ih,
          List.cons_append]
      · rw [splitlines_cons_join hc, splitlines_cons_join (hhead ▸ hc), ih]
        -- the line that `c` joins is the first one on both sides
        obtain ⟨l, ls, hl⟩ := List.exists_cons_of_ne_nil (splitlines_ne_nil hcs)
        rw [hl]
        rfl

/-- A text without a line boundary stays in the first line. -/
theorem splitlines_append_noBreak {p : Str} (hp : p ≠ []) (h : ∀ c ∈ p, isLineBreak c = false)
    (t : Str) : ∃ l ls, splitlines (p ++ t) = (p ++ l) :: ls := by
  induction p with
  | nil => exact absurd rfl hp
  | cons c p ih =>
    obtain ⟨hc, hrest⟩ := List.forall_mem_cons.mp h
    have hjoin : ¬(isLineBreak c = true ∧ (c = cr → (p ++ t).head? ≠ some lf)) := by simp [hc]
    rw [List.cons_append, splitlines_cons_join hjoin]
    cases p with
    | nil => exact ⟨_, _, rfl⟩
    | cons d p =>
      obtain ⟨l, ls, hls⟩ := ih (List.cons_ne_nil _ _) hrest
      exact ⟨l, ls, by rw [hls]; rfl⟩

theorem splitlines_append_lf (a b : Str) :
    splitlines (a ++ lf :: b) = splitlines (a ++ [lf]) ++ splitlines b := by
  rw [List.append_cons]
  refine splitlines_append fun c hc => ?_
  rw [List.getLast?_concat] at hc
  cases hc
  exact ⟨by decide, fun hcr => absurd hcr (by decide)⟩

theorem splitlines_flatMap_lf {texts : List Str} (h : ∀ t ∈ texts, t.getLast? = some lf) :
    splitlines texts.flatten = texts.flatMap splitlines := by
  induction texts with
  | nil => rfl
  | cons t texts ih =>
    obtain ⟨ht, htexts⟩ := List.forall_mem_cons.mp h
    obtain ⟨a, rfl⟩ : ∃ a, t = a ++ [lf] := List.getLast?_eq_some_iff.mp ht
    rw [List.flatten_cons, List.flatMap_cons, List.append_assoc, List.singleton_append,
      splitlines_append_lf, ih htexts]

/-- Any first lines of a text are the lines of the text they make. -/
theorem splitlines_take (s : Str) (k : Nat) :
    splitlines ((splitlines s).take k).flatten = (splitlines s).take k := by
  induction s generalizing k with
  | nil => simp [splitlines]
  | cons c cs ih =>
    cases k with
    | zero => rfl
    | succ k =>
      -- what follows `c` starts as before, or is gone
      have hhead : ∀ k, ((splitlines cs).take k).flatten.head? ≠ some lf ∨
          ((splitlines cs).take k).flatten.head? = cs.head? := by
        intro k
        have hcs := flatten_splitlines cs
        rw [← List.take_append_drop k (splitlines cs), List.flatten_append] at hcs
        cases hk : ((splitlines cs).take k).flatten with
        | nil => exact .inl nofun
        | cons x xs =>
          rw [hk] at hcs
          exact .inr (by rw [← hcs]; rfl)
      by_cases hc : isLineBreak c = true ∧ (c = cr → cs.head? ≠ some lf)
      · rw [splitlines_cons_break hc.1 hc.2, List.take_succ_cons, List.flatten_cons,
          List.singleton_append, splitlines_cons_break hc.1 fun hcr => ?_, ih]
        rcases hhead k with h | h
        · exact h
        · exact h ▸ hc.2 hcr
      · cases hcs : splitlines cs with
        | nil =>
          rw [splitlines_cons_join hc, hcs]
          have hnil : cs = [] := by rw [← flatten_splitlines cs, hcs]; rfl
          rw [hnil] at hc
          have : splitlines [c] = [[c]] := by rw [splitlines_cons_join hc]; rfl
          simpa using this
        | cons l ls =>
          have hl : l ≠ [] := ne_nil_of_mem_splitlines (hcs ▸ List.mem_cons_self)
          have hk := ih (k + 1)
          rw [hcs, List.take_succ_cons, List.flatten_cons] at hk
          have hsame : (l ++ (ls.take k).flatten).head? = cs.head? := by
            rw [← flatten_splitlines cs, hcs, List.flatten_cons, List.head?_append_of_ne_nil _ hl,
              List.head?_append_of_ne_nil _ hl]
          rw [splitlines_cons_join hc, hcs, List.headD_cons, List.tail_cons, List.take_succ_cons,
            List.flatten_cons, List.cons_append, splitlines_cons_join (hsame ▸ hc), hk]
          rfl

/-- Any last lines of a text are the lines of the text they make. -/
theorem splitlines_drop (s : Str) (k : Nat) :
    splitlines ((splitlines s).drop k).flatten = (splitlines s).drop k := by
  induction s generalizing k with
  | nil => simp [splitlines]
  | cons c cs ih =>
    cases k with
    | zero => rw [List.drop_zero, flatten_splitlines]
    | succ k =>
      rw [splitlines]
      split
      · rw [List.drop_succ_cons, ih]
      · cases hcs : splitlines cs with
        | nil => simp [splitlines]
        | cons l ls =>
          have hk := ih (k + 1)
          rw [hcs] at hk
          exact hk

/-- A line is the only line of itself. -/
theorem splitlines_of_mem {s l : Str} (h : l ∈ splitlines s) : splitlines l = [l] := by
  obtain ⟨before, after, hs⟩ := List.append_of_mem h
  have hdrop := splitlines_drop s before.length
  rw [hs, List.drop_left] at hdrop
  have htake := splitlines_take (l :: after).flatten 1
  rw [hdrop, List.take_succ_cons, List.take_zero, List.flatten_singleton] at htake
  exact htake

/-- Inside a line a boundary can only be a CR in front of an LF. -/
theorem eq_cr_of_one_line {a b : Str} {c : Chr} (h : splitlines (a ++ c :: b) = [a ++ c :: b])
    (hc : isLineBreak c = true) (hb : b ≠ []) : c = cr ∧ b.head? = some lf := by
  by_contra hnot
  have hcut : splitlines ((a ++ [c]) ++ b) = splitlines (a ++ [c]) ++ splitlines b := by
    refine splitlines_append fun d hd => ?_
    rw [List.getLast?_concat] at hd
    cases hd
    exact ⟨hc, fun hcr hlf => hnot ⟨hcr, hlf⟩⟩
  have hfirst := List.length_pos_iff.mpr (splitlines_ne_nil (s := a ++ [c]) (by simp))
  have hrest := List.length_pos_iff.mpr (splitlines_ne_nil hb)
  rw [List.append_assoc, List.singleton_append, h] at hcut
  have hone := congrArg List.length hcut
  rw [List.length_append, List.length_singleton] at hone
  omega

/-! ## Starts and ends of lines -/

/-- Taking the line break off a line without another one. -/
theorem rstripNewline_append_lf {s : Str} (h : ∀ c ∈ s, isLineBreak c = false) :
    rstripNewline (s ++ [lf]) = s := by
  have hcr : isLineBreak cr = true := by decide
  have hlf : isLineBreak lf = true := by decide
  rw [rstripNewline, List.rdropWhile_concat_pos (fun c => c == cr || c == lf) s lf (by decide),
    List.rdropWhile_eq_self_iff]
  intro hne hlast
  have hbreak := h _ (List.getLast_mem hne)
  rcases Bool.or_eq_true_iff.mp hlast with hlast | hlast
  · rw [eq_of_beq hlast, hcr] at hbreak
    cases hbreak
  · rw [eq_of_beq hlast, hlf] at hbreak
    cases hbreak

/-- What is read of a line has no boundary in front of its last character. -/
theorem noBreak_rstripNewline {line : Str} (h : splitlines line = [line]) :
    ∀ c ∈ (rstripNewline (line.drop 1)).dropLast, isLineBreak c = false := by
  intro c hc
  rw [← Bool.not_eq_true]
  intro hbreak
  obtain ⟨a, b, hab⟩ := List.append_of_mem hc
  have hne : rstripNewline (line.drop 1) ≠ [] := by
    intro hnil
    rw [hnil] at hc
    cases hc
  -- what is read is `a`, `c`, `b` and a last character
  obtain ⟨d, hread, hd⟩ : ∃ d, rstripNewline (line.drop 1) = a ++ c :: (b ++ [d]) ∧ d ≠ lf := by
    refine ⟨(rstripNewline (line.drop 1)).getLast hne, ?_, ?_⟩
    · conv_lhs => rw [← List.dropLast_append_getLast hne, hab]
      simp
    · have hlast := List.rdropWhile_last_not (fun c => c == cr || c == lf) (line.drop 1) hne
      rintro hlf
      exact hlast (Bool.or_eq_true_iff.mpr (.inr (beq_iff_eq.mpr hlf)))
  obtain ⟨stripped, hline⟩ : ∃ stripped, line = line.take 1 ++ a ++ c :: (b ++ [d] ++ stripped) := by
    obtain ⟨stripped, hstripped⟩ := List.rdropWhile_prefix (fun c => c == cr || c == lf) (line.drop 1)
    refine ⟨stripped, ?_⟩
    conv_lhs => rw [← List.take_append_drop 1 line, ← hstripped]
    rw [show List.rdropWhile _ (line.drop 1) = a ++ c :: (b ++ [d]) from hread]
    simp
  rw [hline] at h
  obtain ⟨-, hhead⟩ := eq_cr_of_one_line h hbreak (by simp)
  cases b with
  | nil => exact hd (Option.some.inj hhead)
  | cons e b =>
    obtain rfl : e = lf := Option.some.inj hhead
    -- an LF ends the line
    have hlf : splitlines ((line.take 1 ++ a ++ [c]) ++ lf :: (b ++ [d] ++ stripped))
        = [(line.take 1 ++ a ++ [c]) ++ lf :: (b ++ [d] ++ stripped)] := by simpa using h
    have hcr := (eq_cr_of_one_line hlf (by decide) (by simp)).1
    exact absurd hcr (by decide)
@[simp] theorem startswith_nil (s : Str) : startswith s [] = true := rfl

theorem startswith_cons (c d : Chr) (s p : Str) :
    startswith (c :: s) (d :: p) = (d == c && startswith s p) := rfl

theorem startswith_cons_ne {c d : Chr} {s p : Str} (h : d ≠ c) :
    startswith (c :: s) (d :: p) = false := by
  rw [startswith_cons, beq_false_of_ne h, Bool.false_and]

theorem startswith_singleton (s : Str) (c : Chr) : startswith s [c] = (s.head? == some c) := by
  cases s with
  | nil => rfl
  | cons d s =>
    rw [startswith_cons, startswith_nil, Bool.and_true, List.head?_cons, Bool.eq_iff_iff, beq_iff_eq,
      beq_iff_eq, Option.some.injEq]
    exact eq_comm

/-- A line starts with one character only. -/
theorem startswith_other {s p q : Str} {c d : Chr} (h : startswith s (c :: p) = true) (hne : d ≠ c) :
    startswith s (d :: q) = false := by
  cases s with
  | nil => cases h
  | cons x s =>
    rw [startswith_cons, Bool.and_eq_true, beq_iff_eq] at h
    rw [startswith_cons, ← h.1, beq_eq_false_iff_ne.mpr hne, Bool.false_and]

theorem startswith_append (p s : Str) : startswith (p ++ s) p = true := by
  induction p with
  | nil => rfl
  | cons c p ih => rw [List.cons_append, startswith_cons, ih, beq_self_eq_true, Bool.and_self]

theorem mem_of_startswith {s p : Str} (h : startswith s p = true) {c : Chr} (hc : c ∈ p) : c ∈ s :=
  (List.isPrefixOf_iff_prefix.mp h).subset hc

theorem startswith_of_append {s p q : Str} (h : startswith s (p ++ q) = true) :
    startswith s p = true :=
  List.isPrefixOf_iff_prefix.mpr ((List.prefix_append p q).trans (List.isPrefixOf_iff_prefix.mp h))

theorem strip_eq_nil_iff {s : Str} : strip s = [] ↔ ∀ c ∈ s, isSpace c = true := by
  rw [strip, List.rdropWhile_eq_nil_iff]
  constructor
  · intro h c hc
    rw [← List.takeWhile_append_dropWhile (p := isSpace) (l := s)] at hc
    rcases List.mem_append.mp hc with hc | hc
    · exact List.mem_takeWhile_imp hc
    · exact h c hc
  · intro h c hc
    exact h c ((List.dropWhile_sublist _).subset hc)

/-- Whether a text starts with one that lacks its last character does not depend on that. -/
theorem startswith_concat {s p : Str} {e : Chr} (h : e ∉ p) :
    startswith (s ++ [e]) p = startswith s p := by
  induction s generalizing p with
  | nil =>
    cases p with
    | nil => rfl
    | cons d p =>
      have hd : d ≠ e := fun hd => h (hd ▸ List.mem_cons_self)
      rw [List.nil_append, startswith_cons, beq_eq_false_iff_ne.mpr hd]
      rfl
  | cons c s ih =>
    cases p with
    | nil => rfl
    | cons d p =>
      rw [List.cons_append, startswith_cons, startswith_cons, ih fun hp => h (List.mem_cons_of_mem _ hp)]

theorem startswith_append_lf {s p : Str} (h : lf ∉ p) : startswith (s ++ [lf]) p = startswith s p :=
  startswith_concat h

/-! ## Separators -/

theorem beforeFirst_append {sep : Chr} {a : Str} (h : sep ∉ a) (x : Str) :
    beforeFirst sep (a ++ sep :: x) = a := by
  have ha : ∀ c ∈ a, (c != sep) = true := fun c hc => by
    have : c ≠ sep := fun heq => h (heq ▸ hc)
    simpa using this
  rw [beforeFirst, List.takeWhile_append_of_pos ha, List.takeWhile_cons_of_neg (by simp),
    List.append_nil]

/-- A text is determined by its part before the first separator and its part after it. -/
theorem append_firstSep_inj {sep : Chr} {a b x y : Str} (ha : sep ∉ a) (hb : sep ∉ b)
    (h : a ++ sep :: x = b ++ sep :: y) : a = b ∧ x = y := by
  have hab : a = b := by
    rw [← beforeFirst_append ha x, h, beforeFirst_append hb]
  subst hab
  exact ⟨rfl, (List.cons.inj (List.append_cancel_left h)).2⟩

/-- The same at the last separator. -/
theorem append_lastSep_inj {sep : Chr} {a b x y : Str} (hx : sep ∉ x) (hy : sep ∉ y)
    (h : a ++ sep :: x = b ++ sep :: y) : a = b ∧ x = y := by
  have hrev : x.reverse ++ sep :: a.reverse = y.reverse ++ sep :: b.reverse := by
    simpa using congrArg List.reverse h
  obtain ⟨h₁, h₂⟩ := append_firstSep_inj (by simpa using hx) (by simpa using hy) hrev
  exact ⟨List.reverse_injective h₂, List.reverse_injective h₁⟩

/-! ## Integers -/

/-- CPython's limit on the digits of a decimal string that is converted from or to an
integer (`sys.get_int_max_str_digits()`). -/
def maxStrDigits : Nat := 4300

/-- The ASCII digit of a value below ten. -/
def digitChr (d : Nat) : Chr := Fin.ofNat _ (48 + d)

/-- The decimal rendering of a natural number, of whatever length. -/
def decimal (n : Nat) : Str := if n = 0 then [digitChr 0] else (Nat.digits 10 n).reverse.map digitChr

/-- `str(n)`; `none` is the `ValueError` past the digit limit. -/
def strInt (n : Nat) : Option Str := if (decimal n).length ≤ maxStrDigits then some (decimal n) else none

/-- `int(s)` of a digit string; `none` is the `ValueError`. -/
def int (s : Str) : Option Nat :=
  if s.length ≤ maxStrDigits then (s.mapM digitValue).map fun ds => Nat.ofDigits 10 ds.reverse
  else none

/-- The whitespace that `int(s)` strips: that of `s.strip()` but U+001C to U+001F. -/
def isIntSpace (c : Chr) : Bool := isSpace c && !(28 ≤ c.val && c.val ≤ 31)

/-- The digits of an integer literal, in which single underscores may stand between them. -/
def literalDigits (s : Str) : Option Str :=
  let groups := s.splitOnP fun c => c == Chr.ofChar '_'
  if groups.all fun g => g != [] && g.all isDecimal then some groups.flatten else none

/-- `int(s)` of any text; `none` is the `ValueError`. -/
def intOf (s : Str) : Option Int :=
  match (s.dropWhile isIntSpace).rdropWhile isIntSpace with
  | [] => none
  | c :: cs =>
    if c = Chr.ofChar '-' then ((literalDigits cs).bind int).map fun n => -(n : Int)
    else if c = Chr.ofChar '+' then ((literalDigits cs).bind int).map Int.ofNat
    else ((literalDigits (c :: cs)).bind int).map Int.ofNat

theorem digitValue_digitChr {d : Nat} (h : d < 10) : digitValue (digitChr d) = some d := by
  interval_cases d <;> decide

/-- The digits of `decimal n`, most significant first. -/
def digitsOf (n : Nat) : List Nat := if n = 0 then [0] else (Nat.digits 10 n).reverse

theorem decimal_eq_map (n : Nat) : decimal n = (digitsOf n).map digitChr := by
  unfold decimal digitsOf
  split <;> rfl

theorem digitsOf_lt {n d : Nat} (h : d ∈ digitsOf n) : d < 10 := by
  unfold digitsOf at h
  split at h
  · simp at h
    omega
  · exact Nat.digits_lt_base (by norm_num) (List.mem_reverse.mp h)

theorem ofDigits_digitsOf (n : Nat) : Nat.ofDigits 10 (digitsOf n).reverse = n := by
  unfold digitsOf
  split
  · simp [*]
  · rw [List.reverse_reverse, Nat.ofDigits_digits]

theorem decimal_ne_nil (n : Nat) : decimal n ≠ [] := by
  rw [decimal_eq_map]
  unfold digitsOf
  split
  · simp
  · simpa using Nat.digits_ne_nil_iff_ne_zero.mpr ‹_›

/-- Every character of a decimal rendering is an ASCII digit. -/
theorem mem_decimal {n : Nat} {c : Chr} (h : c ∈ decimal n) : ∃ d, d < 10 ∧ c = digitChr d := by
  rw [decimal_eq_map, List.mem_map] at h
  obtain ⟨d, hd, rfl⟩ := h
  exact ⟨d, digitsOf_lt hd, rfl⟩

theorem isDecimal_of_mem_decimal {n : Nat} {c : Chr} (h : c ∈ decimal n) : isDecimal c = true := by
  obtain ⟨d, hd, rfl⟩ := mem_decimal h
  rw [isDecimal, digitValue_digitChr hd]
  rfl

theorem mapM_digitValue_map (ds : List Nat) (h : ∀ d ∈ ds, d < 10) :
    (ds.map digitChr).mapM digitValue = some ds := by
  induction ds with
  | nil => rfl
  | cons d ds ih =>
    rw [List.map_cons, List.mapM_cons, digitValue_digitChr (h d (by simp)),
      ih fun e he => h e (by simp [he])]
    rfl

theorem mapM_digitValue_decimal (n : Nat) : (decimal n).mapM digitValue = some (digitsOf n) := by
  rw [decimal_eq_map]
  exact mapM_digitValue_map _ fun d => digitsOf_lt

theorem decimal_injective : Function.Injective decimal := by
  intro m n h
  have hm := mapM_digitValue_decimal m
  rw [h, mapM_digitValue_decimal, Option.some.injEq] at hm
  rw [← ofDigits_digitsOf m, ← hm, ofDigits_digitsOf]

theorem notMem_decimal {c : Chr} (h : isDecimal c = false) (n : Nat) : c ∉ decimal n :=
  fun hc => by simp [isDecimal_of_mem_decimal hc] at h

/-- A rendering is within the digit limit exactly below `10 ^ maxStrDigits`. -/
theorem length_decimal_le_iff (n : Nat) :
    (decimal n).length ≤ maxStrDigits ↔ n < 10 ^ maxStrDigits := by
  rw [decimal_eq_map, List.length_map]
  unfold digitsOf
  split
  · subst n
    exact iff_of_true (by simp [maxStrDigits]) (Nat.pow_pos (by norm_num))
  · rw [List.length_reverse]
    exact Nat.digits_length_le_iff (by norm_num) n

theorem strInt_eq_some {n : Nat} (h : n < 10 ^ maxStrDigits) : strInt n = some (decimal n) :=
  if_pos ((length_decimal_le_iff n).mpr h)

theorem strInt_eq_none {n : Nat} (h : 10 ^ maxStrDigits ≤ n) : strInt n = none :=
  if_neg fun hle => absurd ((length_decimal_le_iff n).mp hle) (by omega)

theorem eq_decimal_of_strInt {n : Nat} {s : Str} (h : strInt n = some s) : s = decimal n := by
  unfold strInt at h
  split at h
  · exact (Option.some.inj h).symm
  · cases h

/-- `int(str(n))` gives `n` back below the digit limit. -/
theorem int_decimal {n : Nat} (h : n < 10 ^ maxStrDigits) : int (decimal n) = some n := by
  rw [int, if_pos ((length_decimal_le_iff n).mpr h), mapM_digitValue_decimal, Option.map_some,
    ofDigits_digitsOf]

theorem int_decimal_eq_none {n : Nat} (h : 10 ^ maxStrDigits ≤ n) : int (decimal n) = none :=
  if_neg fun hle => absurd ((length_decimal_le_iff n).mp hle) (by omega)

theorem isIntSpace_of_mem_decimal {n : Nat} {c : Chr} (h : c ∈ decimal n) : isIntSpace c = false := by
  obtain ⟨d, hd, rfl⟩ := mem_decimal h
  interval_cases d <;> decide

theorem literalDigits_decimal (n : Nat) : literalDigits (decimal n) = some (decimal n) := by
  have hsplit : (decimal n).splitOnP (fun c => c == Chr.ofChar '_') = [decimal n] := by
    refine List.splitOnP_eq_singleton fun c hc => ?_
    obtain ⟨d, hd, rfl⟩ := mem_decimal hc
    interval_cases d <;> decide
  have hdigits : (decimal n).all isDecimal = true :=
    List.all_eq_true.mpr fun c hc => isDecimal_of_mem_decimal hc
  unfold literalDigits
  simp only [hsplit, List.all_cons, List.all_nil, hdigits, Bool.and_true, bne_iff_ne, ne_eq,
    decimal_ne_nil, not_false_eq_true, if_true, List.flatten_cons, List.flatten_nil, List.append_nil]

/-- `int(str(n))`, where `str` does not raise. -/
theorem intOf_strInt {n : Nat} {s : Str} (h : strInt n = some s) : intOf s = some (n : Int) := by
  obtain rfl := eq_decimal_of_strInt h
  have hlt : n < 10 ^ maxStrDigits := by
    by_contra hle
    rw [strInt_eq_none (not_lt.mp hle)] at h
    cases h
  have hspace : ∀ c ∈ decimal n, isIntSpace c = false := fun c hc => isIntSpace_of_mem_decimal hc
  have hstrip : ((decimal n).dropWhile isIntSpace).rdropWhile isIntSpace = decimal n := by
    rw [List.dropWhile_eq_self_iff.mpr fun hpos => by simp [hspace _ (List.getElem_mem hpos)],
      List.rdropWhile_eq_self_iff.mpr fun hne => by simp [hspace _ (List.getLast_mem hne)]]
  have hdigits := literalDigits_decimal n
  have hint := int_decimal hlt
  obtain ⟨c, cs, hcs⟩ := List.exists_cons_of_ne_nil (decimal_ne_nil n)
  obtain ⟨d, hd, rfl⟩ := mem_decimal (n := n) (hcs ▸ List.mem_cons_self : c ∈ decimal n)
  have hsign : digitChr d ≠ Chr.ofChar '-' ∧ digitChr d ≠ Chr.ofChar '+' := by
    interval_cases d <;> decide
  unfold intOf
  rw [hstrip, hcs]
  simp only [if_neg hsign.1, if_neg hsign.2]
  rw [← hcs, hdigits, Option.bind_some, hint]
  rfl

/-! ## UTF-8 -/

/-- The UTF-8 bytes of one code point; a lone surrogate has none. -/
def encodeChr (c : Chr) : Option (List UInt8) :=
  let n := c.val
  if n < 0x80 then some [UInt8.ofNat n]
  else if n < 0x800 then some [UInt8.ofNat (0xc0 + n / 64), UInt8.ofNat (0x80 + n % 64)]
  else if 0xd800 ≤ n ∧ n < 0xe000 then none
  else if n < 0x10000 then
    some [UInt8.ofNat (0xe0 + n / 4096), UInt8.ofNat (0x80 + n / 64 % 64),
      UInt8.ofNat (0x80 + n % 64)]
  else
    some [UInt8.ofNat (0xf0 + n / 262144), UInt8.ofNat (0x80 + n / 4096 % 64),
      UInt8.ofNat (0x80 + n / 64 % 64), UInt8.ofNat (0x80 + n % 64)]

/-- `s.encode("utf-8")`; `none` is the `UnicodeEncodeError` of a lone surrogate. -/
def encode (s : Str) : Option (List UInt8) := (s.mapM encodeChr).map List.flatten

theorem ofNat_inj {a b : Nat} (ha : a < 256) (hb : b < 256) :
    UInt8.ofNat a = UInt8.ofNat b ↔ a = b := by
  rw [← UInt8.toNat_inj, UInt8.toNat_ofNat', UInt8.toNat_ofNat']
  omega

/-- UTF-8 is a prefix code: the first encoded character of a byte string is determined. -/
theorem encodeChr_append_inj {c d : Chr} {bs cs xs ys : List UInt8}
    (hc : encodeChr c = some bs) (hd : encodeChr d = some cs) (h : bs ++ xs = cs ++ ys) :
    c = d ∧ xs = ys := by
  have hlc := c.isLt
  have hld := d.isLt
  simp only [encodeChr] at hc hd
  rw [Fin.ext_iff]
  split_ifs at hc hd <;> cases hc <;> cases hd <;>
    simp only [List.cons_append, List.nil_append, List.cons.injEq] at h <;>
    obtain ⟨h₀, h⟩ := h <;> rw [ofNat_inj (by omega) (by omega)] at h₀
  -- two encodings of different lengths already differ in the leading byte
  all_goals first
    | omega
    | exact ⟨h₀, h⟩
    | obtain ⟨h₁, h⟩ := h
      rw [ofNat_inj (by omega) (by omega)] at h₁
      first
      | exact ⟨by omega, h⟩
      | obtain ⟨h₂, h⟩ := h
        rw [ofNat_inj (by omega) (by omega)] at h₂
        first
        | exact ⟨by omega, h⟩
        | obtain ⟨h₃, h⟩ := h
          rw [ofNat_inj (by omega) (by omega)] at h₃
          exact ⟨by omega, h⟩

theorem encode_cons (c : Chr) (s : Str) :
    encode (c :: s) = (encodeChr c).bind fun b => (encode s).map fun bs => b ++ bs := by
  unfold encode
  rw [List.mapM_cons]
  cases encodeChr c <;> cases s.mapM encodeChr <;> rfl

theorem encodeChr_ne_nil (c : Chr) : encodeChr c ≠ some [] := by
  unfold encodeChr
  simp only
  split_ifs <;> simp

def isSurrogate (c : Chr) : Bool := 0xd800 ≤ c.val && c.val < 0xe000

theorem encodeChr_eq_none_iff {c : Chr} : encodeChr c = none ↔ isSurrogate c = true := by
  rw [isSurrogate, Bool.and_eq_true, decide_eq_true_eq, decide_eq_true_eq]
  unfold encodeChr
  simp only
  split_ifs <;> simp <;> omega

/-- Only a lone surrogate keeps a string from being encoded. -/
theorem exists_encode_iff {s : Str} :
    (∃ bytes, encode s = some bytes) ↔ ∀ c ∈ s, isSurrogate c = false := by
  induction s with
  | nil => exact iff_of_true ⟨[], rfl⟩ (by simp)
  | cons c s ih =>
    rw [List.forall_mem_cons, ← ih, encode_cons]
    cases hc : encodeChr c with
    | none =>
      have hsurrogate := encodeChr_eq_none_iff.mp hc
      simp [hsurrogate]
    | some bs =>
      have hplain : isSurrogate c = false := by
        rw [← Bool.not_eq_true, ← encodeChr_eq_none_iff, hc]
        exact Option.some_ne_none bs
      cases encode s <;> simp [hplain]

/-- Two strings with the same UTF-8 bytes are the same string. -/
theorem encode_injective {s t : Str} {bs : List UInt8} (hs : encode s = some bs)
    (ht : encode t = some bs) : s = t := by
  induction s generalizing t bs with
  | nil =>
    cases t with
    | nil => rfl
    | cons d t =>
      cases hs
      rw [encode_cons] at ht
      obtain ⟨b, hb, ht⟩ := Option.bind_eq_some_iff.mp ht
      obtain ⟨bs, -, hbs⟩ := Option.map_eq_some_iff.mp ht
      rw [(List.append_eq_nil_iff.mp hbs).1] at hb
      exact absurd hb (encodeChr_ne_nil d)
  | cons c s ih =>
    rw [encode_cons] at hs
    obtain ⟨b, hb, hs⟩ := Option.bind_eq_some_iff.mp hs
    obtain ⟨bs', hbs', rfl⟩ := Option.map_eq_some_iff.mp hs
    cases t with
    | nil =>
      have hnil : b ++ bs' = [] := (Option.some.inj ht).symm
      rw [(List.append_eq_nil_iff.mp hnil).1] at hb
      exact absurd hb (encodeChr_ne_nil c)
    | cons d t =>
      rw [encode_cons] at ht
      obtain ⟨b₂, hb₂, ht⟩ := Option.bind_eq_some_iff.mp ht
      obtain ⟨bs₂, hbs₂, heq⟩ := Option.map_eq_some_iff.mp ht
      obtain ⟨rfl, rfl⟩ := encodeChr_append_inj hb hb₂ heq.symm
      rw [ih hbs' hbs₂]

end Py
