import DiffReview.Lib.Comments
import DiffReview.Review.MockReview

/-!
# DiffReview — swallowed exceptions

`_empty_catch_lines` matches the braces before it removes the comments, removes block
comments before line comments and looks at the first opening of a line alone. Where the
comments at the start of the block are unambiguous (`CleanComment`) it reports the line
exactly when the block of its first opening is empty (`swallows_iff`).
-/

namespace DiffReview

open Py

/-! ## The comment patterns -/

/-- Where the match of `/\*.*?\*/` at the start of a text ends. -/
def behindBlockComment : Str → Option Str
  | [] => none
  | c :: cs => if startsBlock c cs then behindBlock cs.tail else none

/-- Where the match of `//[^\n]*` at the start of a text ends. -/
def behindLineComment : Str → Option Str
  | [] => none
  | c :: cs => if startsLine c cs then some (cs.tail.dropWhile fun d => d != lf) else none

/-- The lazy star stops before the first `*/`. -/
theorem lazyLoop_closing {n : Nat} {s : Str} (hn : s.length ≤ n) (prev : Option Chr) :
    Regex.lazyLoop (Regex.chr fun _ => true).exec
      ((Regex.lit (lit "*/")).exec fun q => some q.rest) n ⟨prev, s, []⟩ = behindBlock s := by
  induction n generalizing s prev with
  | zero =>
    cases List.length_eq_zero_iff.mp (Nat.le_zero.mp hn)
    rfl
  | succ n ih =>
    cases s with
    | nil => rfl
    | cons c cs =>
      have hcs : cs.length ≤ n := by simpa using hn
      have hlit : (Regex.lit (lit "*/")).exec (fun q => some q.rest) ⟨prev, c :: cs, []⟩
          = if endsBlock c cs then some cs.tail else none :=
        Regex.exec_lit_pair (fun q : Regex.Pos Chr => some q.rest) prev
      have hnext := ih hcs (some c)
      rw [Regex.lazyLoop, hlit, behindBlock, Regex.exec_chr_cons rfl]
      simp only [List.length_cons, Nat.lt_succ_self, if_true, hnext]
      split
      · exact Option.some_or
      · exact Option.none_or

theorem behind_blockCommentRe (prev : Option Chr) (s : Str) :
    blockCommentRe.behind prev s = behindBlockComment s := by
  cases s with
  | nil => rfl
  | cons c cs =>
    show (Regex.lit [slash, asterisk]).exec _ ⟨prev, c :: cs, []⟩ = _
    rw [Regex.exec_lit_pair, behindBlockComment, startsBlock]
    split
    · exact lazyLoop_closing le_rfl _
    · rfl

theorem behind_lineCommentRe (prev : Option Chr) (s : Str) :
    lineCommentRe.behind prev s = behindLineComment s := by
  cases s with
  | nil => rfl
  | cons c cs =>
    show (Regex.lit [slash, slash]).exec _ ⟨prev, c :: cs, []⟩ = _
    rw [Regex.exec_lit_pair, behindLineComment, startsLine]
    split
    · have hsplit : cs.tail.takeWhile (fun d => d != lf) ++ cs.tail.dropWhile (fun d => d != lf)
          = cs.tail := List.takeWhile_append_dropWhile
      have hds : ∀ d ∈ cs.tail.takeWhile fun d => d != lf, (d != lf) = true :=
        fun d hd => List.mem_takeWhile_imp (p := fun d => d != lf) hd
      have hrest : (cs.tail.dropWhile fun d => d != lf).head?.any (fun d => d != lf) = false := by
        have hnot := List.head?_dropWhile_not (fun d => d != lf) cs.tail
        cases hhead : (cs.tail.dropWhile fun d => d != lf).head? with
        | none => rfl
        | some d =>
          rw [hhead] at hnot
          exact hnot
      have hlength : (cs.tail.takeWhile fun d => d != lf).length ≤ cs.tail.length :=
        (List.takeWhile_sublist _).length_le
      have hstar := Regex.loop_chr hds hrest (fun _ => rfl)
        (k := fun q : Regex.Pos Chr => some q.rest) (g := []) cs.tail.length hlength (some slash)
      rw [hsplit] at hstar
      exact hstar
    · rfl

section Erase

variable {c : Chr} {x t u : Str}

theorem eraseBlock_cons (h : startsBlock c t = false) :
    blockCommentRe.erase (c :: t) = c :: blockCommentRe.erase t := by
  refine Regex.erase_of_none behind_blockCommentRe ?_
  rw [behindBlockComment, h]
  rfl

theorem eraseBlock_open (h : behindBlock t = none) :
    blockCommentRe.erase (slash :: asterisk :: t) = slash :: asterisk :: blockCommentRe.erase t := by
  have hnone : behindBlockComment (slash :: asterisk :: t) = none := h
  rw [Regex.erase_of_none behind_blockCommentRe hnone, eraseBlock_cons rfl]

theorem eraseBlock_comment (hx : behindBlock (x ++ [asterisk]) = none) :
    blockCommentRe.erase (slash :: asterisk :: x ++ asterisk :: slash :: t)
      = blockCommentRe.erase t := by
  have hend : behindBlockComment (slash :: asterisk :: x ++ asterisk :: slash :: t) = some t :=
    behindBlock_append hx
  refine Regex.erase_of_some behind_blockCommentRe hend ?_
  simp
  omega

/-- A text without `/*` stays, unless its last character and the next one are a `/*`. -/
theorem eraseBlock_text (hu : ¬[slash, asterisk] <:+: u)
    (hlast : u.getLast? = some slash → t.head? ≠ some asterisk) :
    blockCommentRe.erase (u ++ t) = u ++ blockCommentRe.erase t := by
  induction u with
  | nil => rfl
  | cons c u ih =>
    have hstart : startsBlock c (u ++ t) = false := by
      by_contra hstart
      obtain ⟨hc, hhead⟩ := Bool.and_eq_true_iff.mp ((Bool.not_eq_false _).mp hstart)
      rw [beq_iff_eq] at hc hhead
      subst hc
      cases u with
      | nil => exact hlast rfl hhead
      | cons d u =>
        cases Option.some.inj hhead
        exact hu ⟨[], u, rfl⟩
    have hrest : u.getLast? = some slash → t.head? ≠ some asterisk := by
      cases u with
      | nil => nofun
      | cons d u => rwa [List.getLast?_cons_cons] at hlast
    rw [List.cons_append, eraseBlock_cons hstart,
      ih (fun h => hu (h.trans (List.suffix_cons c u).isInfix)) hrest]
    rfl

theorem eraseLine_cons (h : startsLine c t = false) :
    lineCommentRe.erase (c :: t) = c :: lineCommentRe.erase t := by
  refine Regex.erase_of_none behind_lineCommentRe ?_
  rw [behindLineComment, h]
  rfl

theorem eraseLine_comment (hx : lf ∉ x) :
    lineCommentRe.erase (slash :: slash :: x ++ lf :: t) = lf :: lineCommentRe.erase t := by
  have hdrop : (x ++ lf :: t).dropWhile (fun d => d != lf) = lf :: t := by
    have hall : ∀ d ∈ x, (d != lf) = true := fun d hd => by
      rw [bne_iff_ne]
      exact fun h => hx (h ▸ hd)
    rw [List.dropWhile_append_of_pos hall]
    rfl
  have hend : behindLineComment (slash :: (slash :: x ++ lf :: t)) = some (lf :: t) :=
    congrArg some hdrop
  rw [List.cons_append, Regex.erase_of_some behind_lineCommentRe hend (by simp; omega),
    eraseLine_cons rfl]

end Erase

/-! ## A body of comments -/

/-- The test of a body: nothing is left of it but blanks. -/
def OnlyComments (body : Str) : Prop := strip (lineCommentRe.erase (blockCommentRe.erase body)) = []

instance (body : Str) : Decidable (OnlyComments body) := inferInstanceAs (Decidable (_ = _))

section OnlyComments

variable {c : Chr} {x b : Str}

theorem onlyComments_blank (hc : isSpace c = true) : OnlyComments (c :: b) ↔ OnlyComments b := by
  obtain ⟨hslash, -, -⟩ := isSpace_ne hc
  have hstart : ∀ (t : Str) d, (c == slash && t.head? == some d) = false := by simp [hslash]
  rw [OnlyComments, eraseBlock_cons (hstart _ _), eraseLine_cons (hstart _ _), OnlyComments,
    strip_eq_nil_iff, strip_eq_nil_iff, List.forall_mem_cons]
  exact and_iff_right hc

theorem onlyComments_line (hx : lf ∉ x) (hno : ¬[slash, asterisk] <:+: slash :: slash :: x) :
    OnlyComments (slash :: slash :: x ++ lf :: b) ↔ OnlyComments b := by
  have herase : blockCommentRe.erase (slash :: slash :: x ++ lf :: b)
      = slash :: slash :: x ++ lf :: blockCommentRe.erase b := by
    have hhead : (lf :: b).head? ≠ some asterisk := by
      show some lf ≠ some asterisk
      decide
    rw [eraseBlock_text hno fun _ => hhead, eraseBlock_cons rfl]
  rw [OnlyComments, herase, eraseLine_comment hx, OnlyComments, strip_eq_nil_iff, strip_eq_nil_iff,
    List.forall_mem_cons]
  exact and_iff_right rfl

theorem onlyComments_openLine (hx : lf ∉ x) (hno : ¬[slash, asterisk] <:+: slash :: slash :: x) :
    OnlyComments (slash :: slash :: x) := by
  have herase : blockCommentRe.erase (slash :: slash :: x) = slash :: slash :: x := by
    have htext := eraseBlock_text (t := []) hno fun _ => nofun
    rw [List.append_nil] at htext
    exact htext.trans (List.append_nil _)
  have hend : behindLineComment (slash :: slash :: x) = some [] := by
    refine congrArg some (List.dropWhile_eq_nil_iff.mpr fun d hd => ?_)
    rw [bne_iff_ne]
    exact fun h => hx (h ▸ hd)
  rw [OnlyComments, herase, Regex.erase_of_some behind_lineCommentRe hend (by simp)]
  rfl

theorem onlyComments_block (hx : behindBlock (x ++ [asterisk]) = none) :
    OnlyComments (slash :: asterisk :: x ++ asterisk :: slash :: b) ↔ OnlyComments b := by
  rw [OnlyComments, eraseBlock_comment hx]
  rfl

theorem not_onlyComments_of_head {rest : Str} (hspace : isSpace c = false)
    (h : blockCommentRe.erase (c :: b) = c :: rest) (hline : startsLine c rest = false) :
    ¬OnlyComments (c :: b) := by
  rw [OnlyComments, h, eraseLine_cons hline, strip_eq_nil_iff]
  intro hall
  rw [hall c List.mem_cons_self] at hspace
  cases hspace

theorem not_onlyComments_openBlock (hx : behindBlock x = none) :
    ¬OnlyComments (slash :: asterisk :: x) :=
  not_onlyComments_of_head rfl (eraseBlock_open hx) rfl

theorem not_onlyComments_stop (hspace : isSpace c = false) (hline : startsLine c b = false)
    (hblock : startsBlock c b = false) : ¬OnlyComments (c :: b) := by
  refine not_onlyComments_of_head hspace (eraseBlock_cons hblock) ?_
  by_cases hc : c = slash
  · subst hc
    cases b with
    | nil => rfl
    | cons d b =>
      -- behind a slash comes neither a slash nor an asterisk
      have hd : d ≠ slash := by
        rintro rfl
        cases hline
      have hstart : startsBlock d b = false := by simp [startsBlock, hd]
      rw [eraseBlock_cons hstart]
      exact hline
  · simp [startsLine, hc]

end OnlyComments

/-! ## A block of comments -/

/-- The code's test of the text behind `depth` opening braces. -/
def ClosesEmpty (depth : Nat) (text : Str) : Prop :=
  ∃ body, closeBody depth text = some body ∧ OnlyComments body

section ClosesEmpty

variable {depth depth' : Nat} {c : Chr} {u t x : Str}

theorem closeBody_cons : closeBody depth (c :: t) =
    if c = openBrace then (closeBody (depth + 1) t).map (c :: ·)
    else if c = closeBrace then if depth ≤ 1 then some [] else (closeBody (depth - 1) t).map (c :: ·)
    else (closeBody depth t).map (c :: ·) := rfl

/-- A piece that does not close the last brace belongs to the body. -/
theorem closeBody_append (h : braceDepth depth u = some depth') :
    closeBody depth (u ++ t) = (closeBody depth' t).map (u ++ ·) := by
  induction u generalizing depth with
  | nil =>
    cases h
    simp
  | cons c u ih =>
    have hcons : ∀ d, braceDepth d u = some depth' → (closeBody d (u ++ t)).map (c :: ·)
        = (closeBody depth' t).map (c :: u ++ ·) := by
      intro d hd
      rw [ih hd, Option.map_map]
      rfl
    rw [braceDepth] at h
    rw [List.cons_append, closeBody_cons]
    split at h
    · next hopen => rw [if_pos hopen]; exact hcons _ h
    · next hopen =>
      rw [if_neg hopen]
      split at h
      · next hclose =>
        rw [if_pos hclose]
        split at h
        · cases h
        · next hdepth => rw [if_neg hdepth]; exact hcons _ h
      · next hclose => rw [if_neg hclose]; exact hcons _ h

/-- A piece that closes it holds the whole body. -/
theorem closeBody_of_closed (h : braceDepth depth u = none) : ∃ body rest,
    u = body ++ closeBrace :: rest ∧ ∀ t, closeBody depth (u ++ t) = some body := by
  induction u generalizing depth with
  | nil => cases h
  | cons c u ih =>
    have hcons : ∀ d, braceDepth d u = none → (∀ t, closeBody depth (c :: u ++ t)
        = (closeBody d (u ++ t)).map (c :: ·)) → ∃ body rest,
          c :: u = body ++ closeBrace :: rest ∧ ∀ t, closeBody depth (c :: u ++ t) = some body := by
      intro d hd hbody
      obtain ⟨body, rest, rfl, hclose⟩ := ih hd
      exact ⟨c :: body, rest, rfl, fun t => by rw [hbody, hclose]; rfl⟩
    rw [braceDepth] at h
    split at h
    · next hopen =>
      exact hcons _ h fun t => by rw [List.cons_append, closeBody_cons, if_pos hopen]
    · next hopen =>
      split at h
      · next hclose =>
        split at h
        · next hdepth =>
          refine ⟨[], u, by rw [hclose]; rfl, fun t => ?_⟩
          rw [List.cons_append, closeBody_cons, if_neg hopen, if_pos hclose, if_pos hdepth]
        · next hdepth =>
          refine hcons _ h fun t => ?_
          rw [List.cons_append, closeBody_cons, if_neg hopen, if_pos hclose, if_neg hdepth]
      · next hclose =>
        refine hcons _ h fun t => ?_
        rw [List.cons_append, closeBody_cons, if_neg hopen, if_neg hclose]

/-- The body is the text up to some point. -/
theorem prefix_closeBody {body : Str} (h : closeBody depth t = some body) : body <+: t := by
  cases hdepth : braceDepth depth t with
  | none =>
    obtain ⟨body', rest, rfl, hclose⟩ := closeBody_of_closed hdepth
    have hbody := hclose []
    rw [List.append_nil, h] at hbody
    cases hbody
    exact List.prefix_append _ _
  | some d =>
    have hnone := closeBody_append (t := []) hdepth
    rw [List.append_nil, h] at hnone
    cases hnone

/-- A piece that leaves the test of a body as it is can be taken off. -/
theorem closesEmpty_append (hdepth : braceDepth depth u = some depth')
    (hbody : ∀ b, OnlyComments (u ++ b) ↔ OnlyComments b) :
    ClosesEmpty depth (u ++ t) ↔ ClosesEmpty depth' t := by
  unfold ClosesEmpty
  rw [closeBody_append hdepth]
  constructor
  · rintro ⟨_, hmap, honly⟩
    obtain ⟨body, hclose, rfl⟩ := Option.map_eq_some_iff.mp hmap
    exact ⟨body, hclose, (hbody body).mp honly⟩
  · rintro ⟨body, hclose, honly⟩
    exact ⟨u ++ body, by rw [hclose]; rfl, (hbody body).mpr honly⟩

/-- A body that ends in a `//` comment passes the test. -/
theorem closesEmpty_closedLine (hx : lf ∉ x) (hno : ¬[slash, asterisk] <:+: slash :: slash :: x)
    (h : braceDepth depth (slash :: slash :: x) = none) : ClosesEmpty depth (slash :: slash :: x ++ t) := by
  obtain ⟨y, rest, rfl, hclose⟩ := closeBody_of_closed (show braceDepth depth x = none from h)
  have hbody : closeBody depth (slash :: slash :: (y ++ closeBrace :: rest) ++ t)
      = some (slash :: slash :: y) := by
    have htwo := closeBody_append (u := [slash, slash]) (t := y ++ closeBrace :: rest ++ t)
      (show braceDepth depth [slash, slash] = some depth from rfl)
    rw [hclose] at htwo
    exact htwo
  have hprefix : slash :: slash :: y <+: slash :: slash :: (y ++ closeBrace :: rest) :=
    ⟨closeBrace :: rest, rfl⟩
  refine ⟨_, hbody, onlyComments_openLine (fun hmem => hx ?_) fun h => hno ?_⟩
  · exact List.mem_append_left _ hmem
  · exact h.trans hprefix.isInfix

/-- A body that ends in a `/*` comment does not. -/
theorem not_closesEmpty_closedBlock (hx : behindBlock (x ++ [asterisk]) = none)
    (h : braceDepth depth (slash :: asterisk :: x ++ [asterisk, slash]) = none) :
    ¬ClosesEmpty depth (slash :: asterisk :: x ++ [asterisk, slash] ++ t) := by
  obtain ⟨y, rest, hsplit, hclose⟩ :=
    closeBody_of_closed (show braceDepth depth (x ++ [asterisk, slash]) = none from h)
  have hbody : closeBody depth (slash :: asterisk :: x ++ [asterisk, slash] ++ t)
      = some (slash :: asterisk :: y) := by
    have htwo := closeBody_append (u := [slash, asterisk]) (t := x ++ [asterisk, slash] ++ t)
      (show braceDepth depth [slash, asterisk] = some depth from rfl)
    rw [hclose] at htwo
    exact htwo
  -- the last two characters are no braces, so the body ends before them
  have hprefix : y <+: x ++ [asterisk] := by
    rcases List.eq_nil_or_concat rest with rfl | ⟨rest, d, rfl⟩
    · rw [show x ++ [asterisk, slash] = (x ++ [asterisk]) ++ [slash] by simp] at hsplit
      cases (List.append_inj' hsplit rfl).2
    · rw [show x ++ [asterisk, slash] = (x ++ [asterisk]) ++ [slash] by simp,
        show y ++ closeBrace :: rest.concat d = (y ++ closeBrace :: rest) ++ [d] by simp] at hsplit
      rw [(List.append_inj' hsplit rfl).1]
      exact List.prefix_append _ _
  rintro ⟨body, hclose', honly⟩
  cases hbody.symm.trans hclose'
  exact not_onlyComments_openBlock (prefix_behindBlock hx hprefix) honly

theorem not_closesEmpty_openBlock (hx : behindBlock x = none) :
    ¬ClosesEmpty depth (slash :: asterisk :: x) := by
  rintro ⟨body, hclose, honly⟩
  have hmap : closeBody depth (slash :: asterisk :: x)
      = (closeBody depth x).map (slash :: asterisk :: ·) :=
    closeBody_append (u := [slash, asterisk]) rfl
  rw [hmap] at hclose
  obtain ⟨b, hb, rfl⟩ := Option.map_eq_some_iff.mp hclose
  exact not_onlyComments_openBlock (prefix_behindBlock hx (prefix_closeBody hb)) honly

theorem closesEmpty_stop (hpos : 1 ≤ depth) (hspace : isSpace c = false)
    (hline : startsLine c t = false) (hblock : startsBlock c t = false) :
    ClosesEmpty depth (c :: t) ↔ depth = 1 ∧ c = closeBrace := by
  by_cases hc : depth = 1 ∧ c = closeBrace
  · obtain ⟨rfl, rfl⟩ := hc
    exact iff_of_true ⟨[], rfl, rfl⟩ ⟨rfl, rfl⟩
  · refine iff_of_false ?_ hc
    rintro ⟨body, hclose, honly⟩
    -- the body starts with `c`, and what follows `c` in it is what follows `c` in the text
    obtain ⟨b, rfl, hprefix⟩ : ∃ b, body = c :: b ∧ b <+: t := by
      have hcons : ∀ d, (closeBody d t).map (c :: ·) = some body → ∃ b, body = c :: b ∧ b <+: t := by
        intro d hd
        obtain ⟨b, hb, rfl⟩ := Option.map_eq_some_iff.mp hd
        exact ⟨b, rfl, prefix_closeBody hb⟩
      rw [closeBody_cons] at hclose
      split at hclose
      · exact hcons _ hclose
      · split at hclose
        · next hbrace =>
          rw [if_neg (fun hle => hc ⟨by omega, hbrace⟩)] at hclose
          exact hcons _ hclose
        · exact hcons _ hclose
    have hstart : ∀ d, (c == slash && t.head? == some d) = false →
        (c == slash && b.head? == some d) = false := by
      intro d hd
      cases b with
      | nil => simp
      | cons e b =>
        obtain ⟨rest, rfl⟩ := hprefix
        exact hd
    exact not_onlyComments_stop hspace (hstart _ hline) (hstart _ hblock) honly

end ClosesEmpty

/-- How the code reads the comments at the start of a block: braces in them count, and a
`}` in a `//` comment that closes the block passes for the end of an empty one. -/
theorem closesEmpty_iff {text : Str} : ∀ {depth : Nat}, 1 ≤ depth →
    (∀ comment ∈ leadingComments .code [] text, startswith comment [slash, slash] = true →
      ¬[slash, asterisk] <:+: comment) →
    (ClosesEmpty depth text ↔ closedInLine depth (leadingComments .code [] text) = true ∨
      braceDepth depth (leadingComments .code [] text).flatten = some 1 ∧ EmptyBody text) := by
  induction text using text_induction with
  | nil =>
    refine fun _ _ => iff_of_false ?_ ?_
    · rintro ⟨body, hclose, -⟩
      cases hclose
    · rintro (hline | ⟨-, hempty⟩)
      · cases hline
      · exact emptyBody_nil hempty
  | blank c t hc ih =>
    intro depth hpos hclean
    rw [leadingComments_blank hc] at hclean ⊢
    obtain ⟨-, hopen, hclose⟩ := isSpace_ne hc
    have hdepth : braceDepth depth [c] = some depth := by
      rw [braceDepth, if_neg hopen, if_neg hclose]
      rfl
    rw [emptyBody_blank hc, ← ih hpos hclean]
    exact closesEmpty_append hdepth fun b => onlyComments_blank hc
  | line x t hx ih =>
    intro depth hpos hclean
    rw [leadingComments_line hx] at hclean ⊢
    obtain ⟨hno, hrest⟩ := List.forall_mem_cons.mp hclean
    replace hno : ¬[slash, asterisk] <:+: slash :: slash :: x := hno rfl
    rw [emptyBody_line hx, List.flatten_cons, braceDepth_append, closedInLine]
    cases hdepth : braceDepth depth (slash :: slash :: x) with
    | none => exact iff_of_true (closesEmpty_closedLine hx hno hdepth) (.inl rfl)
    | some depth' =>
      have hdepth' : braceDepth depth (slash :: slash :: x ++ [lf]) = some depth' := by
        rw [braceDepth_append, hdepth]
        rfl
      have htake : ClosesEmpty depth (slash :: slash :: x ++ lf :: t) ↔ ClosesEmpty depth' t := by
        rw [show slash :: slash :: x ++ lf :: t = (slash :: slash :: x ++ [lf]) ++ t by simp]
        refine closesEmpty_append hdepth' fun b => ?_
        rw [show (slash :: slash :: x ++ [lf]) ++ b = slash :: slash :: x ++ lf :: b by simp]
        exact onlyComments_line hx hno
      exact htake.trans (ih (braceDepth_pos hpos hdepth) hrest)
  | openLine x hx =>
    intro depth hpos hclean
    rw [leadingComments_openLine hx] at hclean ⊢
    have hno := hclean _ (List.mem_singleton_self _) rfl
    rw [closedInLine]
    cases hdepth : braceDepth depth (slash :: slash :: x) with
    | none =>
      have hclosed := closesEmpty_closedLine (t := []) hx hno hdepth
      rw [List.append_nil] at hclosed
      exact iff_of_true hclosed (.inl rfl)
    | some depth' =>
      refine iff_of_false ?_ ?_
      · rintro ⟨body, hclose, -⟩
        rw [← List.append_nil (slash :: slash :: x), closeBody_append hdepth] at hclose
        cases hclose
      · rintro (hline | ⟨-, hempty⟩)
        · cases hline
        · exact emptyBody_openLine hx hempty
  | block x t hx ih =>
    intro depth hpos hclean
    rw [leadingComments_block hx] at hclean ⊢
    obtain ⟨-, hrest⟩ := List.forall_mem_cons.mp hclean
    have hsplit : ∀ b, slash :: asterisk :: x ++ asterisk :: slash :: b
        = (slash :: asterisk :: x ++ [asterisk, slash]) ++ b := by simp
    rw [emptyBody_block hx, List.flatten_cons, braceDepth_append, closedInLine, hsplit]
    cases hdepth : braceDepth depth (slash :: asterisk :: x ++ [asterisk, slash]) with
    | none =>
      refine iff_of_false (not_closesEmpty_closedBlock hx hdepth) ?_
      rintro (hline | ⟨hnone, -⟩)
      · cases hline
      · cases hnone
    | some depth' =>
      have hbody : ∀ b, OnlyComments ((slash :: asterisk :: x ++ [asterisk, slash]) ++ b)
          ↔ OnlyComments b := by
        intro b
        rw [← hsplit]
        exact onlyComments_block hx
      exact (closesEmpty_append hdepth hbody).trans (ih (braceDepth_pos hpos hdepth) hrest)
  | openBlock x hx =>
    intro depth hpos hclean
    rw [leadingComments_openBlock hx]
    refine iff_of_false (not_closesEmpty_openBlock hx) ?_
    rintro (hline | ⟨-, hempty⟩)
    · cases hline
    · exact emptyBody_openBlock hx hempty
  | stop c t hspace hline hblock =>
    intro depth hpos hclean
    rw [leadingComments_stop hspace hline hblock, closesEmpty_stop hpos hspace hline hblock,
      emptyBody_stop hspace hline hblock]
    constructor
    · rintro ⟨rfl, hc⟩
      exact .inr ⟨rfl, hc⟩
    · rintro (hline | ⟨hdepth, hc⟩)
      · cases hline
      · exact ⟨Option.some.inj hdepth, hc⟩

/-! ## The openings of a line -/

/-- The text of the hunk from `rest` on, which stands behind an opening. -/
def blockText (rest : Str) (following : List Str) : Str :=
  (rest :: following).flatMap fun l => l ++ [lf]

/-- Some match of the `catch` pattern on the line ends where `rest` begins. -/
def Opens (isWord : Chr → Bool) (content rest : Str) : Prop :=
  ∃ before after, content = before ++ after ∧
    (catchRe isWord).behind before.getLast? after = some rest

/-- Some `catch` block opened on the line is closed in the hunk and holds nothing but
comments. -/
def Swallowed (isWord : Chr → Bool) (content : Str) (following : List Str) : Prop :=
  ∃ rest, Opens isWord content rest ∧ EmptyBody (blockText rest following)

/-- The comments at the start of the block behind an opening. -/
def blockComments (opened : Regex.Pos Chr) (following : List Str) : List Str :=
  leadingComments .code [] (blockText opened.rest following)

/-- No `//` comment at the start of the first block of the line holds a `/*`. -/
def LineCommentsPlain (isWord : Chr → Bool) (content : Str) (following : List Str) : Prop :=
  ∀ opened, (catchRe isWord).search content = some opened →
    ∀ comment ∈ blockComments opened following, startswith comment [slash, slash] = true →
      ¬[slash, asterisk] <:+: comment

/-- Where a `}` in a `//` comment closes the first block, some block of the line is empty.
Elsewhere, when some block is empty the first one is, and the braces in its comments pair. -/
def BracesDecide (isWord : Chr → Bool) (content : Str) (following : List Str) : Prop :=
  ∀ opened, (catchRe isWord).search content = some opened →
    if closedInLine 1 (blockComments opened following) then Swallowed isWord content following
    else Swallowed isWord content following → EmptyBody (blockText opened.rest following) ∧
      braceDepth 1 (blockComments opened following).flatten = some 1

section Openings

variable {isWord : Chr → Bool} {content : Str} {following : List Str}

theorem opens_of_search {opened : Regex.Pos Chr} (h : (catchRe isWord).search content = some opened) :
    Opens isWord content opened.rest := by
  obtain ⟨before, after, hsplit, hbehind⟩ := Regex.searchFrom_eq_some h
  rw [Option.or_none] at hbehind
  exact ⟨before, after, hsplit, hbehind⟩

theorem not_opens_of_search (h : (catchRe isWord).search content = none) (rest : Str) :
    ¬Opens isWord content rest := by
  rintro ⟨before, after, hsplit, hbehind⟩
  have hnone := Regex.searchFrom_eq_none h hsplit
  rw [Option.or_none, hbehind] at hnone
  cases hnone

theorem swallows_of_search {opened : Regex.Pos Chr}
    (h : (catchRe isWord).search content = some opened) : swallows isWord content following
      = (closeBody 1 (blockText opened.rest following)).any fun body => OnlyComments body := by
  rw [swallows, h, blockText]
  dsimp only
  cases closeBody 1 ((opened.rest :: following).flatMap fun l => l ++ [lf]) with
  | none => rfl
  | some body => rfl

theorem swallows_eq_true_iff : swallows isWord content following = true ↔
    ∃ opened, (catchRe isWord).search content = some opened ∧
      ClosesEmpty 1 (blockText opened.rest following) := by
  cases hsearch : (catchRe isWord).search content with
  | none =>
    rw [swallows, hsearch]
    exact iff_of_false (by simp) (by simp)
  | some opened =>
    rw [swallows_of_search hsearch, Option.any_eq_true]
    simp [ClosesEmpty]

/-- A line is reported as it should be exactly when the braces decide. -/
theorem swallows_iff (hplain : LineCommentsPlain isWord content following) :
    (swallows isWord content following = true ↔ Swallowed isWord content following) ↔
      BracesDecide isWord content following := by
  rw [swallows_eq_true_iff]
  cases hsearch : (catchRe isWord).search content with
  | none =>
    refine iff_of_true (iff_of_false nofun ?_) fun opened hopened => ?_
    · rintro ⟨rest, hopens, -⟩
      exact not_opens_of_search hsearch rest hopens
    · rw [hsearch] at hopened
      cases hopened
  | some opened =>
    have hcode := closesEmpty_iff (le_refl 1) (hplain opened hsearch)
    have hunique : (∃ o, some opened = some o ∧ ClosesEmpty 1 (blockText o.rest following)) ↔
        ClosesEmpty 1 (blockText opened.rest following) := by
      constructor
      · rintro ⟨o, heq, hempty⟩
        cases heq
        exact hempty
      · exact fun hempty => ⟨opened, rfl, hempty⟩
    have hdecide : BracesDecide isWord content following ↔
        if closedInLine 1 (blockComments opened following) then Swallowed isWord content following
        else Swallowed isWord content following → EmptyBody (blockText opened.rest following) ∧
          braceDepth 1 (blockComments opened following).flatten = some 1 := by
      constructor
      · exact fun h => h opened hsearch
      · intro h opened' hopened'
        rw [hsearch] at hopened'
        cases hopened'
        exact h
    rw [hunique, hcode, hdecide, show leadingComments .code [] (blockText opened.rest following)
      = blockComments opened following from rfl]
    cases closedInLine 1 (blockComments opened following) with
    | true =>
      rw [if_pos rfl]
      exact iff_of_eq (by simp)
    | false =>
      rw [if_neg Bool.false_ne_true]
      constructor
      · intro hexact hswallowed
        rcases hexact.mpr hswallowed with hline | ⟨hdepth, hempty⟩
        · cases hline
        · exact ⟨hempty, hdepth⟩
      · intro hdecides
        constructor
        · rintro (hline | ⟨-, hempty⟩)
          · cases hline
          · exact ⟨opened.rest, opens_of_search hsearch, hempty⟩
        · intro hswallowed
          obtain ⟨hempty, hdepth⟩ := hdecides hswallowed
          exact .inr ⟨hdepth, hempty⟩

end Openings

/-! ## The lines of a hunk -/

section Hunks

variable {isWord : Chr → Bool} {l : NewFileLine} {pre rest : List NewFileLine}

/-- The loop reports a line that occurs once by the test at its turn alone. -/
theorem mem_emptyCatchInHunk (hnd : (pre ++ l :: rest).Nodup) (hadded : l.added = true) :
    l ∈ emptyCatchInHunk isWord (pre ++ l :: rest) ↔
      swallows isWord l.content (rest.map (·.content)) = true := by
  induction pre with
  | nil =>
    have hrest : l ∉ emptyCatchInHunk isWord rest := fun h =>
      (List.nodup_cons.mp hnd).1 (List.mem_filter.mp ((emptyCatchInHunk_sublist isWord rest).subset h)).1
    rw [List.nil_append, emptyCatchInHunk, hadded, Bool.true_and]
    split
    · next hswallows => exact iff_of_true List.mem_cons_self hswallows
    · next hswallows => exact iff_of_false hrest hswallows
  | cons a pre ih =>
    obtain ⟨ha, hnd⟩ := List.nodup_cons.mp hnd
    have hne : l ≠ a := by
      rintro rfl
      exact ha (by simp)
    rw [List.cons_append, emptyCatchInHunk, ← ih hnd]
    split
    · rw [List.mem_cons]
      exact or_iff_right hne
    · rfl

theorem mem_emptyCatchLines {file : FileDiff} (hlines : LinesOrdered file.path file.lines)
    (hhunk : pre ++ l :: rest ∈ byHunk file.lines) (hadded : l.added = true) :
    l ∈ emptyCatchLines isWord file ↔ swallows isWord l.content (rest.map (·.content)) = true := by
  have hnd : (byHunk file.lines).flatten.Nodup := by
    rw [byHunk_flatten hlines.hunk_le]
    exact hlines.nodup
  obtain ⟨hgroups, hdisjoint⟩ := List.nodup_flatten.mp hnd
  rw [← mem_emptyCatchInHunk (hgroups _ hhunk) hadded, emptyCatchLines, List.mem_flatMap]
  constructor
  · rintro ⟨hunk, hmem, hl⟩
    have hsymm : Std.Symm (List.Disjoint (α := NewFileLine)) := ⟨fun _ _ => List.disjoint_symm⟩
    -- the line stands in one hunk only
    have hsame : hunk = pre ++ l :: rest := by
      by_contra hne
      have hin : l ∈ hunk := (List.mem_filter.mp ((emptyCatchInHunk_sublist isWord hunk).subset hl)).1
      exact hdisjoint.forall hmem hhunk hne hin (by simp)
    exact hsame ▸ hl
  · exact fun hl => ⟨_, hhunk, hl⟩

end Hunks

/-- One added line with a brace in a comment. -/
def braceDiff : Str := lit "--- a/x\n+++ b/x\n@@ -0,0 +1,1 @@\n+catch (e) \x7b /* \x7d */ \x7d\n"

def braceLine : NewFileLine := ⟨lit "x", 1, lit "catch (e) \x7b /* \x7d */ \x7d", true, 0⟩

def braceFile : FileDiff := ⟨lit "x", braceDiff, [braceLine]⟩

theorem braceDiff_parse : parseUnifiedDiff braceDiff = .ok [braceFile] :=
  Raise.eq_ok_of_toOption (by decide)

theorem braceLine_plain : LineCommentsPlain samplePatterns.isWord braceLine.content [] := by
  intro opened hopened
  have hsearch : (catchRe samplePatterns.isWord).search braceLine.content
      = some ⟨some openBrace, lit " /* \x7d */ \x7d", []⟩ := by decide
  rw [hsearch] at hopened
  cases hopened
  decide

end DiffReview
