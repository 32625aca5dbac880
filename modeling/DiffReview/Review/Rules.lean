import DiffReview.Review.MockReview
import DiffReview.Spec.Rules

/-!
# DiffReview — what the line rules report

`LineText isWord r` is the set of texts the line rule `r` looks for, said without a regular
expression. A rule reports a line exactly when some part of it is such a text
(`rules_exact`).
-/

namespace DiffReview

open Py Regex

/-! ## The texts of the rules -/

/-- `t` is `s` up to the case of its letters. -/
def SameIgnoringCase (s : String) (t : Str) : Prop :=
  List.Forall₂ (fun l c => ignoringCase l c = true) s.toList t

def Blank (t : Str) : Prop := ∀ c ∈ t, isSpace c = true

def quotes : Str := lit quoteMarks

/-- No quote in the text. -/
def Unquoted (t : Str) : Prop := ∀ c ∈ t, c ∉ quotes

/-- `api_key`, `api-key`, `apikey`, `secret` or `token`. -/
inductive CredentialName : Str → Prop where
  | apiKey {api joint key : Str} (hapi : SameIgnoringCase "api" api)
      (hjoint : joint = [] ∨ ∃ c ∈ lit "_-", joint = [c]) (hkey : SameIgnoringCase "key" key) :
      CredentialName (api ++ (joint ++ key))
  | secret {t : Str} (h : SameIgnoringCase "secret" t) : CredentialName t
  | token {t : Str} (h : SameIgnoringCase "token" t) : CredentialName t

/-- A name, a separator and a quoted value of sixteen characters or more. -/
inductive Credential : Str → Prop where
  | intro {name blank blank' value : Str} {sep opening closing : Chr} (hname : CredentialName name)
      (hblank : Blank blank) (hsep : sep ∈ lit ":=") (hblank' : Blank blank')
      (hopening : opening ∈ quotes) (hlength : 16 ≤ value.length)
      (hvalue : ∀ c ∈ value, tokenChr c = true) (hclosing : closing ∈ quotes) :
      Credential (name ++ (blank ++ sep :: (blank' ++ opening :: (value ++ [closing]))))

def SqlKeyword (t : Str) : Prop :=
  SameIgnoringCase "SELECT" t ∨ SameIgnoringCase "INSERT" t ∨ SameIgnoringCase "UPDATE" t ∨
    SameIgnoringCase "DELETE" t

/-- A quoted string with an SQL keyword in it that starts and ends at a word boundary. -/
inductive SqlString (isWord : Chr → Bool) : Str → Prop where
  | intro {before keyword after : Str} {opening closing : Chr} (hopening : opening ∈ quotes)
      (hbefore : Unquoted before) (hkeyword : SqlKeyword keyword)
      (hstart : (opening :: before).getLast?.any isWord ≠ keyword.head?.any isWord)
      (hend : keyword.getLast?.any isWord ≠ (after ++ [closing]).head?.any isWord)
      (hafter : Unquoted after) (hclosing : closing ∈ quotes) :
      SqlString isWord (opening :: (before ++ (keyword ++ (after ++ [closing]))))

/-- The rules of `RULES`. -/
inductive LineRule where
  | evalUsage
  | hardcodedCredential
  | sqlConcatenation
  | looseNull
  | deepClone
  | consoleLog
  | unresolvedMarker
  | promptInjection
deriving DecidableEq, Repr

def LineRule.ruleId : LineRule → Str
  | .evalUsage => lit "MOCK-001"
  | .hardcodedCredential => lit "MOCK-002"
  | .sqlConcatenation => lit "MOCK-003"
  | .looseNull => lit "MOCK-005"
  | .deepClone => lit "MOCK-006"
  | .consoleLog => lit "MOCK-007"
  | .unresolvedMarker => lit "MOCK-008"
  | .promptInjection => lit "MOCK-INJ"

/-- What a line rule looks for. -/
inductive LineText (isWord : Chr → Bool) : LineRule → Str → Prop where
  | evalUsage : LineText isWord .evalUsage (lit "eval(")
  | hardcodedCredential {t : Str} (h : Credential t) : LineText isWord .hardcodedCredential t
  | sqlThenPlus {t blank : Str} (h : SqlString isWord t) (hblank : Blank blank) :
      LineText isWord .sqlConcatenation (t ++ (blank ++ lit "+"))
  | plusThenSql {t blank : Str} (hblank : Blank blank) (h : SqlString isWord t) :
      LineText isWord .sqlConcatenation (lit "+" ++ (blank ++ t))
  | looseNull {op blank : Str} (hop : op = lit "==" ∨ op = lit "!=") (hblank : Blank blank) :
      LineText isWord .looseNull (op ++ (blank ++ lit "null"))
  | deepClone : LineText isWord .deepClone (lit "JSON.parse(JSON.stringify(")
  | consoleLog : LineText isWord .consoleLog (lit "console.log(")
  | unresolvedMarker {t : Str} (h : t = lit "TODO" ∨ t = lit "FIXME") :
      LineText isWord .unresolvedMarker t
  | promptInjection {t : Str} (h : SameIgnoringCase "ignore previous instructions" t ∨
      SameIgnoringCase "disregard all prior" t ∨ SameIgnoringCase "you are now" t) :
      LineText isWord .promptInjection t

/-! ## The texts of the patterns -/

section Texts

variable {prev next : Option Chr} {t : Str} {isWord : Chr → Bool}

theorem matches_oneOf {s : String} :
    (oneOf s).Matches prev t next ↔ ∃ c ∈ lit s, t = [c] := by
  simp only [oneOf, Matches, List.contains_iff_mem, and_comm]

theorem matches_noneOf_star {s : String} :
    (star (noneOf s)).Matches prev t next ↔ ∀ c ∈ t, c ∉ lit s := by
  rw [noneOf, matches_star_chr]
  simp

theorem matches_litIgnoringCase {s : String} :
    (litIgnoringCase s).Matches prev t next ↔ SameIgnoringCase s t := by
  rw [litIgnoringCase, matches_classes, List.forall₂_map_left_iff]
  rfl

theorem matches_blank : (star space).Matches prev t next ↔ Blank t := matches_star_chr

/-- The credential pattern reads the credentials. -/
theorem matches_hardcodedCredentialRe :
    hardcodedCredentialRe.Matches prev t next ↔ Credential t := by
  constructor
  · rintro ⟨name, u₁, rfl, hname, blank, u₂, rfl, hblank, sep, u₃, rfl, hsep, blank', u₄, rfl, hblank',
      opening, u₅, rfl, hopening, value, closing, rfl, hvalue, hclosing⟩
    obtain ⟨sep, hsepMem, rfl⟩ := matches_oneOf.mp hsep
    obtain ⟨opening, hopeningMem, rfl⟩ := matches_oneOf.mp hopening
    obtain ⟨closing, hclosingMem, rfl⟩ := matches_oneOf.mp hclosing
    -- sixteen characters of the class, and then any number of them
    obtain ⟨hlength, hall⟩ := matches_atLeast_chr.mp hvalue
    refine .intro ?_ (matches_blank.mp hblank) hsepMem (matches_blank.mp hblank') hopeningMem hlength
      hall hclosingMem
    rcases hname with ⟨api, u, rfl, hapi, joint, key, rfl, hjoint, hkey⟩ | hsecret | htoken
    · refine .apiKey (matches_litIgnoringCase.mp hapi) ?_ (matches_litIgnoringCase.mp hkey)
      exact (matches_opt.mp hjoint).symm.imp_right matches_oneOf.mp
    · exact .secret (matches_litIgnoringCase.mp hsecret)
    · exact .token (matches_litIgnoringCase.mp htoken)
  · rintro ⟨hname, hblank, hsep, hblank', hopening, hlength, hvalue, hclosing⟩
    refine ⟨_, _, rfl, ?_, _, _, rfl, matches_blank.mpr hblank, [_], _, rfl,
      matches_oneOf.mpr ⟨_, hsep, rfl⟩, _, _, rfl, matches_blank.mpr hblank', [_], _, rfl,
      matches_oneOf.mpr ⟨_, hopening, rfl⟩, _, _, rfl, matches_atLeast_chr.mpr ⟨hlength, hvalue⟩,
      matches_oneOf.mpr ⟨_, hclosing, rfl⟩⟩
    cases hname with
    | apiKey hapi hjoint hkey =>
      refine .inl ⟨_, _, rfl, matches_litIgnoringCase.mpr hapi, _, _, rfl, ?_,
        matches_litIgnoringCase.mpr hkey⟩
      exact matches_opt.mpr (hjoint.symm.imp_left matches_oneOf.mpr)
    | secret h => exact .inr (.inl (matches_litIgnoringCase.mpr h))
    | token h => exact .inr (.inr (matches_litIgnoringCase.mpr h))

theorem matches_sqlKeywordRe : sqlKeywordRe.Matches prev t next ↔ SqlKeyword t := by
  refine or_congr matches_litIgnoringCase (or_congr matches_litIgnoringCase ?_)
  exact or_congr matches_litIgnoringCase matches_litIgnoringCase

theorem SameIgnoringCase.ne_nil {s : String} (h : SameIgnoringCase s t) (hs : s.toList ≠ []) :
    t ≠ [] := by
  rintro rfl
  exact hs (List.forall₂_nil_right_iff.mp h)

theorem SqlKeyword.ne_nil (h : SqlKeyword t) : t ≠ [] := by
  rcases h with h | h | h | h <;> exact h.ne_nil (by decide)

/-- The boundaries of the string pattern are inside its quotes. -/
theorem sqlString_boundaries (before : Str) {keyword : Str} (after : Str) (opening closing : Chr)
    (hkeyword : keyword ≠ []) (prev next : Option Chr) :
    before.getLast?.or ([opening].getLast?.or prev) = (opening :: before).getLast? ∧
      (keyword ++ (after ++ [closing])).head?.or next = keyword.head? ∧
      keyword.getLast?.or (before.getLast?.or ([opening].getLast?.or prev)) = keyword.getLast? ∧
      (after ++ [closing]).head?.or next = (after ++ [closing]).head? := by
  refine ⟨?_, ?_, getLast?_or hkeyword _, head?_or (by simp) next⟩
  · rw [← getLast?_append_or, List.singleton_append, getLast?_or (by simp)]
  · rw [head?_or (by simp), List.head?_append, head?_or hkeyword]

/-- The string pattern reads the strings with a keyword, whatever stands around them. -/
theorem matches_sqlStringRe : (sqlStringRe isWord).Matches prev t next ↔ SqlString isWord t := by
  constructor
  · rintro ⟨opening, u₁, rfl, hopening, before, u₂, rfl, hbefore, _, u₃, rfl, ⟨rfl, hstart⟩, keyword, u₄,
      rfl, hkeyword, _, u₅, rfl, ⟨rfl, hend⟩, after, closing, rfl, hafter, hclosing⟩
    obtain ⟨opening, hopeningMem, rfl⟩ := matches_oneOf.mp hopening
    obtain ⟨closing, hclosingMem, rfl⟩ := matches_oneOf.mp hclosing
    have hword := matches_sqlKeywordRe.mp hkeyword
    -- what stands around the string does not matter to its boundaries
    obtain ⟨h₁, h₂, h₃, h₄⟩ :=
      sqlString_boundaries before after opening closing hword.ne_nil prev next
    simp only [List.nil_append, h₁, h₂] at hstart
    simp only [List.getLast?_nil, Option.none_or, h₃, h₄] at hend
    exact .intro hopeningMem (matches_noneOf_star.mp hbefore) hword (bne_iff_ne.mp hstart)
      (bne_iff_ne.mp hend) (matches_noneOf_star.mp hafter) hclosingMem
  · rintro @⟨before, keyword, after, opening, closing, hopening, hbefore, hkeyword, hstart, hend,
      hafter, hclosing⟩
    obtain ⟨h₁, h₂, h₃, h₄⟩ :=
      sqlString_boundaries before after opening closing hkeyword.ne_nil prev next
    rw [← h₁, ← h₂, ← bne_iff_ne] at hstart
    rw [← h₃, ← h₄, ← bne_iff_ne] at hend
    exact ⟨[opening], _, rfl, matches_oneOf.mpr ⟨_, hopening, rfl⟩, before, _, rfl,
      matches_noneOf_star.mpr hbefore, [], _, rfl, ⟨rfl, hstart⟩, keyword, _, rfl,
      matches_sqlKeywordRe.mpr hkeyword, [], _, rfl, ⟨rfl, hend⟩, after, [closing], rfl,
      matches_noneOf_star.mpr hafter, matches_oneOf.mpr ⟨_, hclosing, rfl⟩⟩

theorem matches_sqlConcatenationRe : (sqlConcatenationRe isWord).Matches prev t next ↔
    LineText isWord .sqlConcatenation t := by
  constructor
  · rintro (⟨t, u, rfl, ht, blank, v, rfl, hblank, hplus⟩ | ⟨u, v, rfl, hplus, blank, t, rfl, hblank, ht⟩)
    · rw [matches_lit.mp hplus]
      exact .sqlThenPlus (matches_sqlStringRe.mp ht) (matches_blank.mp hblank)
    · rw [matches_lit.mp hplus]
      exact .plusThenSql (matches_blank.mp hblank) (matches_sqlStringRe.mp ht)
  · rintro (_ | _)
    · next t blank h hblank =>
      exact .inl ⟨t, _, rfl, matches_sqlStringRe.mpr h, blank, _, rfl, matches_blank.mpr hblank,
        matches_lit.mpr rfl⟩
    · next t blank hblank h =>
      exact .inr ⟨_, _, rfl, matches_lit.mpr rfl, blank, t, rfl, matches_blank.mpr hblank,
        matches_sqlStringRe.mpr h⟩

theorem matches_looseNullRe : looseNullRe.Matches prev t next ↔ LineText isWord .looseNull t := by
  constructor
  · rintro ⟨op, u, rfl, hop, blank, v, rfl, hblank, hnull⟩
    rw [matches_lit.mp hnull]
    exact .looseNull (hop.imp matches_lit.mp matches_lit.mp) (matches_blank.mp hblank)
  · intro h
    cases h with
    | looseNull hop hblank =>
      exact ⟨_, _, rfl, hop.imp matches_lit.mpr matches_lit.mpr, _, _, rfl, matches_blank.mpr hblank,
        matches_lit.mpr rfl⟩

theorem matches_unresolvedMarkerRe :
    unresolvedMarkerRe.Matches prev t next ↔ LineText isWord .unresolvedMarker t :=
  (or_congr matches_lit matches_lit).trans ⟨.unresolvedMarker, fun h => by cases h; assumption⟩

theorem matches_promptInjectionRe :
    promptInjectionRe.Matches prev t next ↔ LineText isWord .promptInjection t :=
  (or_congr matches_litIgnoringCase
    (or_congr matches_litIgnoringCase matches_litIgnoringCase)).trans
    ⟨.promptInjection, fun h => by cases h; assumption⟩

end Texts

/-! ## The rules -/

/-- A pattern whose texts do not depend on what stands around them is found where one of them
is a part of the line. -/
theorem search_isSome_iff_text {r : Regex Chr} {P : Str → Prop}
    (h : ∀ {prev t next}, r.Matches prev t next ↔ P t) (content : Str) :
    (r.search content).isSome = true ↔ ∃ t, t <:+: content ∧ P t := by
  rw [search_isSome_iff]
  constructor
  · rintro ⟨before, t, after, rfl, ht⟩
    exact ⟨t, ⟨before, after, rfl⟩, h.mp ht⟩
  · rintro ⟨t, ⟨before, after, hcontent⟩, ht⟩
    exact ⟨before, t, after, hcontent.symm, h.mpr ht⟩

def LineRule.pattern (isWord : Chr → Bool) : LineRule → Str → Bool
  | .evalUsage => (linePatterns isWord).evalUsage
  | .hardcodedCredential => (linePatterns isWord).hardcodedCredential
  | .sqlConcatenation => (linePatterns isWord).sqlConcatenation
  | .looseNull => (linePatterns isWord).looseNull
  | .deepClone => (linePatterns isWord).deepClone
  | .consoleLog => (linePatterns isWord).consoleLog
  | .unresolvedMarker => (linePatterns isWord).unresolvedMarker
  | .promptInjection => (linePatterns isWord).promptInjection

theorem LineRule.pattern_iff (isWord : Chr → Bool) (r : LineRule) (content : Str) :
    r.pattern isWord content = true ↔ ∃ t, t <:+: content ∧ LineText isWord r t := by
  have hlit : ∀ {w : Str} {r : LineRule}, (∀ t, t = w ↔ LineText isWord r t) →
      (((Regex.lit w).search content).isSome = true ↔ ∃ t, t <:+: content ∧ LineText isWord r t) :=
    fun h => search_isSome_iff_text (matches_lit.trans (h _)) content
  cases r with
  | evalUsage => exact hlit fun t => ⟨fun h => h ▸ .evalUsage, fun h => by cases h; rfl⟩
  | hardcodedCredential =>
    refine search_isSome_iff_text (r := hardcodedCredentialRe) ?_ content
    exact matches_hardcodedCredentialRe.trans
      ⟨.hardcodedCredential, fun h => by cases h; assumption⟩
  | sqlConcatenation => exact search_isSome_iff_text matches_sqlConcatenationRe content
  | looseNull => exact search_isSome_iff_text matches_looseNullRe content
  | deepClone => exact hlit fun t => ⟨fun h => h ▸ .deepClone, fun h => by cases h; rfl⟩
  | consoleLog => exact hlit fun t => ⟨fun h => h ▸ .consoleLog, fun h => by cases h; rfl⟩
  | unresolvedMarker => exact search_isSome_iff_text matches_unresolvedMarkerRe content
  | promptInjection => exact search_isSome_iff_text matches_promptInjectionRe content

/-- The rules of the provider are the line rules, in this order. -/
def LineRule.all : List LineRule :=
  [.evalUsage, .hardcodedCredential, .sqlConcatenation, .looseNull, .deepClone, .consoleLog,
    .unresolvedMarker, .promptInjection]

/-- Each rule of the provider reports a line exactly when some part of it is one of the texts
of the rule; what stands around that part does not matter. -/
theorem rules_exact (isWord : Chr → Bool) : List.Forall₂ (fun rule r => rule.ruleId = LineRule.ruleId r ∧
    ∀ content, rule.pattern content = true ↔ ∃ t, t <:+: content ∧ LineText isWord r t)
    (rules (linePatterns isWord)) LineRule.all := by
  have hone : ∀ r : LineRule, ∀ content, r.pattern isWord content = true ↔
      ∃ t, t <:+: content ∧ LineText isWord r t := LineRule.pattern_iff isWord
  exact .cons ⟨rfl, hone .evalUsage⟩ <| .cons ⟨rfl, hone .hardcodedCredential⟩ <|
    .cons ⟨rfl, hone .sqlConcatenation⟩ <| .cons ⟨rfl, hone .looseNull⟩ <|
    .cons ⟨rfl, hone .deepClone⟩ <| .cons ⟨rfl, hone .consoleLog⟩ <|
    .cons ⟨rfl, hone .unresolvedMarker⟩ <| .cons ⟨rfl, hone .promptInjection⟩ .nil

/-! ## Reviews -/

/-- The rule of the provider with the number of `r`. -/
theorem LineRule.exists_rule (isWord : Chr → Bool) (r : LineRule) :
    ∃ rule ∈ rules (linePatterns isWord), rule.ruleId = r.ruleId ∧
      rule.pattern = r.pattern isWord := by
  cases r <;> simp [rules, LineRule.ruleId, LineRule.pattern]

/-- `r` has a text in an added line with this path and number. -/
def Mentions (isWord : Chr → Bool) (files : List FileDiff) (r : LineRule) (path : Str) (line : Nat) :
    Prop :=
  ∃ file ∈ files, ∃ l ∈ file.addedLines, l.path = path ∧ l.line = line ∧
    ∃ t, t <:+: l.content ∧ LineText isWord r t

/-- Of the texts of the line rules a review shows the first, `maximum` at most: each finding
quotes its text, and a mention that is not shown is behind a full list. -/
structure ShowsMentions (isWord : Chr → Bool) (files : List FileDiff) (maximum : Nat)
    (shown : List Finding) : Prop where
  length_le : shown.length ≤ maximum
  ascending : shown.Pairwise fun f g => f.sortKey < g.sortKey
  sound : ∀ f ∈ shown, ∀ r : LineRule, f.ruleId = r.ruleId →
    Mentions isWord files r f.path f.line ∧ ∃ t, t <:+: f.evidence ∧ LineText isWord r t
  complete : ∀ r path line, Mentions isWord files r path line →
    (∃ f ∈ shown, f.ruleId = r.ruleId ∧ f.path = path ∧ f.line = line) ∨
    shown.length = maximum ∧
      ∀ f ∈ shown, f.sortKey < toLex (path, toLex (line, r.ruleId))

variable {isWord : Chr → Bool} {files : List FileDiff} {full : List Finding}

theorem ruleMatches_line {p : Patterns} {rule : Rule} (h : rule ∈ rules p) (file : FileDiff)
    (l : NewFileLine) : ruleMatches p file rule l = rule.pattern l.content := by
  rw [ruleMatches, if_neg (ruleId_ne_emptyCatch h)]

theorem mem_matchedLines_line {p : Patterns} {rule : Rule} (h : rule ∈ rules p) {l : NewFileLine} :
    l ∈ matchedLines p files rule ↔
      ∃ file ∈ files, l ∈ file.addedLines ∧ rule.pattern l.content = true := by
  rw [matchedLines, List.mem_flatMap]
  refine exists_congr fun file => and_congr_right fun _ => ?_
  rw [List.mem_filter, ruleMatches_line h]

/-- What the first `maximum` of an exact review say about the texts of the line rules. -/
theorem ExactMockReview.showsMentions (h : ExactMockReview (linePatterns isWord) files full)
    (maximum : Nat) : ShowsMentions isWord files maximum (full.take maximum) := by
  refine ⟨List.length_take_le _ _, h.ascending.sublist (List.take_sublist _ _), ?_, ?_⟩
  · intro f hf r hr
    obtain ⟨rule, hrule, l, hlast, hevidence, hfinding⟩ := h.sound f (List.mem_of_mem_take hf)
    obtain ⟨rule', hrule', hid', hpattern⟩ := r.exists_rule isWord
    have hid : rule.ruleId = r.ruleId := by
      rw [← hr, mockFinding_eq_ok hfinding]
    -- rules are told apart by their ids
    have hsame : rule = rule' :=
      List.inj_on_of_nodup_map (ruleIds_nodup _) hrule (List.mem_append_left _ hrule')
        (hid.trans hid'.symm)
    rw [hsame] at hlast
    have hmem := List.mem_of_getLast? hlast
    rw [List.mem_filter, decide_eq_true_iff] at hmem
    obtain ⟨hmatched, hpath, hline⟩ := hmem
    obtain ⟨file, hfile, hadded, htext⟩ := (mem_matchedLines_line hrule').mp hmatched
    rw [hpattern, LineRule.pattern_iff] at htext
    rw [hevidence]
    exact ⟨⟨file, hfile, l, hadded, hpath, hline, htext⟩, htext⟩
  · rintro r path line ⟨file, hfile, l, hadded, rfl, rfl, htext⟩
    obtain ⟨rule, hrule, hid, hpattern⟩ := r.exists_rule isWord
    rw [← LineRule.pattern_iff, ← hpattern] at htext
    have hmatched := (mem_matchedLines_line hrule).mpr ⟨file, hfile, hadded, htext⟩
    obtain ⟨f, ⟨hf, hfid, hfpath, hfline⟩, -⟩ :=
      h.complete rule (List.mem_append_left _ hrule) l hmatched
    rw [hid] at hfid
    -- its finding is among the first `maximum`, or behind them
    rw [← List.take_append_drop maximum full, List.mem_append] at hf
    rcases hf with hshown | hdropped
    · exact .inl ⟨f, hshown, hfid, hfpath, hfline⟩
    · -- something was dropped, so the list is full
      have hlong : maximum < full.length := by
        have hpos := List.length_pos_of_mem hdropped
        rw [List.length_drop] at hpos
        omega
      refine .inr ⟨List.length_take_of_le hlong.le, fun g hg => ?_⟩
      have hlt : g.sortKey < f.sortKey := by
        have hascending := h.ascending
        rw [← List.take_append_drop maximum full] at hascending
        exact (List.pairwise_append.mp hascending).2.2 g hg f hdropped
      rwa [Finding.sortKey, Finding.sortKey, hfpath, hfline, hfid] at hlt

end DiffReview
