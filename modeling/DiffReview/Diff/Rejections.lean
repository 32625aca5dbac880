import DiffReview.Diff.Lines
import DiffReview.Diff.Sections

/-!
# DiffReview — what the parser raises

The only exception of `parse_unified_diff` other than `DiffParseError` is the `ValueError`
of `int()` on a hunk start of more than 4300 digits. It is raised exactly when such a header
stands in the sections up to the first one without file headers (`parse_or_reject_iff`).
-/

namespace DiffReview

open Py Raise

/-! ## Hunk headers -/

/-- The digits of the start that a hunk header declares. -/
def startDigits (line : Str) : Option Str :=
  (hunkRe.matchStart line).map fun m => m.groups.headD []

/-- A hunk header whose start has more digits than `int` reads. -/
def LongStart (line : Str) : Prop :=
  ∃ digits, startDigits line = some digits ∧ maxStrDigits < digits.length

theorem hunkRe_groupsOver : hunkRe.GroupsOver isDecimal := by
  simp [hunkRe, Regex.GroupsOver, Regex.Over, Regex.lit, Regex.plus, Regex.opt, space, digit,
    optCount, lit]

theorem startDigits_decimal {line digits : Str} (h : startDigits line = some digits) :
    ∀ c ∈ digits, isDecimal c = true := by
  obtain ⟨m, hm, rfl⟩ := Option.map_eq_some_iff.mp h
  have hgroups := Regex.matchStart_groups hunkRe_groupsOver hm
  cases hm' : m.groups with
  | nil => simp
  | cons g gs =>
    rw [hm'] at hgroups
    exact hgroups g List.mem_cons_self

theorem exists_int {s : Str} (h : ∀ c ∈ s, isDecimal c = true) (hlength : s.length ≤ maxStrDigits) :
    ∃ n, int s = some n := by
  have hdigits : ∃ ds, s.mapM digitValue = some ds := by
    clear hlength
    induction s with
    | nil => exact ⟨[], rfl⟩
    | cons c s ih =>
      obtain ⟨hc, hs⟩ := List.forall_mem_cons.mp h
      obtain ⟨d, hd⟩ := Option.isSome_iff_exists.mp hc
      obtain ⟨ds, hds⟩ := ih hs
      exact ⟨d :: ds, by rw [List.mapM_cons, hd, hds]; rfl⟩
  obtain ⟨ds, hds⟩ := hdigits
  rw [int, if_pos hlength, hds]
  exact ⟨_, rfl⟩

section Scan

variable {path : Str} {st : HunkScan}

theorem scanLine_long {line : Str} (h : LongStart line) :
    scanLine path st line = .error (.foreign .intMaxStrDigits) := by
  obtain ⟨digits, hdigits, hlength⟩ := h
  obtain ⟨m, hm, rfl⟩ := Option.map_eq_some_iff.mp hdigits
  have hnone : int (m.groups.headD []) = none := if_neg (by omega)
  rw [scanLine, hm]
  show orRaise .intMaxStrDigits (int (m.groups.headD [])) >>= _ = _
  rw [hnone]
  rfl

theorem scanLine_short {line : Str} (h : ¬LongStart line) (path : Str) (st : HunkScan) :
    ∃ st', scanLine path st line = .ok st' ∧
      st'.sawHunk = (st.sawHunk || (startDigits line).isSome) := by
  cases hm : hunkRe.matchStart line with
  | some m =>
    have hdigits : startDigits line = some (m.groups.headD []) := by rw [startDigits, hm]; rfl
    have hlength : (m.groups.headD []).length ≤ maxStrDigits := by
      by_contra hlong
      exact h ⟨_, hdigits, not_le.mp hlong⟩
    obtain ⟨n, hn⟩ := exists_int (startDigits_decimal hdigits) hlength
    rw [scanLine, hm, hdigits]
    refine ⟨_, bind_eq_ok.mpr ⟨n, orRaise_eq_ok.mpr hn, rfl⟩, ?_⟩
    simp
  | none =>
    have hdigits : startDigits line = none := by rw [startDigits, hm]; rfl
    obtain ⟨st', hst', hsaw⟩ := scanLine_of_not_header path hm st
    refine ⟨st', hst', ?_⟩
    rw [hsaw, hdigits]
    simp

theorem foldlM_short {lines : List Str} (h : ∀ l ∈ lines, ¬LongStart l) (path : Str)
    (st : HunkScan) : ∃ st', lines.foldlM (scanLine path) st = .ok st' ∧
      st'.sawHunk = (st.sawHunk || lines.any fun l => (startDigits l).isSome) := by
  induction lines generalizing st with
  | nil => exact ⟨st, rfl, by simp⟩
  | cons line lines ih =>
    obtain ⟨hline, hlines⟩ := List.forall_mem_cons.mp h
    obtain ⟨st₁, hst₁, hsaw₁⟩ := scanLine_short hline path st
    obtain ⟨st₂, hst₂, hsaw₂⟩ := ih hlines st₁
    refine ⟨st₂, ?_, ?_⟩
    · rw [List.foldlM_cons, hst₁]
      exact hst₂
    · rw [hsaw₂, hsaw₁, List.any_cons, Bool.or_assoc]

theorem foldlM_long {lines : List Str} (h : ∃ l ∈ lines, LongStart l) (path : Str)
    (st : HunkScan) : lines.foldlM (scanLine path) st = .error (.foreign .intMaxStrDigits) := by
  induction lines generalizing st with
  | nil => simp at h
  | cons line lines ih =>
    rw [List.foldlM_cons]
    by_cases hline : LongStart line
    · rw [scanLine_long hline]
      rfl
    · obtain ⟨st₁, hst₁, -⟩ := scanLine_short hline path st
      have hrest : ∃ l ∈ lines, LongStart l := by simpa [hline] using h
      rw [hst₁]
      exact ih hrest st₁

end Scan

/-! ## Sections -/

/-- The lines of a section behind its first `+++ ` line; `none` when the section has no
headers or an empty path. -/
def sectionBody (lines : List Str) : Option (List Str) :=
  match lines.findIdx? fun line => startswith line newHeader with
  | none => none
  | some i =>
    if (lines.any fun line => startswith line oldHeader) = true ∧
      cleanPath ((lineAt lines i).drop 4) ≠ [] then some (lines.drop (i + 1))
    else none

theorem parseSection_unheaded {lines : List Str} (h : sectionBody lines = none) :
    ∃ message, parseSection lines = .error (.diffParseError message) := by
  unfold sectionBody at h
  unfold parseSection
  cases hi : lines.findIdx? fun line => startswith line newHeader with
  | none => exact ⟨_, rfl⟩
  | some i =>
    rw [hi] at h
    cases hold : lines.any fun line => startswith line oldHeader with
    | false => exact ⟨_, rfl⟩
    | true =>
      by_cases hpath : cleanPath ((lineAt lines i).drop 4) = []
      · simp only [hpath, if_true, Bool.not_true, Bool.false_eq_true, if_false]
        exact ⟨_, rfl⟩
      · simp [hold, hpath] at h

theorem parseSection_headed {lines body : List Str} (h : sectionBody lines = some body) :
    ∃ path raw, path ≠ [] ∧ parseSection lines =
      (body.foldlM (scanLine path) HunkScan.start).map fun st => (⟨path, raw, st.lines⟩, st.sawHunk) := by
  unfold sectionBody at h
  unfold parseSection
  cases hi : lines.findIdx? fun line => startswith line newHeader with
  | none =>
    rw [hi] at h
    cases h
  | some i =>
    rw [hi] at h
    simp only at h
    split at h
    · next hheaders =>
      cases h
      refine ⟨_, lines.flatten, hheaders.2, ?_⟩
      simp only [hheaders.1, hheaders.2, Bool.not_true, Bool.false_eq_true, if_false]
      rfl
    · cases h

/-- A section with headers either parses or has a start that is too long. -/
theorem parseSection_short {lines body : List Str} (h : sectionBody lines = some body)
    (hshort : ∀ l ∈ body, ¬LongStart l) : ∃ file, parseSection lines
      = .ok (file, body.any fun l => (startDigits l).isSome) ∧ file.path ≠ [] := by
  obtain ⟨path, raw, hpath, hparse⟩ := parseSection_headed h
  obtain ⟨st, hst, hsaw⟩ := foldlM_short hshort path HunkScan.start
  refine ⟨⟨path, raw, st.lines⟩, ?_, hpath⟩
  rw [hparse, hst, show (body.any fun l => (startDigits l).isSome) = st.sawHunk from hsaw.symm]
  rfl

theorem parseSection_long {lines body : List Str} (h : sectionBody lines = some body)
    (hlong : ∃ l ∈ body, LongStart l) :
    parseSection lines = .error (.foreign .intMaxStrDigits) := by
  obtain ⟨path, raw, -, hparse⟩ := parseSection_headed h
  rw [hparse, foldlM_long hlong]
  rfl

/-! ## Texts -/

/-- The sections that the text is cut into. -/
def sectionsOf (diff : Str) : List (List Str) :=
  sections (splitlines diff) (sectionStarts (splitlines diff))

/-- No start is too long in the sections up to the first one without headers. -/
def ShortStarts (diff : Str) : Prop :=
  ∀ s ∈ (sectionsOf diff).takeWhile fun s => (sectionBody s).isSome,
    ∀ body, sectionBody s = some body → ∀ l ∈ body, ¬LongStart l

/-- All sections have headers, and one of them has a hunk. -/
structure WellFormed (diff : Str) : Prop where
  headed : ∀ s ∈ sectionsOf diff, (sectionBody s).isSome = true
  hunk : ∃ s ∈ sectionsOf diff, ∃ body, sectionBody s = some body ∧
    ∃ l ∈ body, (startDigits l).isSome = true

theorem mem_splitlines_of_sections {diff : Str} {s : List Str} (hs : s ∈ sectionsOf diff) {l : Str}
    (hl : l ∈ s) : l ∈ splitlines diff := by
  rw [sectionsOf, sections_sectionStarts] at hs
  rw [← cut_eq (headStyle (splitlines diff)) (splitlines diff)]
  exact List.mem_append_right _ (List.mem_flatten.mpr ⟨s, hs, hl⟩)

/-- A text with a section that has headers is not blank. -/
theorem not_blank_of_headed {diff : Str} {s : List Str} (hs : s ∈ sectionsOf diff)
    (hbody : (sectionBody s).isSome = true) : ¬(diff = [] ∨ strip diff = []) := by
  obtain ⟨body, hbody⟩ := Option.isSome_iff_exists.mp hbody
  unfold sectionBody at hbody
  split at hbody
  · cases hbody
  · next i hi =>
    obtain ⟨hlt, hnew, -⟩ := List.findIdx?_eq_some_iff_getElem.mp hi
    have hline := mem_splitlines_of_sections hs (List.getElem_mem hlt)
    -- a `+` stands in the new header
    have hplus : Chr.ofChar '+' ∈ s[i] :=
      (List.isPrefixOf_iff_prefix.mp hnew).subset (show Chr.ofChar '+' ∈ newHeader by decide)
    exact not_blank_of_mem_splitlines hline hplus rfl

theorem parseUnifiedDiff_sectionsOf {diff : Str} (hblank : ¬(diff = [] ∨ strip diff = []))
    (hne : sectionsOf diff ≠ []) :
    parseUnifiedDiff diff = ((sectionsOf diff).mapM parseSection).bind filesOfParsed := by
  rw [sectionsOf, sections_sectionStarts] at hne ⊢
  exact parseUnifiedDiff_blocks hblank hne

theorem parseUnifiedDiff_no_section {diff : Str} (h : sectionsOf diff = []) :
    ∃ message, parseUnifiedDiff diff = .error (.diffParseError message) := by
  unfold parseUnifiedDiff
  by_cases hblank : diff = [] ∨ strip diff = []
  · simp only [Bool.or_eq_true, decide_eq_true_eq, hblank, if_true]
    exact ⟨_, rfl⟩
  · have hstarts : sectionStarts (splitlines diff) = [] := by
      rw [← List.length_eq_zero_iff, ← length_sections (splitlines diff)]
      exact List.length_eq_zero_iff.mpr h
    simp only [Bool.or_eq_true, decide_eq_true_eq, hblank, if_false, hstarts, if_true]
    exact ⟨_, rfl⟩

theorem parseUnifiedDiff_blank {diff : Str} (h : diff = [] ∨ strip diff = []) :
    ∃ message, parseUnifiedDiff diff = .error (.diffParseError message) := by
  unfold parseUnifiedDiff
  simp only [Bool.or_eq_true, decide_eq_true_eq, h, if_true]
  exact ⟨_, rfl⟩

theorem headed_of_mem_takeWhile {blocks : List (List Str)} {s : List Str}
    (h : s ∈ blocks.takeWhile fun s => (sectionBody s).isSome) : (sectionBody s).isSome = true :=
  List.mem_takeWhile_imp (p := fun s => (sectionBody s).isSome) h

/-- Of the sections that are parsed before the first one without headers. -/
theorem mapM_headed {blocks : List (List Str)} (h : ∀ s ∈ blocks, (sectionBody s).isSome = true) :
    (∃ parsed, blocks.mapM parseSection = .ok parsed) ∨
      blocks.mapM parseSection = .error (.foreign .intMaxStrDigits) := by
  refine mapM_ok_or_error fun s hs => ?_
  obtain ⟨body, hbody⟩ := Option.isSome_iff_exists.mp (h s hs)
  by_cases hlong : ∃ l ∈ body, LongStart l
  · exact .inr (parseSection_long hbody hlong)
  · obtain ⟨file, hfile, -⟩ := parseSection_short hbody (by simpa using hlong)
    exact .inl ⟨_, hfile⟩

theorem mapM_append_error {ε α β : Type} {f : α → Except ε β} {as bs : List α} {e : ε}
    (h : as.mapM f = .error e) : (as ++ bs).mapM f = .error e := by
  rw [List.mapM_append, h]
  rfl

/-- A start that is too long, with headers before it, is the error of the text. -/
theorem parseUnifiedDiff_long {diff : Str} (h : ¬ShortStarts diff) :
    parseUnifiedDiff diff = .error (.foreign .intMaxStrDigits) := by
  simp only [ShortStarts, not_forall, not_not] at h
  obtain ⟨s, hs, body, hbody, l, hl, hlong⟩ := h
  have hmem : s ∈ sectionsOf diff := (List.takeWhile_sublist _).subset hs
  have hheaded : (sectionBody s).isSome = true := by rw [hbody]; rfl
  have herror : ((sectionsOf diff).takeWhile fun s => (sectionBody s).isSome).mapM parseSection
      = .error (.foreign .intMaxStrDigits) := by
    rcases mapM_headed fun s hs => headed_of_mem_takeWhile hs with ⟨parsed, hparsed⟩ | herror
    · obtain ⟨p, hp⟩ := exists_mapM_eq_ok.mp ⟨parsed, hparsed⟩ s hs
      rw [parseSection_long hbody ⟨l, hl, hlong⟩] at hp
      cases hp
    · exact herror
  rw [parseUnifiedDiff_sectionsOf (not_blank_of_headed hmem hheaded) (List.ne_nil_of_mem hmem),
    ← List.takeWhile_append_dropWhile (p := fun s => (sectionBody s).isSome) (l := sectionsOf diff),
    mapM_append_error herror]
  rfl

/-- Without such a start the text parses when it is well formed. -/
theorem parseUnifiedDiff_wellFormed {diff : Str} (hshort : ShortStarts diff) (h : WellFormed diff) :
    ∃ files, parseUnifiedDiff diff = .ok files := by
  obtain ⟨s, hs, body, hbody, l, hl, hhunk⟩ := h.hunk
  have hall : (sectionsOf diff).takeWhile (fun s => (sectionBody s).isSome) = sectionsOf diff :=
    List.takeWhile_eq_self_iff.mpr h.headed
  rw [ShortStarts, hall] at hshort
  obtain ⟨parsed, hparsed⟩ := exists_mapM_eq_ok.mpr fun s hs => by
    obtain ⟨body, hbody⟩ := Option.isSome_iff_exists.mp (h.headed s hs)
    obtain ⟨file, hfile, -⟩ := parseSection_short hbody (hshort s hs body hbody)
    exact ⟨_, hfile⟩
  -- the section with the hunk has set the flag
  obtain ⟨⟨file, saw⟩, hmem, hfile⟩ := exists_mem_of_mapM_eq_ok hparsed hs
  obtain ⟨file', hfile', -⟩ := parseSection_short hbody (hshort s hs body hbody)
  obtain ⟨rfl, rfl⟩ := Prod.mk.inj (Except.ok.inj (hfile.symm.trans hfile'))
  have hany : parsed.any (·.2) = true :=
    List.any_eq_true.mpr ⟨_, hmem, List.any_eq_true.mpr ⟨l, hl, hhunk⟩⟩
  refine ⟨parsed.map (·.1), ?_⟩
  rw [parseUnifiedDiff_sectionsOf (not_blank_of_headed hs (h.headed s hs)) (List.ne_nil_of_mem hs)]
  exact mapM_parseSection_eq_ok.mpr ⟨parsed, mapM_eq_ok.mp hparsed, hany, rfl⟩

theorem parseUnifiedDiff_malformed {diff : Str} (hshort : ShortStarts diff) (h : ¬WellFormed diff) :
    ∃ message, parseUnifiedDiff diff = .error (.diffParseError message) := by
  by_cases hblank : diff = [] ∨ strip diff = []
  · exact parseUnifiedDiff_blank hblank
  by_cases hne : sectionsOf diff = []
  · exact parseUnifiedDiff_no_section hne
  rw [parseUnifiedDiff_sectionsOf hblank hne]
  obtain ⟨parsed, hparsed⟩ : ∃ parsed, ((sectionsOf diff).takeWhile
      fun s => (sectionBody s).isSome).mapM parseSection = .ok parsed := by
    refine exists_mapM_eq_ok.mpr fun s hs => ?_
    obtain ⟨body, hbody⟩ := Option.isSome_iff_exists.mp (headed_of_mem_takeWhile hs)
    obtain ⟨file, hfile, -⟩ := parseSection_short hbody (hshort s hs body hbody)
    exact ⟨_, hfile⟩
  cases hrest : (sectionsOf diff).dropWhile fun s => (sectionBody s).isSome with
  | cons s rest =>
    -- the first section without headers
    have hnone : sectionBody s = none := by
      have hhead := List.head_dropWhile_not (p := fun s => (sectionBody s).isSome)
        (l := sectionsOf diff) (by rw [hrest]; exact List.cons_ne_nil _ _)
      simpa [hrest] using hhead
    obtain ⟨message, hmessage⟩ := parseSection_unheaded hnone
    refine ⟨message, ?_⟩
    rw [← List.takeWhile_append_dropWhile (p := fun s => (sectionBody s).isSome)
      (l := sectionsOf diff), hrest, mapM_append_cons_error hparsed hmessage]
    rfl
  | nil =>
    -- all sections parse, and none has a hunk
    have hall : ∀ s ∈ sectionsOf diff, (sectionBody s).isSome = true := List.dropWhile_eq_nil_iff.mp hrest
    rw [List.takeWhile_eq_self_iff.mpr hall] at hparsed
    rw [ShortStarts, List.takeWhile_eq_self_iff.mpr hall] at hshort
    have hany : parsed.any (·.2) = false := by
      refine List.any_eq_false.mpr fun p hp hsaw => h ⟨hall, ?_⟩
      obtain ⟨s, hs, hparse⟩ := mem_of_mapM_eq_ok hparsed hp
      obtain ⟨body, hbody⟩ := Option.isSome_iff_exists.mp (hall s hs)
      obtain ⟨file, hfile, -⟩ := parseSection_short hbody (hshort s hs body hbody)
      rw [hparse] at hfile
      rw [Except.ok.inj hfile] at hsaw
      obtain ⟨l, hl, hhunk⟩ := List.any_eq_true.mp hsaw
      exact ⟨s, hs, body, hbody, l, hl, hhunk⟩
    refine ⟨lit "The diff contains no valid hunks.", ?_⟩
    rw [hparsed]
    show filesOfParsed parsed = _
    rw [filesOfParsed, hany]
    rfl

/-- The parser returns files with paths, or raises `DiffParseError`. -/
def ParsesOrRejects (diff : Str) : Prop :=
  (∃ files, parseUnifiedDiff diff = .ok files ∧ files ≠ [] ∧ ∀ f ∈ files, f.path ≠ []) ∨
    ∃ message, parseUnifiedDiff diff = .error (.diffParseError message)

theorem parseUnifiedDiff_paths {diff : Str} {files : List FileDiff}
    (h : parseUnifiedDiff diff = .ok files) : ∀ f ∈ files, f.path ≠ [] := by
  obtain ⟨-, parsed, hparsed, -, rfl⟩ := parseUnifiedDiff_eq_ok h
  intro f hf
  obtain ⟨⟨file, saw⟩, hmem, rfl⟩ := List.mem_map.mp hf
  obtain ⟨s, -, hs⟩ := mem_of_mapM_eq_ok hparsed hmem
  exact (parseSection_eq_ok hs).1

theorem parse_or_reject_iff (diff : Str) : ParsesOrRejects diff ↔ ShortStarts diff := by
  constructor
  · intro h
    by_contra hlong
    rw [ParsesOrRejects, parseUnifiedDiff_long hlong] at h
    rcases h with ⟨files, h, -⟩ | ⟨message, h⟩
    · cases h
    · cases h
  · intro hshort
    by_cases h : WellFormed diff
    · obtain ⟨files, hfiles⟩ := parseUnifiedDiff_wellFormed hshort h
      exact .inl ⟨files, hfiles, parseUnifiedDiff_ne_nil hfiles, parseUnifiedDiff_paths hfiles⟩
    · exact .inr (parseUnifiedDiff_malformed hshort h)

end DiffReview
