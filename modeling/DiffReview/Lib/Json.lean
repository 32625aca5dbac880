import DiffReview.Lib.Str

/-!
# JSON strings

`json.dumps` of a text with `ensure_ascii=False`. The rendering is a prefix code: what
follows the closing quote can be told from the text (`jsonString_append_inj`).
-/

namespace Py

def jsonQuote : Chr := Chr.ofChar '"'

def jsonBackslash : Chr := Chr.ofChar '\\'

/-- The last digit of a `\u00XX` escape. -/
def hexChr (d : Nat) : Chr := if d < 10 then digitChr d else Fin.ofNat _ (87 + d)

/-- `json.dumps` with `ensure_ascii=False` escapes the quote, the backslash and the control
characters. -/
def jsonEscape (c : Chr) : Str :=
  if c = jsonQuote then [jsonBackslash, jsonQuote]
  else if c = jsonBackslash then [jsonBackslash, jsonBackslash]
  else if c = Chr.ofChar '\n' then lit "\\n"
  else if c = Chr.ofChar '\r' then lit "\\r"
  else if c = Chr.ofChar '\t' then lit "\\t"
  else if c.val = 0x0c then lit "\\f"
  else if c.val = 0x08 then lit "\\b"
  else if c.val < 0x20 then lit "\\u00" ++ [hexChr (c.val / 16), hexChr (c.val % 16)]
  else [c]

def jsonString (s : Str) : Str := jsonQuote :: (s.flatMap jsonEscape ++ [jsonQuote])

/-! ## Reading a rendering back -/

def hexValue (c : Chr) : Nat := if c.val < 0x3a then c.val - 0x30 else c.val - 87

/-- The character that the first escape of a rendering stands for, with what follows it. -/
def jsonUnescape : Str → Option (Chr × Str)
  | [] => none
  | c :: rest =>
    if c ≠ jsonBackslash then some (c, rest)
    else match rest with
      | [] => none
      | k :: rest =>
        if k = Chr.ofChar 'n' then some (Chr.ofChar '\n', rest)
        else if k = Chr.ofChar 'r' then some (Chr.ofChar '\r', rest)
        else if k = Chr.ofChar 't' then some (Chr.ofChar '\t', rest)
        else if k = Chr.ofChar 'f' then some (0x0c, rest)
        else if k = Chr.ofChar 'b' then some (0x08, rest)
        else if k = Chr.ofChar 'u' then match rest with
          | _ :: _ :: high :: low :: rest =>
            some (Fin.ofNat _ (16 * hexValue high + hexValue low), rest)
          | _ => none
        else some (k, rest)

theorem hexValue_hexChr {d : Nat} (h : d < 16) : hexValue (hexChr d) = d := by
  interval_cases d <;> decide

theorem jsonUnescape_jsonEscape (c : Chr) (rest : Str) :
    jsonUnescape (jsonEscape c ++ rest) = some (c, rest) := by
  by_cases hquote : c = jsonQuote
  · subst hquote
    rfl
  by_cases hback : c = jsonBackslash
  · subst hback
    rfl
  by_cases hn : c = Chr.ofChar '\n'
  · subst hn
    rfl
  by_cases hr : c = Chr.ofChar '\r'
  · subst hr
    rfl
  by_cases ht : c = Chr.ofChar '\t'
  · subst ht
    rfl
  by_cases hf : c.val = 0x0c
  · obtain rfl : c = 0x0c := Fin.ext hf
    rfl
  by_cases hb : c.val = 0x08
  · obtain rfl : c = 0x08 := Fin.ext hb
    rfl
  simp only [jsonEscape, if_neg hquote, if_neg hback, if_neg hn, if_neg hr, if_neg ht, if_neg hf,
    if_neg hb]
  by_cases hcontrol : c.val < 0x20
  · rw [if_pos hcontrol]
    have hvalue : 16 * hexValue (hexChr (c.val / 16)) + hexValue (hexChr (c.val % 16)) = c.val := by
      rw [hexValue_hexChr (by omega), hexValue_hexChr (by omega)]
      omega
    have hread : jsonUnescape (lit "\\u00" ++ [hexChr (c.val / 16), hexChr (c.val % 16)] ++ rest)
        = some (Fin.ofNat _ (16 * hexValue (hexChr (c.val / 16)) + hexValue (hexChr (c.val % 16))),
          rest) := rfl
    rw [hread, hvalue, Fin.ofNat_eq_cast, Fin.cast_val_eq_self]
  · rw [if_neg hcontrol, List.singleton_append]
    unfold jsonUnescape
    exact if_pos hback

theorem head?_jsonEscape (c : Chr) : (jsonEscape c).head? ≠ some jsonQuote := by
  unfold jsonEscape
  repeat' split
  all_goals first | decide | skip
  · exact fun h => absurd (Option.some.inj h) (by decide)
  · next h _ _ _ _ _ _ _ => exact fun hc => h (Option.some.inj hc)

/-- A rendered text ends at its closing quote. -/
theorem jsonEscape_append_inj {s t x y : Str}
    (h : s.flatMap jsonEscape ++ jsonQuote :: x = t.flatMap jsonEscape ++ jsonQuote :: y) :
    s = t ∧ x = y := by
  have hquote : ∀ (c : Chr) (r z : Str), jsonEscape c ++ r ≠ jsonQuote :: z := by
    intro c r z hc
    have hne : jsonEscape c ≠ [] := by
      intro hnil
      have hread := jsonUnescape_jsonEscape c []
      rw [hnil] at hread
      cases hread
    obtain ⟨k, ks, hk⟩ := List.exists_cons_of_ne_nil hne
    rw [hk] at hc
    refine head?_jsonEscape c ?_
    rw [hk, List.head?_cons, (List.cons.inj hc).1]
  induction s generalizing t with
  | nil =>
    cases t with
    | nil => exact ⟨rfl, (List.cons.inj h).2⟩
    | cons c t =>
      rw [List.flatMap_cons, List.append_assoc] at h
      exact absurd h.symm (hquote c _ _)
  | cons c s ih =>
    cases t with
    | nil =>
      rw [List.flatMap_cons, List.append_assoc] at h
      exact absurd h (hquote c _ _)
    | cons d t =>
      rw [List.flatMap_cons, List.flatMap_cons, List.append_assoc, List.append_assoc] at h
      have hread := congrArg jsonUnescape h
      rw [jsonUnescape_jsonEscape, jsonUnescape_jsonEscape] at hread
      obtain ⟨rfl, hrest⟩ := Prod.mk.inj (Option.some.inj hread)
      obtain ⟨rfl, hxy⟩ := ih hrest
      exact ⟨rfl, hxy⟩

theorem jsonString_append_inj {s t x y : Str} (h : jsonString s ++ x = jsonString t ++ y) :
    s = t ∧ x = y := by
  simp only [jsonString, List.cons_append, List.append_assoc, List.nil_append] at h
  exact jsonEscape_append_inj (List.cons.inj h).2

end Py
