import DiffReview.Lib.RegexText
import DiffReview.Spec.Mock

/-!
# DiffReview — the line patterns of the mock provider

The eight patterns of `RULES` in `app/providers/mock.py`, for any class of word characters.
Under `re.IGNORECASE` a letter also matches its other case and, for three letters, the few
other characters that Unicode folds to it; `[A-Za-z]` matches the same four.
-/

namespace DiffReview

open Py

/-! ## Characters -/

def oneOf (s : String) : Regex Chr := .chr fun c => (lit s).contains c

def noneOf (s : String) : Regex Chr := .chr fun c => !(lit s).contains c

/-- The non-ASCII characters that match a letter under `re.IGNORECASE`. -/
def otherCases (l : Char) : List Nat :=
  if l = 'i' then [0x130, 0x131] else if l = 's' then [0x17f] else if l = 'k' then [0x212a] else []

/-- `c` matches the character `l` of a pattern under `re.IGNORECASE`. -/
def ignoringCase (l : Char) (c : Chr) : Bool :=
  c == Chr.ofChar l.toLower || c == Chr.ofChar l.toUpper || (otherCases l.toLower).contains c.val

def litIgnoringCase (s : String) : Regex Chr := .classes (s.toList.map ignoringCase)

def between (a b : Char) (c : Chr) : Bool := a.toNat ≤ c.val && c.val ≤ b.toNat

/-- `[A-Za-z0-9_\-]` under `re.IGNORECASE` -/
def tokenChr (c : Chr) : Bool :=
  between 'A' 'Z' c || between 'a' 'z' c || between '0' '9' c || (lit "_-").contains c
    || [0x130, 0x131, 0x17f, 0x212a].contains c.val

/-- `['\"]` -/
def quoteMarks : String := "'\""

/-! ## Patterns -/

/-- `eval\(` -/
def evalUsageRe : Regex Chr := .lit (lit "eval(")

/-- `(api[_-]?key|secret|token)\s*[:=]\s*['\"][A-Za-z0-9_\-]{16,}['\"]` -/
def hardcodedCredentialRe : Regex Chr :=
  .seq (.group (.alt
      (.seq (litIgnoringCase "api") (.seq (.opt (oneOf "_-")) (litIgnoringCase "key")))
      (.alt (litIgnoringCase "secret") (litIgnoringCase "token")))) <|
  .seq (.star space) <| .seq (oneOf ":=") <| .seq (.star space) <| .seq (oneOf quoteMarks) <|
  .seq (.atLeast (.chr tokenChr) 16) (oneOf quoteMarks)

/-- `(?:SELECT|INSERT|UPDATE|DELETE)` -/
def sqlKeywordRe : Regex Chr :=
  .alt (litIgnoringCase "SELECT") <| .alt (litIgnoringCase "INSERT") <|
  .alt (litIgnoringCase "UPDATE") (litIgnoringCase "DELETE")

/-- `['\"][^'\"]*\b(?:SELECT|INSERT|UPDATE|DELETE)\b[^'\"]*['\"]` -/
def sqlStringRe (isWord : Chr → Bool) : Regex Chr :=
  .seq (oneOf quoteMarks) <| .seq (.star (noneOf quoteMarks)) <| .seq (.boundary isWord) <|
  .seq sqlKeywordRe <| .seq (.boundary isWord) <| .seq (.star (noneOf quoteMarks)) (oneOf quoteMarks)

/-- The string before `\s*\+` or behind `\+\s*`. -/
def sqlConcatenationRe (isWord : Chr → Bool) : Regex Chr :=
  .alt (.seq (sqlStringRe isWord) (.seq (.star space) (.lit (lit "+"))))
    (.seq (.lit (lit "+")) (.seq (.star space) (sqlStringRe isWord)))

/-- `(?:==|!=)\s*null` -/
def looseNullRe : Regex Chr :=
  .seq (.alt (.lit (lit "==")) (.lit (lit "!="))) (.seq (.star space) (.lit (lit "null")))

/-- `JSON\.parse\(JSON\.stringify\(` -/
def deepCloneRe : Regex Chr := .lit (lit "JSON.parse(JSON.stringify(")

/-- `console\.log\(` -/
def consoleLogRe : Regex Chr := .lit (lit "console.log(")

/-- `TODO|FIXME` -/
def unresolvedMarkerRe : Regex Chr := .alt (.lit (lit "TODO")) (.lit (lit "FIXME"))

/-- `ignore previous instructions|disregard all prior|you are now` -/
def promptInjectionRe : Regex Chr :=
  .alt (litIgnoringCase "ignore previous instructions") <|
  .alt (litIgnoringCase "disregard all prior") (litIgnoringCase "you are now")

/-- `pattern.search(content)` of each rule. -/
def linePatterns (isWord : Chr → Bool) : Patterns where
  evalUsage content := (evalUsageRe.search content).isSome
  hardcodedCredential content := (hardcodedCredentialRe.search content).isSome
  sqlConcatenation content := ((sqlConcatenationRe isWord).search content).isSome
  looseNull content := (looseNullRe.search content).isSome
  deepClone content := (deepCloneRe.search content).isSome
  consoleLog content := (consoleLogRe.search content).isSome
  unresolvedMarker content := (unresolvedMarkerRe.search content).isSome
  promptInjection content := (promptInjectionRe.search content).isSome
  isWord := isWord

end DiffReview
