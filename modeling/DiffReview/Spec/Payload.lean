import DiffReview.Spec.Jobs

/-!
# DiffReview — the request body as JSON

The fields, aliases, defaults and bounds of `ReviewRequest` and `ReviewOptions` of
`app/schemas.py`, on what `json.loads` returns. How pydantic reads an integer out of a value
that is none is a parameter.
-/

namespace DiffReview

open Py

/-- A value of `json.loads`. An object is the list of its members as they were written; of
those with one key the dictionary holds the last. -/
inductive Json where
  | null
  | bool (value : Bool)
  | int (value : Int)
  | float (literal : Str)
  | str (value : Str)
  | arr (items : List Json)
  | obj (members : List (Str × Json))

/-- `value.get(key)` of a dictionary. -/
def lookup (members : List (Str × Json)) (key : Str) : Option Json :=
  (members.reverse.find? fun m => m.1 = key).map Prod.snd

/-- `diff: str` -/
def strField : Json → Option Str
  | .str value => some value
  | _ => none

/-- `provider: ProviderName` -/
def providerField : Json → Option ProviderName
  | .str value =>
    if value = ProviderName.mock.value then some .mock
    else if value = ProviderName.llm.value then some .llm
    else none
  | _ => none

/-- An `int` field: an integer is itself, `lax` is what pydantic makes of other values. -/
def intField (lax : Json → Option Int) : Json → Option Int
  | .int value => some value
  | value => lax value

structure ReviewOptions where
  provider : ProviderName
  maxFindings : Nat
  maxFindings_le : maxFindings ≤ 10000

/-- `Field(default_factory=ReviewOptions)` -/
def ReviewOptions.default : ReviewOptions := ⟨.mock, 100, defaultMaxFindings_le⟩

/-- `Field(default=100, alias="maxFindings", ge=0, le=10_000)` -/
def boundedMaxFindings (provider : ProviderName) (n : Int) : Option ReviewOptions :=
  if h : 0 ≤ n ∧ n ≤ 10000 then some ⟨provider, n.toNat, by omega⟩ else none

/-- A field with a default. -/
def fieldOr {α : Type} (default : α) (read : Json → Option α) : Option Json → Option α
  | none => some default
  | some value => read value

def validateOptions (lax : Json → Option Int) : Json → Option ReviewOptions
  | .obj members => do
    let provider ← fieldOr .mock providerField (lookup members (lit "provider"))
    let n ← fieldOr 100 (intField lax) (lookup members (lit "maxFindings"))
    boundedMaxFindings provider n
  | _ => none

/-- `ReviewRequest.model_validate` -/
def validateRequest (lax : Json → Option Int) : Json → Option ReviewRequest
  | .obj members => do
    let diff ← (lookup members (lit "diff")).bind strField
    let options ← fieldOr .default (validateOptions lax) (lookup members (lit "options"))
    return ⟨diff, options.provider, options.maxFindings, options.maxFindings_le⟩
  | _ => none

/-- The service with bodies that are JSON. -/
structure JsonEnv where
  settings : Settings
  loads : List UInt8 → Except LoadsError Json
  lax : Json → Option Int
  sha256 : List UInt8 → Str
  patterns : Patterns
  foreignText : ForeignError → Str

def JsonEnv.env (env : JsonEnv) : Env where
  settings := env.settings
  Val := Json
  jsonLoads := env.loads
  modelValidate := validateRequest env.lax
  sha256 := env.sha256
  patterns := env.patterns
  foreignText := env.foreignText

/-- The bytes whose digest is the request hash; `none` is the `UnicodeEncodeError`. -/
def canonicalBytes (request : ReviewRequest) : Option (List UInt8) :=
  encode (canonicalJson request.diff request.provider request.maxFindings)

end DiffReview
