import DiffReview.Service.RequestHash
import DiffReview.Spec.Gate

/-!
# DiffReview — authentication

The two checks of the bearer token read the header in two ways. Neither lets a request with
another value through. But `secrets.compare_digest` raises on a character that is not ASCII,
and so the middleware answers 500 to such a value (`unauthenticated_iff`).
-/

namespace DiffReview

open Py

/-- What the checks of the token promise for one request. -/
structure Protected (env : Env) (settings : GateSettings) (scope : Scope) : Prop where
  /-- Another value than the expected one is answered 401, and the application is not called. -/
  middleware : latin1 (rawAuthorization scope) ≠ expectedAuthorization settings →
    ∃ response, contractMiddleware settings scope = .answered response ∧
      response.statusCode = 401 ∧ response.code = lit "unauthorized" ∧
      ∀ router s, serve env settings router scope s = (.error response, s)
  /-- On another value no handler runs, and the limiter and the tables stay as they are. -/
  dependency : ∀ authorization, authorization ≠ some (expectedAuthorization settings) →
    ∀ route s, ∃ exc, reviewRoute env settings authorization route s = (.refused exc, s)

theorem isAscii_latin1 {raw : List UInt8} : isAscii (latin1 raw) = true ↔ ∀ b ∈ raw, b < 128 := by
  rw [isAscii, latin1, List.all_map, List.all_eq_true]
  refine forall₂_congr fun b _ => ?_
  rw [Function.comp_apply, decide_eq_true_eq, UInt8.lt_iff_toNat_lt]
  rfl

theorem isAscii_expectedAuthorization {settings : GateSettings}
    (h : isAscii settings.bearerToken = true) : isAscii (expectedAuthorization settings) = true := by
  rw [expectedAuthorization, isAscii, List.all_append, Bool.and_eq_true]
  exact ⟨by decide, h⟩

/-! ## The comparison -/

section Compare

variable {a b : Str}

theorem compareDigest_ne (h : a ≠ b) : compareDigest a b = none ∨ compareDigest a b = some false := by
  unfold compareDigest
  split
  · exact .inr (by simp [h])
  · exact .inl rfl

theorem compareDigest_eq_false (ha : isAscii a = true) (hb : isAscii b = true) (h : a ≠ b) :
    compareDigest a b = some false := by
  simp [compareDigest, ha, hb, h]

theorem compareDigest_eq_none (h : isAscii a = false) : compareDigest a b = none := by
  simp [compareDigest, h]

end Compare

section Gate

variable {env : Env} {settings : GateSettings} {scope : Scope}

/-- The dependency refuses every other value, by an answer or by an exception. -/
theorem requireBearerToken_refuses {authorization : Option Str}
    (h : authorization ≠ some (expectedAuthorization settings)) :
    ∃ exc, requireBearerToken settings authorization = .error exc := by
  cases authorization with
  | none => exact ⟨_, rfl⟩
  | some value =>
    have hne : value ≠ expectedAuthorization settings := fun heq => h (congrArg some heq)
    rcases compareDigest_ne hne with hraises | hfalse
    · exact ⟨.unhandled, by simp only [requireBearerToken, hraises]⟩
    · exact ⟨.api unauthorized, by simp only [requireBearerToken, hfalse]⟩

theorem reviewRoute_refused {authorization : Option Str}
    (h : authorization ≠ some (expectedAuthorization settings)) (route : Route) (s : AppState) :
    ∃ exc, reviewRoute env settings authorization route s = (.refused exc, s) := by
  obtain ⟨exc, hexc⟩ := requireBearerToken_refuses h
  exact ⟨exc, by rw [reviewRoute, hexc]⟩

theorem contractMiddleware_v1 (hhttp : scope.type = lit "http") (hpath : underV1 scope.path = true) :
    contractMiddleware settings scope =
      match compareDigest (latin1 (rawAuthorization scope)) (expectedAuthorization settings) with
      | none => .raised
      | some false => .answered unauthorized
      | some true => checkContentLength settings scope := by
  unfold contractMiddleware
  exact (if_neg (not_not.mpr hhttp)).trans (if_pos hpath)

/-- Under `/v1` a request with another value is answered 401 exactly when the value the
middleware selects is ASCII. -/
theorem unauthenticated_iff (hhttp : scope.type = lit "http") (hpath : underV1 scope.path = true)
    (htoken : isAscii settings.bearerToken = true) :
    Protected env settings scope ↔ ∀ b ∈ rawAuthorization scope, b < 128 := by
  have hexpected := isAscii_expectedAuthorization htoken
  rw [← isAscii_latin1]
  constructor
  · intro h
    by_contra hascii
    have hascii : isAscii (latin1 (rawAuthorization scope)) = false := by simpa using hascii
    have hne : latin1 (rawAuthorization scope) ≠ expectedAuthorization settings := by
      intro heq
      rw [heq, hexpected] at hascii
      cases hascii
    obtain ⟨response, hanswered, -⟩ := h.middleware hne
    -- the comparison raises instead
    rw [contractMiddleware_v1 hhttp hpath, compareDigest_eq_none hascii] at hanswered
    cases hanswered
  · intro hascii
    refine ⟨fun hne => ⟨unauthorized, ?_, rfl, rfl, fun router s => ?_⟩,
      fun authorization hne route s => reviewRoute_refused hne route s⟩
    · rw [contractMiddleware_v1 hhttp hpath, compareDigest_eq_false hascii hexpected hne]
    · rw [serve, contractMiddleware_v1 hhttp hpath, compareDigest_eq_false hascii hexpected hne]

end Gate

def developmentSettings : GateSettings := ⟨lit "development-token", 1048576⟩

/-- A request with the given authorization, after one with the right token. -/
def twoTokens (last : List UInt8) : Scope where
  type := lit "http"
  method := lit "GET"
  path := lit "/v1/reviews/a"
  headers := [(asciiBytes "authorization", asciiBytes "Bearer development-token"),
    (asciiBytes "Authorization", last)]

theorem unauthenticated_iff_sample :
    Protected (sampleEnv none) developmentSettings (twoTokens (asciiBytes "Bearer x")) ↔
      ∀ b ∈ rawAuthorization (twoTokens (asciiBytes "Bearer x")), b < 128 :=
  unauthenticated_iff rfl (by decide) (by decide)

/-- A token with an `é` is answered 500. -/
theorem latin1_token_raises :
    contractMiddleware developmentSettings (twoTokens [0xe9]) = .raised ∧
      (∀ router s, serve (sampleEnv none) developmentSettings router (twoTokens [0xe9]) s
        = (.error unexpectedError, s)) ∧
      ¬Protected (sampleEnv none) developmentSettings (twoTokens [0xe9]) := by
  have hraised : contractMiddleware developmentSettings (twoTokens [0xe9]) = .raised := by decide
  refine ⟨hraised, fun router s => by rw [serve, hraised], fun h => ?_⟩
  obtain ⟨response, hanswered, -⟩ := h.middleware (by decide)
  rw [hraised] at hanswered
  cases hanswered

end DiffReview
