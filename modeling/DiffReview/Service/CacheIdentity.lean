import DiffReview.Service.RequestHash
import DiffReview.Spec.Payload

/-!
# DiffReview — the identity of a cache entry

Two accepted bodies have the same canonical bytes exactly when their validated requests are
the same (`cache_identity_exact`). How a body is written does not matter: the validated
request depends on four members of the payload alone, with the defaults filled in.
-/

namespace DiffReview

open Py Raise

/-! ## Members -/

/-- A member of an object that stands in `before` and `after` is the last one with its key. -/
theorem lookup_append (before after : List (Str × Json)) (key : Str) :
    lookup (before ++ after) key = (lookup after key).or (lookup before key) := by
  rw [lookup, List.reverse_append, List.find?_append, Option.map_or]
  rfl

theorem lookup_singleton_ne {m : Str × Json} {key : Str} (h : m.1 ≠ key) : lookup [m] key = none := by
  simp [lookup, h]

/-- An unknown member is not looked up. -/
theorem lookup_unknown {before after : List (Str × Json)} {m : Str × Json} {key : Str}
    (h : m.1 ≠ key) : lookup (before ++ m :: after) key = lookup (before ++ after) key := by
  rw [List.append_cons, lookup_append, lookup_append, lookup_append, lookup_singleton_ne h,
    Option.none_or]

theorem lookup_eq_some_iff {members : List (Str × Json)} (hnodup : (members.map Prod.fst).Nodup)
    {key : Str} {value : Json} : lookup members key = some value ↔ (key, value) ∈ members := by
  rw [lookup, Option.map_eq_some_iff]
  constructor
  · rintro ⟨m, hfind, rfl⟩
    have hmem : m ∈ members := List.mem_reverse.mp (List.mem_of_find?_eq_some hfind)
    have hkey : m.1 = key := by simpa using List.find?_some hfind
    rwa [← hkey]
  · intro hmem
    cases hfind : members.reverse.find? fun m => m.1 = key with
    | none =>
      have hno := List.find?_eq_none.mp hfind (key, value) (List.mem_reverse.mpr hmem)
      simp at hno
    | some m =>
      have hm : m ∈ members := List.mem_reverse.mp (List.mem_of_find?_eq_some hfind)
      have hkey : m.1 = key := by simpa using List.find?_some hfind
      exact ⟨m, rfl, congrArg Prod.snd (List.inj_on_of_nodup_map hnodup hm hmem hkey)⟩

/-- The order of distinct keys does not matter. -/
theorem lookup_perm {members members' : List (Str × Json)} (hperm : members.Perm members')
    (hnodup : (members.map Prod.fst).Nodup) (key : Str) : lookup members key = lookup members' key := by
  have hnodup' : (members'.map Prod.fst).Nodup := (hperm.map _).nodup_iff.mp hnodup
  refine Option.ext fun value => ?_
  rw [lookup_eq_some_iff hnodup, lookup_eq_some_iff hnodup', hperm.mem_iff]

/-! ## What is validated -/

/-- The members of the options that are read, with their defaults. -/
structure SameOptions (options options' : List (Str × Json)) : Prop where
  provider : (lookup options (lit "provider")).getD (.str (lit "mock"))
    = (lookup options' (lit "provider")).getD (.str (lit "mock"))
  maxFindings : (lookup options (lit "maxFindings")).getD (.int 100)
    = (lookup options' (lit "maxFindings")).getD (.int 100)

/-- Payloads that differ at most in the order of their keys, in unknown members and in
whether a default is written out. -/
inductive SameRequest : Json → Json → Prop
  | obj {members members' options options' : List (Str × Json)}
      (diff : lookup members (lit "diff") = lookup members' (lit "diff"))
      (hoptions : (lookup members (lit "options")).getD (.obj []) = .obj options)
      (hoptions' : (lookup members' (lit "options")).getD (.obj []) = .obj options')
      (same : SameOptions options options') : SameRequest (.obj members) (.obj members')

theorem validateOptions_obj (lax : Json → Option Int) (options : List (Str × Json)) :
    validateOptions lax (.obj options) = (do
      let provider ← providerField
        ((lookup options (lit "provider")).getD (.str (lit "mock")))
      let n ← intField lax
        ((lookup options (lit "maxFindings")).getD (.int 100))
      boundedMaxFindings provider n) := by
  rw [validateOptions]
  cases lookup options (lit "provider") with
  | none => cases lookup options (lit "maxFindings") <;> rfl
  | some value => cases lookup options (lit "maxFindings") <;> rfl

theorem validateRequest_obj (lax : Json → Option Int) (members : List (Str × Json)) :
    validateRequest lax (.obj members) = (do
      let diff ← (lookup members (lit "diff")).bind strField
      let options ← validateOptions lax ((lookup members (lit "options")).getD (.obj []))
      return ⟨diff, options.provider, options.maxFindings, options.maxFindings_le⟩) := by
  rw [validateRequest]
  cases lookup members (lit "options") with
  | none => rfl
  | some value => rfl

theorem SameRequest.validate {payload payload' : Json} (h : SameRequest payload payload')
    (lax : Json → Option Int) : validateRequest lax payload = validateRequest lax payload' := by
  cases h with
  | obj diff hoptions hoptions' same =>
    rw [validateRequest_obj, validateRequest_obj, diff, hoptions, hoptions', validateOptions_obj,
      validateOptions_obj, same.provider, same.maxFindings]

/-- How a payload is written does not change what is validated. -/
structure FormFree (lax : Json → Option Int) : Prop where
  same : ∀ payload payload', SameRequest payload payload' →
    validateRequest lax payload = validateRequest lax payload'
  key_order : ∀ members members' : List (Str × Json), members.Perm members' →
    (members.map Prod.fst).Nodup →
    validateRequest lax (.obj members) = validateRequest lax (.obj members')
  option_order : ∀ before after options options' : List (Str × Json), options.Perm options' →
    (options.map Prod.fst).Nodup →
    validateRequest lax (.obj (before ++ (lit "options", .obj options) :: after))
      = validateRequest lax (.obj (before ++ (lit "options", .obj options') :: after))
  unknown : ∀ before after : List (Str × Json), ∀ m : Str × Json, m.1 ≠ lit "diff" →
    m.1 ≠ lit "options" →
    validateRequest lax (.obj (before ++ m :: after)) = validateRequest lax (.obj (before ++ after))
  defaults : ∀ members : List (Str × Json), lookup members (lit "options") = none →
    validateRequest lax (.obj members) = validateRequest lax (.obj (members ++ [(lit "options", .obj
      [(lit "provider", .str (lit "mock")), (lit "maxFindings", .int 100)])]))

theorem formFree (lax : Json → Option Int) : FormFree lax := by
  refine ⟨fun _ _ h => h.validate lax, ?order, ?options, ?unknown, ?defaults⟩
  case order =>
    intro members members' hperm hnodup
    rw [validateRequest_obj, validateRequest_obj, lookup_perm hperm hnodup, lookup_perm hperm hnodup]
  case options =>
    intro before after options options' hperm hnodup
    have hsame : validateOptions lax (.obj options) = validateOptions lax (.obj options') := by
      rw [validateOptions_obj, validateOptions_obj, lookup_perm hperm hnodup,
        lookup_perm hperm hnodup]
    -- the options that are written here count unless later ones replace them
    have hread : ∀ options, lookup (before ++ (lit "options", .obj options) :: after) (lit "options")
        = (lookup after (lit "options")).or (some (.obj options)) := by
      intro options
      rw [List.append_cons, lookup_append, lookup_append]
      rfl
    have hdiff : ∀ options, lookup (before ++ (lit "options", .obj options) :: after) (lit "diff")
        = lookup (before ++ after) (lit "diff") :=
      fun _ => lookup_unknown (show lit "options" ≠ lit "diff" by decide)
    rw [validateRequest_obj, validateRequest_obj, hread, hread, hdiff, hdiff]
    cases lookup after (lit "options") with
    | none =>
      rw [Option.none_or, Option.none_or, Option.getD_some, Option.getD_some, hsame]
    | some value => rfl
  case unknown =>
    intro before after m hdiff hoptions
    rw [validateRequest_obj, validateRequest_obj, lookup_unknown hdiff, lookup_unknown hoptions]
  case defaults =>
    intro members hnone
    have hdiff : lookup (members ++ [(lit "options", .obj
        [(lit "provider", .str (lit "mock")), (lit "maxFindings", .int 100)])]) (lit "diff")
        = lookup members (lit "diff") := by
      rw [lookup_append, lookup_singleton_ne (by decide), Option.none_or]
    rw [validateRequest_obj, validateRequest_obj, hdiff, hnone, lookup_append]
    rfl

/-! ## The identity -/

/-- The canonical bytes of two accepted bodies. -/
structure ExactIdentity (env : JsonEnv) (rawBody rawBody' : List UInt8)
    (sub sub' : ParsedSubmission) : Prop where
  hashed : ∃ bytes, canonicalBytes sub.request = some bytes ∧ sub.requestHash = env.sha256 bytes
  hashed' : ∃ bytes, canonicalBytes sub'.request = some bytes ∧ sub'.requestHash = env.sha256 bytes
  iff : canonicalBytes sub.request = canonicalBytes sub'.request ↔
    (sub.request.diff, sub.request.provider, sub.request.maxFindings)
      = (sub'.request.diff, sub'.request.provider, sub'.request.maxFindings)
  /-- The bodies themselves count only through what is validated. -/
  form : ∀ payload payload', env.loads rawBody = .ok payload → env.loads rawBody' = .ok payload' →
    validateRequest env.lax payload = validateRequest env.lax payload' →
    canonicalBytes sub.request = canonicalBytes sub'.request

theorem parseSubmission_request {env : JsonEnv} {rawBody : List UInt8} {sub : ParsedSubmission}
    (h : parseSubmission env.env rawBody = .ok sub) {payload : Json}
    (hloads : env.loads rawBody = .ok payload) :
    validateRequest env.lax payload = some sub.request := by
  unfold parseSubmission at h
  obtain ⟨-, -, h⟩ := bind_eq_ok.mp h
  obtain ⟨loaded, hloaded, h⟩ := bind_eq_ok.mp h
  obtain ⟨request, hrequest, h⟩ := bind_eq_ok.mp h
  have hsame : loaded = payload := by
    unfold loadsOrReject at hloaded
    rw [show env.env.jsonLoads rawBody = .ok payload from hloads] at hloaded
    exact (Except.ok.inj hloaded).symm
  obtain ⟨files, -, h⟩ := bind_eq_ok.mp h
  obtain ⟨chunks, -, h⟩ := bind_eq_ok.mp h
  obtain ⟨hash, -, h⟩ := bind_eq_ok.mp h
  obtain ⟨diffBytes, -, h⟩ := bind_eq_ok.mp h
  cases h
  unfold validateOrReject at hrequest
  rw [hsame] at hrequest
  split at hrequest
  · next hvalid => exact hvalid.trans (congrArg some (Except.ok.inj hrequest))
  · cases hrequest

theorem requestHash_eq_ok {sha256 : List UInt8 → Str} {request : ReviewRequest} {hash : Str}
    (h : requestHash sha256 request.diff request.provider request.maxFindings = .ok hash) :
    ∃ bytes, canonicalBytes request = some bytes ∧ hash = sha256 bytes := by
  obtain ⟨bytes, hbytes, rfl⟩ := map_eq_ok.mp h
  exact ⟨bytes, orRaise_eq_ok.mp hbytes, rfl⟩

theorem exactIdentity {env : JsonEnv} {sub sub' : ParsedSubmission} {rawBody rawBody' : List UInt8}
    (h : parseSubmission env.env rawBody = .ok sub)
    (h' : parseSubmission env.env rawBody' = .ok sub') : ExactIdentity env rawBody rawBody' sub sub' := by
  obtain ⟨bytes, hbytes, hhash⟩ := requestHash_eq_ok (parseSubmission_eq_ok h).2.requestHash
  obtain ⟨bytes', hbytes', hhash'⟩ := requestHash_eq_ok (parseSubmission_eq_ok h').2.requestHash
  refine ⟨⟨bytes, hbytes, hhash⟩, ⟨bytes', hbytes', hhash'⟩,
    ⟨fun hsame => ?_, fun hsame => ?_⟩, fun payload payload' hloads hloads' hsame => ?_⟩
  · rw [hbytes, hbytes'] at hsame
    cases hsame
    -- UTF-8 and the rendering are both injective
    have hjson := encode_injective hbytes hbytes'
    obtain ⟨hdiff, hprovider, hmax⟩ := canonicalJson_injective hjson
    rw [hdiff, hprovider, hmax]
  · obtain ⟨hdiff, hrest⟩ := Prod.mk.inj hsame
    obtain ⟨hprovider, hmax⟩ := Prod.mk.inj hrest
    rw [canonicalBytes, canonicalBytes, hdiff, hprovider, hmax]
  · rw [parseSubmission_request h hloads, parseSubmission_request h' hloads'] at hsame
    rw [Option.some.inj hsame]

/-- A body that leaves the options out and adds a member nobody reads. -/
def shortBody : List UInt8 :=
  (encode (lit "\x7b\"x\": null, \"diff\":" ++ jsonString sampleDiff ++ lit "\x7d")).getD []

def sampleJsonEnv : JsonEnv where
  settings := Settings.default
  loads body :=
    if body = sampleBody .mock then .ok (.obj [(lit "diff", .str sampleDiff),
      (lit "options", .obj [(lit "maxFindings", .int 100), (lit "provider", .str (lit "mock"))])])
    else if body = shortBody then .ok (.obj [(lit "x", .null), (lit "diff", .str sampleDiff)])
    else .error .decode
  lax _ := none
  sha256 := sampleSha256
  patterns := samplePatterns
  foreignText _ := []

def sampleSubmission : ParsedSubmission where
  request := sampleRequest .mock
  rawBodyHash := sampleSha256 (sampleBody .mock)
  requestHash := sampleSha256 (sampleBody .mock)
  inputBytes := 37
  chunks := 1

def shortSubmission : ParsedSubmission :=
  { sampleSubmission with rawBodyHash := sampleSha256 shortBody }

end DiffReview
