import DiffReview.Diff.Rejections
import DiffReview.Diff.RoundTrip
import DiffReview.Service.RequestHash

/-!
# DiffReview — bad submissions

Which bodies `parse_submission` answers with a submission or a client error. Three kinds
slip through its `except` clauses: a `ValueError` of `json.loads`, a hunk start that `int()`
refuses and, in a diff that is otherwise accepted, a lone surrogate that UTF-8 refuses.
-/

namespace DiffReview

open Py Raise

/-- A submission with a chunk, or an `ApiError` with one of the client statuses. -/
def ClientAnswer (env : Env) (rawBody : List UInt8) : Prop :=
  (∃ sub, parseSubmission env rawBody = .ok sub ∧ 1 ≤ sub.chunks) ∨
    ∃ e : ApiError, parseSubmission env rawBody = .error (.api e) ∧
      (e.statusCode = 413 ∨ e.statusCode = 400 ∨ e.statusCode = 422)

/-- A diff whose starts `int()` reads, and that holds no lone surrogate if it is accepted. -/
structure PlainDiff (diff : Str) : Prop where
  starts : ShortStarts diff
  surrogates : WellFormed diff → ∀ c ∈ diff, isSurrogate c = false

/-- The body is too long, or `json.loads` raises nothing but its decoding errors on it and
its request, if it is valid, has a plain diff. -/
def PlainBody (env : Env) (rawBody : List UInt8) : Prop :=
  rawBody.length > env.settings.maxPayloadBytes ∨ env.jsonLoads rawBody = .error .decode ∨
    ∃ payload, env.jsonLoads rawBody = .ok payload ∧
      ∀ request, env.modelValidate payload = some request → PlainDiff request.diff

/-! ## Surrogates -/

theorem isSurrogate_ofAscii {c : Chr} (h : c.val < 128) : isSurrogate c = false := by
  rw [isSurrogate, Bool.and_eq_false_iff]
  exact .inl (by simp; omega)

theorem all_jsonEscape_ascii : ∀ n : Fin 128,
    ((jsonEscape (n.castLE (by decide))).all fun d => d.val < 128) = true := by decide

theorem jsonEscape_ascii {c : Chr} (h : c.val < 128) : ∀ d ∈ jsonEscape c, d.val < 128 := by
  intro d hd
  simpa using List.all_eq_true.mp (all_jsonEscape_ascii ⟨c.val, h⟩) d hd

theorem jsonEscape_large {c : Chr} (h : 128 ≤ c.val) : jsonEscape c = [c] := by
  have hne : ∀ {x : Chr}, x.val < 128 → c ≠ x := by
    rintro x hx rfl
    omega
  rw [jsonEscape, if_neg (hne (by decide)), if_neg (hne (by decide)), if_neg (hne (by decide)),
    if_neg (hne (by decide)), if_neg (hne (by decide)), if_neg (by omega), if_neg (by omega),
    if_neg (by omega)]

/-- Rendering adds no surrogate and drops none. -/
theorem surrogate_mem_jsonString {s : Str} {d : Chr} (hd : isSurrogate d = true) :
    d ∈ jsonString s ↔ d ∈ s := by
  have hlarge : 128 ≤ d.val := by
    by_contra hsmall
    rw [isSurrogate_ofAscii (not_le.mp hsmall)] at hd
    cases hd
  have hchr : ∀ c, d ∈ jsonEscape c ↔ c = d := by
    intro c
    by_cases hc : c.val < 128
    · refine iff_of_false (fun hmem => ?_) fun heq => ?_
      · have := jsonEscape_ascii hc d hmem
        omega
      · rw [heq] at hc
        omega
    · rw [jsonEscape_large (not_lt.mp hc), List.mem_singleton]
      exact eq_comm
  have hquote : d ≠ jsonQuote := by
    rintro rfl
    exact absurd hlarge (by decide)
  simp [jsonString, hquote, List.mem_flatMap, hchr]

/-- The canonical request can be encoded exactly when the diff can. -/
theorem exists_encode_canonicalJson {diff : Str} {provider : ProviderName} {maxFindings : Nat} :
    (∃ bytes, encode (canonicalJson diff provider maxFindings) = some bytes) ↔
      ∀ c ∈ diff, isSurrogate c = false := by
  have hascii : ∀ {s : Str}, (s.all fun c => !isSurrogate c) = true → ∀ c ∈ s, isSurrogate c = false := by
    intro s hs c hc
    simpa using List.all_eq_true.mp hs c hc
  have hvalue : ∀ c ∈ jsonString provider.value, isSurrogate c = false := by
    cases provider <;> exact hascii (by decide)
  have hdigits : ∀ c ∈ decimal maxFindings, isSurrogate c = false := by
    intro c hc
    obtain ⟨d, hd, rfl⟩ := mem_decimal hc
    interval_cases d <;> rfl
  have hdiff : (∀ c ∈ jsonString diff, isSurrogate c = false) ↔ ∀ c ∈ diff, isSurrogate c = false := by
    constructor
    · intro h c hc
      by_contra hsur
      have hsur : isSurrogate c = true := by simpa using hsur
      exact absurd (h c ((surrogate_mem_jsonString hsur).mpr hc)) (by simp [hsur])
    · intro h c hc
      by_contra hsur
      have hsur : isSurrogate c = true := by simpa using hsur
      exact absurd (h c ((surrogate_mem_jsonString hsur).mp hc)) (by simp [hsur])
  rw [exists_encode_iff, canonicalJson]
  simp only [List.forall_mem_append, hdiff]
  constructor
  · rintro ⟨⟨⟨⟨⟨⟨-, h⟩, -⟩, -⟩, -⟩, -⟩, -⟩
    exact h
  · intro h
    exact ⟨⟨⟨⟨⟨⟨hascii (by decide), h⟩, hascii (by decide)⟩, hdigits⟩, hascii (by decide)⟩, hvalue⟩,
      hascii (by decide)⟩

/-! ## The steps behind the parser -/

theorem raw_subset {diff : Str} {files : List FileDiff} (h : parseUnifiedDiff diff = .ok files) :
    ∀ f ∈ files, ∀ c ∈ f.raw, c ∈ diff := by
  obtain ⟨-, parsed, hparsed, -, rfl⟩ := parseUnifiedDiff_eq_ok h
  intro f hf c hc
  obtain ⟨⟨file, saw⟩, hmem, rfl⟩ := List.mem_map.mp hf
  obtain ⟨s, hs, hsection⟩ := mem_of_mapM_eq_ok hparsed hmem
  obtain ⟨-, i, st, -, -, hraw, -⟩ := parseSection_eq_ok hsection
  rw [hraw] at hc
  obtain ⟨l, hl, hc⟩ := List.mem_flatten.mp hc
  rw [← flatten_splitlines diff]
  exact List.mem_flatten.mpr ⟨l, mem_splitlines_of_sections hs hl, hc⟩

/-- What the steps behind the parser do to a diff that it accepts. -/
def finishSubmission (env : Env) (rawBody : List UInt8) (request : ReviewRequest)
    (files : List FileDiff) : Except Raised ParsedSubmission := do
  let chunks ← orUnhandled (chunkFileDiffs files env.settings.chunkBytes)
  let hash ← orUnhandled (requestHash env.sha256 request.diff request.provider request.maxFindings)
  let diffBytes ← orUnhandled (orRaise .unicodeEncode (encode request.diff))
  return {
    request := request
    rawBodyHash := env.sha256 rawBody
    requestHash := hash
    inputBytes := diffBytes.length
    chunks := chunks.length }

section Finish

variable {env : Env} {rawBody : List UInt8} {request : ReviewRequest} {files : List FileDiff}

theorem finishSubmission_ok (hfiles : parseUnifiedDiff request.diff = .ok files)
    (h : ∀ c ∈ request.diff, isSurrogate c = false) :
    ∃ sub, finishSubmission env rawBody request files = .ok sub ∧ 1 ≤ sub.chunks := by
  have hsizes : ∀ f ∈ files, ∃ n, f.byteSize = .ok n := by
    intro f hf
    exact FileDiff.exists_byteSize_iff.mpr fun c hc => h c (raw_subset hfiles f hf c hc)
  have hchunks := chunkFileDiffs_eq env.settings.chunkBytes hsizes
  obtain ⟨bytes, hbytes⟩ : ∃ bytes, encode (canonicalJson request.diff request.provider
      request.maxFindings) = some bytes := exists_encode_canonicalJson.mpr h
  obtain ⟨diffBytes, hdiffBytes⟩ := exists_encode_iff.mpr h
  have hhash : requestHash env.sha256 request.diff request.provider request.maxFindings
      = .ok (env.sha256 bytes) := map_eq_ok.mpr ⟨bytes, orRaise_eq_ok.mpr hbytes, rfl⟩
  refine ⟨_, bind_eq_ok.mpr ⟨_, orUnhandled_eq_ok.mpr hchunks, bind_eq_ok.mpr ⟨_,
    orUnhandled_eq_ok.mpr hhash, bind_eq_ok.mpr ⟨diffBytes,
      orUnhandled_eq_ok.mpr (orRaise_eq_ok.mpr hdiffBytes), rfl⟩⟩⟩, ?_⟩
  exact chunkFileDiffs_length_pos hchunks (parseUnifiedDiff_ne_nil hfiles)

theorem orUnhandled_cases {α : Type} (x : Except PyError α) :
    (∃ a, orUnhandled x = .ok a) ∨ orUnhandled x = .error .unhandled := by
  cases x with
  | ok a => exact .inl ⟨a, rfl⟩
  | error e => exact .inr rfl

/-- Behind the parser there is no client error. -/
theorem finishSubmission_surrogate (h : ∃ c ∈ request.diff, isSurrogate c = true) :
    finishSubmission env rawBody request files = .error .unhandled := by
  have hencode : orUnhandled (orRaise .unicodeEncode (encode request.diff)) = .error .unhandled := by
    rcases orUnhandled_cases (orRaise .unicodeEncode (encode request.diff)) with ⟨bytes, hbytes⟩ | h'
    · have hall := exists_encode_iff.mp ⟨bytes, orRaise_eq_ok.mp (orUnhandled_eq_ok.mp hbytes)⟩
      obtain ⟨c, hc, hsur⟩ := h
      rw [hall c hc] at hsur
      cases hsur
    · exact h'
  unfold finishSubmission
  rcases orUnhandled_cases (chunkFileDiffs files env.settings.chunkBytes) with ⟨chunks, hc⟩ | hc
  · rw [hc]
    rcases orUnhandled_cases (requestHash env.sha256 request.diff request.provider
      request.maxFindings) with ⟨hash, hh⟩ | hh
    · rw [hh, hencode]
      rfl
    · rw [hh]
      rfl
  · rw [hc]
    rfl

end Finish

/-! ## The answer -/

section Answer

variable {env : Env} {rawBody : List UInt8}

theorem not_clientAnswer_of_unhandled (h : parseSubmission env rawBody = .error .unhandled) :
    ¬ClientAnswer env rawBody := by
  rintro (⟨sub, hok, -⟩ | ⟨e, herror, -⟩)
  · cases h.symm.trans hok
  · cases h.symm.trans herror

/-- A valid request in a body that is not too long: the answer is decided by its diff. -/
theorem clientAnswer_valid_iff {payload : env.Val} {request : ReviewRequest}
    (hsize : ¬rawBody.length > env.settings.maxPayloadBytes)
    (hloads : env.jsonLoads rawBody = .ok payload) (hvalid : env.modelValidate payload = some request) :
    ClientAnswer env rawBody ↔ PlainDiff request.diff := by
  have hparse : parseSubmission env rawBody = (do
      let files ← parseOrReject request.diff
      finishSubmission env rawBody request files) := by
    rw [parseSubmission, checkPayloadSize, if_neg hsize, loadsOrReject, hloads]
    show (validateOrReject env payload >>= _) = _
    rw [validateOrReject, hvalid]
    rfl
  by_cases hshort : ShortStarts request.diff
  · by_cases hwell : WellFormed request.diff
    · obtain ⟨files, hfiles⟩ := parseUnifiedDiff_wellFormed hshort hwell
      rw [parseOrReject_eq_ok.mpr hfiles] at hparse
      by_cases hsur : ∀ c ∈ request.diff, isSurrogate c = false
      · obtain ⟨sub, hsub, hpos⟩ : ∃ sub, finishSubmission env rawBody request files = .ok sub ∧
            1 ≤ sub.chunks := finishSubmission_ok hfiles hsur
        exact iff_of_true (.inl ⟨sub, hparse.trans hsub, hpos⟩) ⟨hshort, fun _ => hsur⟩
      · have hsome : ∃ c ∈ request.diff, isSurrogate c = true := by simpa using hsur
        have hunhandled := hparse.trans (finishSubmission_surrogate hsome)
        exact iff_of_false (not_clientAnswer_of_unhandled hunhandled) fun h => hsur (h.surrogates hwell)
    · obtain ⟨message, herror⟩ := parseUnifiedDiff_malformed hshort hwell
      rw [parseOrReject, herror] at hparse
      refine iff_of_true (.inr ⟨_, hparse, .inr (.inr rfl)⟩) ⟨hshort, fun h => absurd h hwell⟩
  · rw [parseOrReject, parseUnifiedDiff_long hshort] at hparse
    exact iff_of_false (not_clientAnswer_of_unhandled hparse) fun h => hshort h.starts

theorem clientAnswer_iff : ClientAnswer env rawBody ↔ PlainBody env rawBody := by
  by_cases hsize : rawBody.length > env.settings.maxPayloadBytes
  · have herror : parseSubmission env rawBody = .error (.api ⟨413, lit "payload_too_large",
        lit "The request payload exceeds the configured limit.", []⟩) := by
      rw [parseSubmission, checkPayloadSize, if_pos hsize]
      rfl
    exact iff_of_true (.inr ⟨_, herror, .inl rfl⟩) (.inl hsize)
  cases hloads : env.jsonLoads rawBody with
  | error e =>
    have hparse : ∀ raised, loadsOrReject env rawBody = .error raised →
        parseSubmission env rawBody = .error raised := by
      intro raised hraised
      rw [parseSubmission, checkPayloadSize, if_neg hsize, hraised]
      rfl
    cases e with
    | decode =>
      have herror := hparse _ (by rw [loadsOrReject, hloads])
      exact iff_of_true (.inr ⟨_, herror, .inr (.inl rfl)⟩) (.inr (.inl hloads))
    | other =>
      have herror := hparse _ (by rw [loadsOrReject, hloads])
      refine iff_of_false (not_clientAnswer_of_unhandled herror) ?_
      rintro (h | h | ⟨payload, h, -⟩)
      · exact hsize h
      · cases hloads.symm.trans h
      · cases hloads.symm.trans h
  | ok payload =>
    have hplain : PlainBody env rawBody ↔
        ∀ request, env.modelValidate payload = some request → PlainDiff request.diff := by
      constructor
      · rintro (h | h | ⟨payload', h, hall⟩)
        · exact absurd h hsize
        · cases hloads.symm.trans h
        · cases hloads.symm.trans h
          exact hall
      · intro hall
        exact .inr (.inr ⟨payload, hloads, hall⟩)
    rw [hplain]
    cases hvalid : env.modelValidate payload with
    | none =>
      have herror : parseSubmission env rawBody = .error (.api
          ⟨422, lit "invalid_diff", lit "The review request is not valid.", []⟩) := by
        rw [parseSubmission, checkPayloadSize, if_neg hsize, loadsOrReject, hloads]
        show (validateOrReject env payload >>= _) = _
        rw [validateOrReject, hvalid]
        rfl
      exact iff_of_true (.inr ⟨_, herror, .inr (.inr rfl)⟩) nofun
    | some request =>
      rw [clientAnswer_valid_iff hsize hloads hvalid]
      constructor
      · intro h request' hsome
        exact Option.some.inj hsome ▸ h
      · intro h
        exact h request rfl

end Answer

/-- A body is answered with a submission or a client error exactly when it is plain, and a
text is parsed or rejected exactly when its starts are short. -/
theorem client_error_iff (env : Env) (rawBody : List UInt8) (diff : Str) :
    (ClientAnswer env rawBody ↔ PlainBody env rawBody) ∧ (ParsesOrRejects diff ↔ ShortStarts diff) :=
  ⟨clientAnswer_iff, parse_or_reject_iff diff⟩

/-! ## What escapes -/

theorem longStart_header {h : Hunk} (hlong : 10 ^ maxStrDigits ≤ h.newStart) :
    LongStart (h.header ++ [lf]) := by
  refine ⟨decimal h.newStart, by rw [startDigits, hunkRe_header]; rfl, ?_⟩
  by_contra hshort
  have hlt := (length_decimal_le_iff h.newStart).mp (not_lt.mp hshort)
  omega

/-- A git diff of one file with a start that is too long. -/
theorem parse_long_hunk {f : DiffFile} {h : Hunk} (hh : h ∈ f.hunks)
    (hlong : 10 ^ maxStrDigits ≤ h.newStart) :
    parseUnifiedDiff (UnifiedDiff.render ⟨true, [f], List.cons_ne_nil _ _⟩)
      = .error (.foreign .intMaxStrDigits) := by
  let d : UnifiedDiff := ⟨true, [f], List.cons_ne_nil _ _⟩
  have hstarts : sectionStarts ([] ++ d.blocks.flatten) = offsets 0 d.blocks := sectionStarts_git d rfl
  have hheader : h.header ++ [lf] ∈ f.hunks.flatMap Hunk.lines := by
    refine List.mem_flatMap.mpr ⟨h, hh, ?_⟩
    rw [h.lines_eq]
    exact List.mem_cons_self
  have hsection : parseSection (f.lines true) = .error (.foreign .intMaxStrDigits) := by
    rw [parseSection_lines, foldlM_long ⟨_, hheader, longStart_header hlong⟩]
    rfl
  have hlines : splitlines d.render = [] ++ d.blocks.flatten := splitlines_render d
  have hparse := parseUnifiedDiff_sections hlines hstarts (List.cons_ne_nil _ _) (render_ne_blank d)
  refine hparse.trans ?_
  show ([f.lines true].mapM parseSection).bind filesOfParsed = _
  rw [List.mapM_cons, hsection]
  rfl

/-- One added line in a hunk that starts at `1` with 4300 zeros. -/
theorem noBreak_a : NoBreak (lit "a") := noBreak_of_all (by decide)

def longStartHunk : Hunk := ⟨0, 10 ^ maxStrDigits, [⟨.added, lit "a", noBreak_a⟩]⟩

theorem longStartHunk_newStart : longStartHunk.newStart = 10 ^ maxStrDigits := rfl

theorem pathX_ne : lit "x" ≠ [] := by decide

theorem pathX_chars : ∀ c ∈ lit "x", isPathChr c = true := List.all_eq_true.mp (by decide)

def longStartFile : DiffFile where
  path := lit "x"
  path_ne := pathX_ne
  path_chars := pathX_chars
  hunks := [longStartHunk]
  hunks_ne := List.cons_ne_nil _ _

/-- An integer literal of 4301 digits. -/
def longLiteral : List UInt8 := List.replicate 4301 0x31

/-- `json.loads` refuses the body with a plain `ValueError`. -/
def refusingEnv (refused : List UInt8) : Env := { sampleEnv none with
  jsonLoads := fun body => if body = refused then .error .other else .error .decode }

theorem refusingEnv_loads (refused : List UInt8) :
    (refusingEnv refused).jsonLoads refused = .error .other := if_pos rfl

theorem bad_submission_escapes :
    parseSubmission (refusingEnv longLiteral) longLiteral = .error .unhandled ∧
      ¬ClientAnswer (refusingEnv longLiteral) longLiteral ∧
      ¬ParsesOrRejects (UnifiedDiff.render ⟨true, [longStartFile], List.cons_ne_nil _ _⟩) := by
  have hloads := refusingEnv_loads longLiteral
  have hsize : ¬longLiteral.length > (refusingEnv longLiteral).settings.maxPayloadBytes := by
    rw [longLiteral, List.length_replicate]
    decide
  have herror : parseSubmission (refusingEnv longLiteral) longLiteral = .error .unhandled := by
    rw [parseSubmission, checkPayloadSize, if_neg hsize, loadsOrReject, hloads]
    rfl
  refine ⟨herror, not_clientAnswer_of_unhandled herror, fun h => ?_⟩
  have hlong := parse_long_hunk (f := longStartFile) List.mem_cons_self longStartHunk_newStart.ge
  rcases h with ⟨files, hok, -⟩ | ⟨message, hreject⟩
  · cases hlong.symm.trans hok
  · cases hlong.symm.trans hreject

end DiffReview
