import DiffReview.Review.MockReview
import DiffReview.Service.Submissions

/-!
# DiffReview — the request hash

The canonical request determines the request (`canonicalJson_injective`), so under a
collision-free digest the request hash does too.
-/

namespace DiffReview

open Py Raise

theorem ProviderName.value_injective : Function.Injective ProviderName.value := by
  intro p q h
  cases p <;> cases q <;> first | rfl | exact absurd h (by decide)

/-- Two requests with one canonical form are one request. -/
theorem canonicalJson_injective {diff diff' : Str} {provider provider' : ProviderName}
    {maxFindings maxFindings' : Nat}
    (h : canonicalJson diff provider maxFindings = canonicalJson diff' provider' maxFindings') :
    diff = diff' ∧ provider = provider' ∧ maxFindings = maxFindings' := by
  have hcomma : ∀ n, Chr.ofChar ',' ∉ decimal n := fun n => notMem_decimal (by decide) n
  have hsplit : lit ",\"provider\":" = Chr.ofChar ',' :: lit "\"provider\":" := rfl
  simp only [canonicalJson, List.append_assoc, hsplit, List.cons_append, List.append_cancel_left_eq]
    at h
  obtain ⟨hdiff, hrest⟩ := jsonString_append_inj h
  simp only [List.append_cancel_left_eq] at hrest
  obtain ⟨hmax, hrest⟩ := append_firstSep_inj (hcomma _) (hcomma _) hrest
  simp only [List.append_cancel_left_eq] at hrest
  obtain ⟨hvalue, -⟩ := jsonString_append_inj hrest
  exact ⟨hdiff, ProviderName.value_injective hvalue, decimal_injective hmax⟩

/-- No two requests have the same request hash. -/
def CollisionFree (sha256 : List UInt8 → Str) : Prop :=
  ∀ ⦃diff diff' : Str⦄ ⦃provider provider' : ProviderName⦄ ⦃maxFindings maxFindings' : Nat⦄
    ⦃hash : Str⦄, requestHash sha256 diff provider maxFindings = .ok hash →
    requestHash sha256 diff' provider' maxFindings' = .ok hash →
    diff = diff' ∧ provider = provider' ∧ maxFindings = maxFindings'

theorem collisionFree_of_injective {sha256 : List UInt8 → Str} (h : Function.Injective sha256) :
    CollisionFree sha256 := by
  intro diff diff' provider provider' maxFindings maxFindings' hash h₁ h₂
  obtain ⟨bytes, hbytes, rfl⟩ := map_eq_ok.mp h₁
  obtain ⟨bytes', hbytes', heq⟩ := map_eq_ok.mp h₂
  rw [h heq, orRaise_eq_ok] at hbytes'
  rw [orRaise_eq_ok] at hbytes
  exact canonicalJson_injective (encode_injective hbytes hbytes')

/-! ## A small environment

One diff that adds a call of `eval`, submitted for either provider, with the digests
SHA-256 gives for what the service hashes on the way. -/

def sampleDiff : Str := lit "--- a/x\n+++ b/x\n@@ -0,0 +1 @@\n+eval(\n"

def sampleRequest (provider : ProviderName) : ReviewRequest :=
  ⟨sampleDiff, provider, 100, defaultMaxFindings_le⟩

/-- A body of the request: its canonical form. -/
def sampleBody (provider : ProviderName) : List UInt8 :=
  (encode (canonicalJson sampleDiff provider 100)).getD []

def sampleDigests : List (List UInt8 × Str) :=
  [(sampleBody .mock, lit "db8fab678dad415e7e99d199b58a62ead522fe65ffe8b2dedf102c890eee421d"),
    (sampleBody .llm, lit "e36864bf60ac73400f376be9b6694e862dc40f1932d2ef14cae9d495a707e709"),
    ((encode (lit "Unsafe eval")).getD [],
      lit "bd685bda9e5b232022f0300dd02b7c9c3a68ff3c9d8ebda8231b7a1ce26259cd")]

/-- SHA-256 on the sample bytes, continued to an injective digest of all bytes. -/
def sampleSha256 (bytes : List UInt8) : Str :=
  match sampleDigests.find? fun d => d.1 = bytes with
  | some d => d.2
  | none => Chr.ofChar 'x' :: bytes.map fun b => Fin.ofNat _ b.toNat

theorem sampleSha256_injective : Function.Injective sampleSha256 := by
  have hfst : (sampleDigests.map Prod.snd).Nodup := by decide
  have hhead : ∀ d ∈ sampleDigests, d.2.head? ≠ some (Chr.ofChar 'x') := by decide
  have hchr : Function.Injective fun b : UInt8 => (Fin.ofNat _ b.toNat : Chr) := by
    intro a b hab
    have hval := congrArg Fin.val hab
    simp only [Fin.ofNat_eq_cast, Fin.val_natCast] at hval
    have ha := a.toNat_lt
    have hb := b.toNat_lt
    exact UInt8.toNat_inj.mp (by omega)
  intro a b hab
  unfold sampleSha256 at hab
  cases ha : sampleDigests.find? fun d => d.1 = a with
  | none =>
    cases hb : sampleDigests.find? fun d => d.1 = b with
    | none =>
      rw [ha, hb] at hab
      exact List.map_injective_iff.mpr hchr (List.cons.inj hab).2
    | some e =>
      rw [ha, hb] at hab
      have hx : e.2.head? = some (Chr.ofChar 'x') := congrArg List.head? hab.symm
      exact absurd hx (hhead e (List.mem_of_find?_eq_some hb))
  | some d =>
    have hda : d.1 = a := by simpa using List.find?_some ha
    have hdmem := List.mem_of_find?_eq_some ha
    cases hb : sampleDigests.find? fun d => d.1 = b with
    | none =>
      rw [ha, hb] at hab
      have hx : d.2.head? = some (Chr.ofChar 'x') := congrArg List.head? hab
      exact absurd hx (hhead d hdmem)
    | some e =>
      have heb : e.1 = b := by simpa using List.find?_some hb
      rw [ha, hb] at hab
      rw [← hda, ← heb, List.inj_on_of_nodup_map hfst hdmem (List.mem_of_find?_eq_some hb) hab]

def sampleEnv (cerebrasApiKey : Option Str) : Env where
  settings := { Settings.default with cerebrasApiKey := cerebrasApiKey }
  Val := ReviewRequest
  jsonLoads body :=
    if body = sampleBody .mock then .ok (sampleRequest .mock)
    else if body = sampleBody .llm then .ok (sampleRequest .llm)
    else .error .decode
  modelValidate := some
  sha256 := sampleSha256
  patterns := samplePatterns
  foreignText _ := []

end DiffReview
