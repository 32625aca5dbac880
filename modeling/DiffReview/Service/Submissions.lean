import DiffReview.Diff.Chunks
import DiffReview.Diff.Lines
import DiffReview.Service.Coherence

/-!
# DiffReview — what an accepted submission promises

An accepted body has a diff that parses and chunks, and its request hash is that of the
canonical request. The row of a job keeps all of it.
-/

namespace DiffReview

open Py Raise

/-- What `parse_submission` has checked or computed for the request of a job. -/
structure AcceptedRequest (env : Env) (diff : Str) (provider : ProviderName) (maxFindings : Nat)
    (hash : Str) (chunkCount : Nat) : Prop where
  chunked : ∃ files chunks, parseUnifiedDiff diff = .ok files ∧
    chunkFileDiffs files env.settings.chunkBytes = .ok chunks ∧ chunkCount = chunks.length
  requestHash : requestHash env.sha256 diff provider maxFindings = .ok hash

theorem orUnhandled_eq_ok {α : Type} {x : Except PyError α} {a : α} :
    orUnhandled x = .ok a ↔ x = .ok a := by
  cases x <;> simp [orUnhandled]

theorem parseOrReject_eq_ok {diff : Str} {files : List FileDiff} :
    parseOrReject diff = .ok files ↔ parseUnifiedDiff diff = .ok files := by
  unfold parseOrReject
  split <;> simp [*]

theorem parseSubmission_eq_ok {env : Env} {rawBody : List UInt8} {sub : ParsedSubmission}
    (h : parseSubmission env rawBody = .ok sub) :
    sub.rawBodyHash = env.sha256 rawBody ∧
      AcceptedRequest env sub.request.diff sub.request.provider sub.request.maxFindings
        sub.requestHash sub.chunks := by
  unfold parseSubmission at h
  obtain ⟨-, -, h⟩ := bind_eq_ok.mp h
  obtain ⟨payload, -, h⟩ := bind_eq_ok.mp h
  obtain ⟨request, -, h⟩ := bind_eq_ok.mp h
  obtain ⟨files, hfiles, h⟩ := bind_eq_ok.mp h
  obtain ⟨chunks, hchunks, h⟩ := bind_eq_ok.mp h
  obtain ⟨hash, hhash, h⟩ := bind_eq_ok.mp h
  obtain ⟨diffBytes, -, h⟩ := bind_eq_ok.mp h
  cases h
  exact ⟨rfl, ⟨files, chunks, parseOrReject_eq_ok.mp hfiles, orUnhandled_eq_ok.mp hchunks, rfl⟩,
    orUnhandled_eq_ok.mp hhash⟩

theorem Submitted.accepted {env : Env} {job : ReviewJob} (h : Submitted env job) :
    AcceptedRequest env job.diff job.provider job.maxFindings job.requestHash job.chunks := by
  obtain ⟨raw, sub, hsub, hsame⟩ := h
  rw [hsame.diff, hsame.provider, hsame.maxFindings, hsame.requestHash, hsame.chunks]
  exact (parseSubmission_eq_ok hsub).2

theorem AcceptedRequest.chunks_pos {env : Env} {diff hash : Str} {provider : ProviderName}
    {maxFindings chunkCount : Nat}
    (h : AcceptedRequest env diff provider maxFindings hash chunkCount) : 1 ≤ chunkCount := by
  obtain ⟨files, chunks, hfiles, hchunks, rfl⟩ := h.chunked
  exact chunkFileDiffs_length_pos hchunks (parseUnifiedDiff_ne_nil hfiles)

end DiffReview
