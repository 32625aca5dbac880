import DiffReview.Lib.Blocks
import DiffReview.Lib.Raise
import DiffReview.Spec.Chunker

/-!
# DiffReview — what chunking keeps

Chunking regroups the files and nothing else: the chunks, laid end to end, are the files
in their order, and no file list gives no chunk unless it is empty.
-/

namespace DiffReview

open Py Raise Blocks

theorem ChunkScan.flush_files (st : ChunkScan) :
    st.flush.chunks.flatMap (·.files) ++ st.flush.current
      = st.chunks.flatMap (·.files) ++ st.current := by
  simp [ChunkScan.flush]

/-- One turn of the loop adds its file behind the files already taken. -/
theorem chunkFile_files {maximumBytes : Int} {st st' : ChunkScan} {file : FileDiff}
    (h : chunkFile maximumBytes st file = .ok st') :
    st'.chunks.flatMap (·.files) ++ st'.current
      = st.chunks.flatMap (·.files) ++ st.current ++ [file] := by
  unfold chunkFile at h
  obtain ⟨size, -, h⟩ := bind_eq_ok.mp h
  -- the flush before an overflowing file
  set mid := if st.current ≠ [] && st.currentSize + size > maximumBytes then st.flush else st
    with hmid
  have hfiles : mid.chunks.flatMap (·.files) ++ mid.current
      = st.chunks.flatMap (·.files) ++ st.current := by
    rw [hmid]
    split
    · exact st.flush_files
    · rfl
  rw [← hfiles]
  simp only at h
  split at h
  · cases h
    by_cases hcur : mid.current = []
    · simp [hcur]
    · simp [hcur, ChunkScan.flush]
  · cases h
    simp

theorem chunkFileDiffs_files {files : List FileDiff} {maximumBytes : Int}
    {chunks : List ReviewChunk} (h : chunkFileDiffs files maximumBytes = .ok chunks) :
    chunks.flatMap (·.files) = files := by
  unfold chunkFileDiffs at h
  obtain ⟨st, hst, h⟩ := bind_eq_ok.mp h
  have hfiles := foldlM_invariant (P := fun pre st => st.chunks.flatMap (·.files) ++ st.current = pre)
    hst rfl fun pre file c c' _ hpre hstep => by rw [chunkFile_files hstep, hpre]
  cases h
  split
  · have hflush := st.flush_files
    rw [hfiles] at hflush
    simpa [ChunkScan.flush] using hflush
  · next hcur =>
    have hnil : st.current = [] := by simpa using hcur
    simpa [hnil] using hfiles

theorem chunkFileDiffs_length_pos {files : List FileDiff} {maximumBytes : Int}
    {chunks : List ReviewChunk} (h : chunkFileDiffs files maximumBytes = .ok chunks)
    (hne : files ≠ []) : 1 ≤ chunks.length := by
  have hfiles := chunkFileDiffs_files h
  cases chunks with
  | nil => exact absurd hfiles.symm hne
  | cons c cs => simp

/-! ## The cut -/

/-- The size of a file whose text can be encoded. -/
def FileDiff.bytes (f : FileDiff) : Nat := f.byteSize.toOption.getD 0

theorem FileDiff.bytes_eq {f : FileDiff} {n : Nat} (h : f.byteSize = .ok n) : f.bytes = n := by
  rw [FileDiff.bytes, h]
  rfl

theorem FileDiff.exists_byteSize_iff {f : FileDiff} :
    (∃ n, f.byteSize = .ok n) ↔ ∀ c ∈ f.raw, isSurrogate c = false := by
  rw [← exists_encode_iff]
  constructor
  · rintro ⟨n, hn⟩
    obtain ⟨bytes, hbytes, -⟩ := map_eq_ok.mp hn
    exact ⟨bytes, orRaise_eq_ok.mp hbytes⟩
  · rintro ⟨bytes, hbytes⟩
    exact ⟨bytes.length, map_eq_ok.mpr ⟨bytes, orRaise_eq_ok.mpr hbytes, rfl⟩⟩

theorem byteSize_eq_bytes {f : FileDiff} (h : ∃ n, f.byteSize = .ok n) :
    f.byteSize = .ok f.bytes := by
  obtain ⟨n, hn⟩ := h
  rw [hn, FileDiff.bytes_eq hn]

/-- A chunk measures what its files do. -/
theorem ReviewChunk.byteSize_eq {chunk : ReviewChunk}
    (h : ∀ f ∈ chunk.files, ∃ n, f.byteSize = .ok n) :
    chunk.byteSize = .ok (total FileDiff.bytes chunk.files) := by
  refine map_eq_ok.mpr ⟨chunk.files.map FileDiff.bytes, mapM_eq_ok.mpr ?_, rfl⟩
  rw [List.forall₂_map_right_iff]
  exact List.forall₂_same.mpr fun f hf => byteSize_eq_bytes (h f hf)

/-- The chunks once the loop has ended: what is left of `current` is a chunk. -/
def ChunkScan.close (st : ChunkScan) : List ReviewChunk :=
  (if st.current ≠ [] then st.flush else st).chunks

/-- One turn of the loop, in terms of the size of its file. -/
theorem chunkFile_eq {maximumBytes : Int} {f : FileDiff} {n : Nat} (hsize : f.byteSize = .ok n)
    (chunks : List ReviewChunk) (current : List FileDiff) (size : Nat) :
    chunkFile maximumBytes ⟨chunks, current, size⟩ f = .ok (
      if current ≠ [] ∧ maximumBytes < size + n then
        if maximumBytes < n then ⟨chunks ++ [⟨current⟩] ++ [⟨[f]⟩], [], 0⟩
        else ⟨chunks ++ [⟨current⟩], [f], n⟩
      else if maximumBytes < n then ⟨chunks ++ [⟨[f]⟩], [], size⟩
      else ⟨chunks, current ++ [f], size + n⟩) := by
  unfold chunkFile
  rw [hsize]
  by_cases hcur : current = []
  · by_cases hlarge : maximumBytes < n
    · simp [hcur, hlarge, bind, Except.bind, pure, Except.pure]
    · simp [hcur, hlarge, bind, Except.bind, pure, Except.pure]
  · by_cases hover : maximumBytes < size + n
    · by_cases hlarge : maximumBytes < n
      · simp [hcur, hover, hlarge, ChunkScan.flush, bind, Except.bind, pure, Except.pure]
      · simp [hcur, hover, hlarge, ChunkScan.flush, bind, Except.bind, pure, Except.pure]
    · -- where the file fits on top of others it is not above the limit itself
      have hlarge : ¬maximumBytes < n := by omega
      simp [hover, hlarge, bind, Except.bind, pure, Except.pure]

/-- The loop over the files fills its chunks greedily. -/
theorem foldlM_chunkFile (maximumBytes : Int) {files : List FileDiff}
    (hfiles : ∀ f ∈ files, ∃ n, f.byteSize = .ok n) (chunks : List ReviewChunk)
    (current : List FileDiff) :
    ∃ st, files.foldlM (chunkFile maximumBytes)
        ⟨chunks, current, total FileDiff.bytes current⟩ = .ok st ∧
      st.close = chunks ++ (greedy FileDiff.bytes maximumBytes current files).map ReviewChunk.mk := by
  induction files generalizing chunks current with
  | nil =>
    refine ⟨_, rfl, ?_⟩
    cases current <;> simp [ChunkScan.close, ChunkScan.flush, greedy]
  | cons f files ih =>
    obtain ⟨hf, hrest⟩ := List.forall_mem_cons.mp hfiles
    rw [List.foldlM_cons, chunkFile_eq (byteSize_eq_bytes hf), greedy_cons]
    by_cases hflush : current ≠ [] ∧ maximumBytes < total FileDiff.bytes current + f.bytes
    · rw [if_pos hflush, if_pos hflush]
      by_cases hlarge : maximumBytes < f.bytes
      · obtain ⟨st, hst, hclose⟩ := ih hrest (chunks ++ [⟨current⟩] ++ [⟨[f]⟩]) []
        rw [if_pos hlarge, greedy_large hlarge]
        exact ⟨st, hst, by simpa using hclose⟩
      · obtain ⟨st, hst, hclose⟩ := ih hrest (chunks ++ [⟨current⟩]) [f]
        rw [total_singleton] at hst
        rw [if_neg hlarge]
        exact ⟨st, hst, by simpa using hclose⟩
    · rw [if_neg hflush, if_neg hflush]
      by_cases hlarge : maximumBytes < f.bytes
      · have hcur : current = [] := by
          by_contra hne
          exact hflush ⟨hne, by omega⟩
        obtain ⟨st, hst, hclose⟩ := ih hrest (chunks ++ [⟨[f]⟩]) []
        rw [if_pos hlarge, hcur, List.nil_append, greedy_large hlarge]
        exact ⟨st, hst, by simpa using hclose⟩
      · obtain ⟨st, hst, hclose⟩ := ih hrest chunks (current ++ [f])
        rw [total_append, total_singleton] at hst
        rw [if_neg hlarge]
        exact ⟨st, hst, hclose⟩

theorem chunkFileDiffs_eq (maximumBytes : Int) {files : List FileDiff}
    (hfiles : ∀ f ∈ files, ∃ n, f.byteSize = .ok n) : chunkFileDiffs files maximumBytes
      = .ok ((greedy FileDiff.bytes maximumBytes [] files).map ReviewChunk.mk) := by
  obtain ⟨st, hst, hclose⟩ := foldlM_chunkFile maximumBytes hfiles [] []
  unfold chunkFileDiffs
  rw [show (⟨[], [], 0⟩ : ChunkScan) = ⟨[], [], total FileDiff.bytes []⟩ from rfl, hst]
  exact congrArg Except.ok hclose

/-- Every file of a chunked list was measured. -/
theorem exists_byteSize_of_chunkFileDiffs {maximumBytes : Int} {files : List FileDiff}
    {chunks : List ReviewChunk} (h : chunkFileDiffs files maximumBytes = .ok chunks) :
    ∀ f ∈ files, ∃ n, f.byteSize = .ok n := by
  obtain ⟨st, hst, -⟩ := bind_eq_ok.mp h
  refine foldlM_invariant (P := fun pre _ => ∀ f ∈ pre, ∃ n, f.byteSize = .ok n) hst (by simp) ?_
  intro pre f c c' _ hpre hstep
  obtain ⟨n, hn, -⟩ := bind_eq_ok.mp hstep
  refine List.forall_mem_append.mpr ⟨hpre, ?_⟩
  exact List.forall_mem_singleton.mpr ⟨n, hn⟩

/-! ## What a chunking promises -/

/-- The chunks keep the files in order, none is empty, every chunk of two or more files is
within the limit and a file above it is alone. -/
structure IsChunking (maximumBytes : Int) (files : List FileDiff) (chunks : List ReviewChunk) :
    Prop where
  files_eq : chunks.flatMap (·.files) = files
  ne_nil : ∀ chunk ∈ chunks, chunk.files ≠ []
  within : ∀ chunk ∈ chunks, 2 ≤ chunk.files.length →
    ∃ size : Nat, chunk.byteSize = .ok size ∧ size ≤ maximumBytes
  alone : ∀ chunk ∈ chunks, ∀ f ∈ chunk.files, ∀ size : Nat, f.byteSize = .ok size →
    maximumBytes < size → chunk.files = [f]

/-- `chunk_file_diffs` returns such chunks, as few as there can be. -/
def ChunksMinimally (maximumBytes : Int) (files : List FileDiff) : Prop :=
  ∃ chunks, chunkFileDiffs files maximumBytes = .ok chunks ∧ IsChunking maximumBytes files chunks ∧
    ∀ other, IsChunking maximumBytes files other → chunks.length ≤ other.length

section Chunking

variable {maximumBytes : Int} {files : List FileDiff}
  (hfiles : ∀ f ∈ files, ∃ n, f.byteSize = .ok n)
include hfiles

/-- Over files that can be measured a chunking is a cut of their list. -/
theorem isChunking_iff {chunks : List ReviewChunk} : IsChunking maximumBytes files chunks ↔
    IsCut FileDiff.bytes maximumBytes files (chunks.map (·.files)) := by
  have hflat : (chunks.map (·.files)).flatten = chunks.flatMap (·.files) := List.flatMap_def.symm
  have hmem : chunks.flatMap (·.files) = files → ∀ chunk ∈ chunks, ∀ f ∈ chunk.files,
      ∃ n, f.byteSize = .ok n := by
    intro heq chunk hchunk f hf
    exact hfiles f (heq ▸ List.mem_flatMap.mpr ⟨chunk, hchunk, hf⟩)
  constructor
  · rintro ⟨heq, hne, hwithin, halone⟩
    refine ⟨hflat.trans heq, List.forall_mem_map.mpr hne, List.forall_mem_map.mpr ?_,
      List.forall_mem_map.mpr ?_⟩
    · intro chunk hchunk hlength
      obtain ⟨size, hsize, hle⟩ := hwithin chunk hchunk hlength
      rw [ReviewChunk.byteSize_eq (hmem heq chunk hchunk)] at hsize
      cases hsize
      exact hle
    · intro chunk hchunk f hf hlarge
      exact halone chunk hchunk f hf f.bytes (byteSize_eq_bytes (hmem heq chunk hchunk f hf)) hlarge
  · rintro ⟨heq, hne, hfits, halone⟩
    have heq : chunks.flatMap (·.files) = files := hflat.symm.trans heq
    refine ⟨heq, fun chunk hchunk => hne _ (List.mem_map_of_mem hchunk), ?_, ?_⟩
    · intro chunk hchunk hlength
      refine ⟨_, ReviewChunk.byteSize_eq (hmem heq chunk hchunk), ?_⟩
      exact hfits _ (List.mem_map_of_mem hchunk) hlength
    · intro chunk hchunk f hf size hsize hlarge
      refine halone _ (List.mem_map_of_mem hchunk) f hf ?_
      rwa [FileDiff.bytes_eq hsize]

theorem chunksMinimally : ChunksMinimally maximumBytes files := by
  have hfits : Fits FileDiff.bytes maximumBytes [] := fun h => by simp at h
  have hcut := greedy_isCut hfits files
  have hmap : ((greedy FileDiff.bytes maximumBytes [] files).map ReviewChunk.mk).map (·.files)
      = greedy FileDiff.bytes maximumBytes [] files := by
    rw [List.map_map]
    exact List.map_id _
  refine ⟨_, chunkFileDiffs_eq maximumBytes hfiles, (isChunking_iff hfiles).mpr ?_,
    fun other hother => ?_⟩
  · rw [hmap]
    exact hcut
  · have hle := length_greedy_le ((isChunking_iff hfiles).mp hother)
    rwa [List.length_map] at hle ⊢

end Chunking

/-- Files are chunked as promised exactly when their texts can be encoded. -/
theorem chunksMinimally_iff (maximumBytes : Int) (files : List FileDiff) :
    ChunksMinimally maximumBytes files ↔ ∀ f ∈ files, ∀ c ∈ f.raw, isSurrogate c = false := by
  constructor
  · rintro ⟨chunks, hchunks, -, -⟩ f hf
    exact FileDiff.exists_byteSize_iff.mp (exists_byteSize_of_chunkFileDiffs hchunks f hf)
  · intro hplain
    exact chunksMinimally fun f hf => FileDiff.exists_byteSize_iff.mpr (hplain f hf)

/-- A file whose text holds the lone surrogate U+D800 is not chunked at all. -/
theorem surrogate_not_chunked : ¬ChunksMinimally 65536 [⟨lit "x", [0xd800], []⟩] := by
  rintro ⟨chunks, hchunks, -, -⟩
  obtain ⟨n, hn⟩ := exists_byteSize_of_chunkFileDiffs hchunks _ List.mem_cons_self
  have hnone : (FileDiff.byteSize ⟨lit "x", [0xd800], []⟩).toOption = none := by decide
  rw [hn] at hnone
  cases hnone

end DiffReview
