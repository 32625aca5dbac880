import DiffReview.Spec.Parser

/-!
# DiffReview — the file-boundary chunker

`app/diff/chunker.py`. `ChunkScan` holds the loop variables of `chunk_file_diffs`.
-/

namespace DiffReview

structure ReviewChunk where
  files : List FileDiff
deriving DecidableEq, Repr

/-- `"".join(file.raw for file in self.files)` -/
def ReviewChunk.raw (chunk : ReviewChunk) : Py.Str := chunk.files.flatMap FileDiff.raw

/-- `sum(file.byte_size for file in self.files)` -/
def ReviewChunk.byteSize (chunk : ReviewChunk) : Except PyError Nat :=
  (chunk.files.mapM FileDiff.byteSize).map List.sum

structure ChunkScan where
  chunks : List ReviewChunk
  current : List FileDiff
  currentSize : Nat
deriving DecidableEq, Repr

def ChunkScan.flush (st : ChunkScan) : ChunkScan := ⟨st.chunks ++ [⟨st.current⟩], [], 0⟩

def chunkFile (maximumBytes : Int) (st : ChunkScan) (file : FileDiff) :
    Except PyError ChunkScan := do
  let size ← file.byteSize
  let st := if st.current ≠ [] && st.currentSize + size > maximumBytes then st.flush else st
  if size > maximumBytes then
    let st := if st.current ≠ [] then st.flush else st
    return { st with chunks := st.chunks ++ [⟨[file]⟩] }
  return { st with current := st.current ++ [file], currentSize := st.currentSize + size }

def chunkFileDiffs (files : List FileDiff) (maximumBytes : Int) :
    Except PyError (List ReviewChunk) := do
  let st ← files.foldlM (chunkFile maximumBytes) ⟨[], [], 0⟩
  return (if st.current ≠ [] then st.flush else st).chunks

end DiffReview
