import CueIndex.Bytes.Basic

/-!
# Chunks

A byte string cut into pieces of one size, the last of which may be shorter.

* `Bytes.chunks` — the pieces.  `Bytes.flatten_chunks` says that they make up the byte string, and
  `Bytes.length_le_of_mem_chunks` that none is longer than asked for.
-/

namespace CueIndex.Bytes

/-- The pieces of a byte string, each but the last `size` bytes long.  There are none of size
zero. -/
def chunks (size : Nat) (bytes : Bytes) : List Bytes :=
  if size = 0 ∨ bytes.isEmpty then []
  else bytes.take size :: chunks size (bytes.drop size)
termination_by bytes.length
decreasing_by
  next h =>
    cases bytes with
    | nil => simp at h
    | cons b rest => simp only [List.length_drop, List.length_cons]; omega

theorem flatten_chunks {size : Nat} (pos : 0 < size) (bytes : Bytes) :
    (chunks size bytes).flatten = bytes := by
  fun_induction chunks size bytes with
  | case1 bytes h =>
    have : bytes = [] := by simpa [Nat.ne_of_gt pos] using h
    simp [this]
  | case2 bytes h ih => simp [ih]

theorem length_le_of_mem_chunks {size : Nat} {bytes piece : Bytes}
    (mem : piece ∈ chunks size bytes) : piece.length ≤ size := by
  fun_induction chunks size bytes with
  | case1 bytes h => cases mem
  | case2 bytes h ih =>
    rcases List.mem_cons.1 mem with rfl | mem
    · exact List.length_take_le _ _
    · exact ih mem

end CueIndex.Bytes
