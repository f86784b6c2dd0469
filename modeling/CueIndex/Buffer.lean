import CueIndex.Bytes.Basic

/-!
# Sources of bytes

A reading of the stream sees the bytes through a source: it asks how many are there and for a view
of the first of them.

* `ByteSource` — any source, also one whose view does not keep what its count promises.
* `ByteSource.ofBytes` — the source that shows exactly the given bytes.
* `ChunkBuffer` — unread bytes that grow at the end as chunks arrive and shrink at the front as
  bytes are flushed.
-/

namespace CueIndex

/-! ## Sources -/

/-- What a reading can ask.  Nothing ties the two answers together: whether a source keeps its word
is for the reading to check. -/
structure ByteSource where
  /-- How many bytes the source says are there. -/
  available : Nat
  /-- The first bytes, as many as asked for or fewer. -/
  view : Nat → Bytes

namespace ByteSource

/-- The source of exactly the given bytes. -/
def ofBytes (bytes : Bytes) : ByteSource where
  available := bytes.length
  view n := bytes.take n

@[simp] theorem available_ofBytes (bytes : Bytes) : (ofBytes bytes).available = bytes.length := rfl

@[simp] theorem view_ofBytes (bytes : Bytes) (n : Nat) :
    (ofBytes bytes).view n = bytes.take n := rfl

end ByteSource

/-! ## Chunk buffers -/

/-- Unread bytes, and how many bytes and chunks have passed through. -/
structure ChunkBuffer where
  /-- The bytes pushed and not yet flushed. -/
  bytes : Bytes := []
  /-- How many bytes have been flushed. -/
  flushed : Nat := 0
  /-- How many chunks have been pushed, empty ones included. -/
  chunks : Nat := 0
  deriving DecidableEq, Repr, Inhabited

namespace ChunkBuffer

/-- How many bytes are there. -/
def available (buffer : ChunkBuffer) : Nat := buffer.bytes.length

/-- The first `n` bytes, or all if there are fewer. -/
def view (buffer : ChunkBuffer) (n : Nat) : Bytes := buffer.bytes.take n

/-- The buffer with a chunk at its end. -/
def push (buffer : ChunkBuffer) (chunk : Bytes) : ChunkBuffer :=
  { buffer with bytes := buffer.bytes ++ chunk, chunks := buffer.chunks + 1 }

/-- How many bytes a flush of `n` removes. -/
def flushCount (buffer : ChunkBuffer) (n : Nat) : Nat := min n buffer.available

/-- The buffer without its first `n` bytes, or empty if there are fewer. -/
def flush (buffer : ChunkBuffer) (n : Nat) : ChunkBuffer :=
  { buffer with bytes := buffer.bytes.drop n, flushed := buffer.flushed + buffer.flushCount n }

/-- What a reading sees of the buffer. -/
def source (buffer : ChunkBuffer) : ByteSource := .ofBytes buffer.bytes

@[simp] theorem available_push (buffer : ChunkBuffer) (chunk : Bytes) :
    (buffer.push chunk).available = buffer.available + chunk.length := by
  simp [available, push]

/-- A flush removes as many bytes as it counts. -/
theorem available_flush (buffer : ChunkBuffer) (n : Nat) :
    (buffer.flush n).available + buffer.flushCount n = buffer.available := by
  simp only [available, flush, flushCount, List.length_drop]
  omega

end ChunkBuffer

end CueIndex
