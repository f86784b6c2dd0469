import Mathlib
import CueIndex.Buffer

/-!
# Buffers as queues of bytes

Bytes enter a buffer at its end, a chunk at a time, and leave it at its front, as many as they are
asked to.  Of its past the buffer itself keeps no more than two counters, and a reading that is
resumed relies on no byte having been lost, repeated or reordered.  Here the past is kept beside it.

* **`ChunkBuffer.Carries`** — the buffer is the end of a stream, behind the bytes that were flushed.
  `Carries.push` and `Carries.flush` keep it, however many bytes a flush asks for.
* `Request`, `Answer`, `serve` — what can be asked of a buffer.
* `pushed`, `leaving`, `released` — the bytes that requests bring in, and those that they let go.
* `Carries.serve`, `flushed_serve`, `leaving_append_serve` — what one request does; `serveAll` and
  the lemmas on it — what requests in any number and order do.
* **`serveAll_faithful`** — every answer and every counter from the stream that was pushed.
-/

namespace CueIndex.ChunkBuffer

variable {buffer : ChunkBuffer} {stream : Bytes}

/-! ## The end of a stream -/

/-- **A buffer that the bytes of `stream` have been pushed into.** -/
structure Carries (buffer : ChunkBuffer) (stream : Bytes) : Prop where
  /-- Only bytes that have arrived have been flushed. -/
  flushed_le : buffer.flushed ≤ stream.length
  /-- All others are in the buffer. -/
  bytes_eq : buffer.bytes = stream.drop buffer.flushed

lemma carries_empty : ({} : ChunkBuffer).Carries [] := ⟨Nat.le_refl _, rfl⟩

lemma Carries.flushed_add_available (carries : buffer.Carries stream) :
    buffer.flushed + buffer.available = stream.length := by
  have := carries.flushed_le
  rw [available, carries.bytes_eq, List.length_drop]
  omega

/-- The bytes that were flushed and those in the buffer make up the stream. -/
lemma Carries.take_append (carries : buffer.Carries stream) :
    stream.take buffer.flushed ++ buffer.bytes = stream := by
  rw [carries.bytes_eq, List.take_append_drop]

lemma Carries.length_take (carries : buffer.Carries stream) :
    (stream.take buffer.flushed).length = buffer.flushed := by
  rw [List.length_take]
  exact Nat.min_eq_left carries.flushed_le

lemma Carries.push (carries : buffer.Carries stream) (chunk : Bytes) :
    (buffer.push chunk).Carries (stream ++ chunk) where
  flushed_le := by
    rw [List.length_append]
    exact Nat.le_add_right_of_le carries.flushed_le
  bytes_eq := by
    show buffer.bytes ++ chunk = (stream ++ chunk).drop buffer.flushed
    rw [List.drop_append_of_le_length carries.flushed_le, carries.bytes_eq]

/-- A flush that asks for more bytes than there are stops at the end of the stream. -/
lemma Carries.flush (carries : buffer.Carries stream) (n : ℕ) :
    (buffer.flush n).Carries stream where
  flushed_le := by
    have all := carries.flushed_add_available
    show buffer.flushed + min n buffer.available ≤ stream.length
    omega
  bytes_eq := by
    show buffer.bytes.drop n = stream.drop (buffer.flushed + min n buffer.available)
    rw [← List.drop_drop, ← carries.bytes_eq]
    -- a flush that stops early leaves no bytes, and the stream has none behind its end
    rcases Nat.le_total n buffer.available with inside | beyond
    · rw [Nat.min_eq_left inside]
    · rw [Nat.min_eq_right beyond, available, List.drop_length, List.drop_eq_nil_of_le beyond]

/-- A view shows the stream from the first byte that has not been flushed. -/
lemma Carries.view (carries : buffer.Carries stream) (n : ℕ) :
    buffer.view n = (stream.drop buffer.flushed).take (min n buffer.available) := by
  rw [ChunkBuffer.view, ← carries.bytes_eq, List.take_eq_take_iff, available]
  omega

/-- Two flushes remove as many bytes as one that asks for both, also where they stop early. -/
lemma flushCount_add (buffer : ChunkBuffer) (a b : ℕ) :
    buffer.flushCount a + (buffer.flush a).flushCount b = buffer.flushCount (a + b) := by
  have left := buffer.available_flush a
  unfold flushCount at left ⊢
  omega

lemma flush_flush (buffer : ChunkBuffer) (a b : ℕ) :
    (buffer.flush a).flush b = buffer.flush (a + b) := by
  rw [flush, flush, flush, ← flushCount_add, flush, List.drop_drop, Nat.add_assoc]

/-! ## Requests -/

/-- What its owner and a reading ask of a buffer. -/
inductive Request
  /-- A chunk arrives. -/
  | push (chunk : Bytes)
  /-- The first bytes are let go. -/
  | flush (n : ℕ)
  /-- The first bytes are looked at. -/
  | view (n : ℕ)
  /-- The last view is not looked at any more. -/
  | unview
  deriving DecidableEq, Repr

/-- What a buffer answers. -/
inductive Answer
  | done
  /-- How many bytes a flush has removed. -/
  | removed (count : ℕ)
  /-- The bytes of a view. -/
  | shown (bytes : Bytes)
  deriving DecidableEq, Repr

/-- The bytes that a request brings in. -/
def Request.chunk : Request → Bytes
  | .push chunk => chunk
  | .flush _ | .view _ | .unview => []

def Request.isPush : Request → Bool
  | .push _ => true
  | .flush _ | .view _ | .unview => false

/-- How many bytes an answer says have been removed. -/
def Answer.count : Answer → ℕ
  | .removed count => count
  | .done | .shown _ => 0

/-- The buffer after a request, and its answer. -/
def serve (buffer : ChunkBuffer) : Request → ChunkBuffer × Answer
  | .push chunk => (buffer.push chunk, .done)
  | .flush n => (buffer.flush n, .removed (buffer.flushCount n))
  | .view n => (buffer, .shown (buffer.view n))
  | .unview => (buffer, .done)

/-- The bytes that a request lets go: a flush lets go of what a view of as many bytes would show. -/
def leaving (buffer : ChunkBuffer) : Request → Bytes
  | .flush n => buffer.view n
  | .push _ | .view _ | .unview => []

lemma Carries.serve (carries : buffer.Carries stream) (request : Request) :
    (buffer.serve request).1.Carries (stream ++ request.chunk) := by
  cases request with
  | push chunk => exact carries.push chunk
  | flush n =>
      rw [Request.chunk, List.append_nil]
      exact carries.flush n
  | view | unview =>
      rw [Request.chunk, List.append_nil]
      exact carries

lemma flushed_serve (buffer : ChunkBuffer) (request : Request) :
    (buffer.serve request).1.flushed = buffer.flushed + (buffer.serve request).2.count := by
  cases request <;> rfl

lemma chunks_serve (buffer : ChunkBuffer) (request : Request) :
    (buffer.serve request).1.chunks = buffer.chunks + [request].countP Request.isPush := by
  cases request <;> rfl

/-- **No request loses, repeats or reorders bytes.**  What it lets go and what is in the buffer
behind it are what was there before and what it brings in. -/
theorem leaving_append_serve (buffer : ChunkBuffer) (request : Request) :
    buffer.leaving request ++ (buffer.serve request).1.bytes = buffer.bytes ++ request.chunk := by
  cases request with
  | push chunk => rfl
  | flush n =>
      rw [Request.chunk, List.append_nil]
      exact List.take_append_drop n buffer.bytes
  | view | unview => exact (List.append_nil _).symm

/-! ## Any number of requests -/

/-- The buffer after requests, one after the other, and its answers. -/
def serveAll (buffer : ChunkBuffer) : List Request → ChunkBuffer × List Answer
  | [] => (buffer, [])
  | request :: later =>
    let (next, answer) := buffer.serve request
    let (last, answers) := next.serveAll later
    (last, answer :: answers)

/-- The stream that requests bring in. -/
def pushed (requests : List Request) : Bytes := requests.flatMap Request.chunk

/-- The bytes that requests let go, in the order in which they leave. -/
def released (buffer : ChunkBuffer) : List Request → Bytes
  | [] => []
  | request :: later => buffer.leaving request ++ (buffer.serve request).1.released later

lemma Carries.serveAll (carries : buffer.Carries stream) (requests : List Request) :
    (buffer.serveAll requests).1.Carries (stream ++ pushed requests) := by
  induction requests generalizing buffer stream with
  | nil =>
      rw [pushed, List.flatMap_nil, List.append_nil]
      exact carries
  | cons request later ih =>
      have next := ih (carries.serve request)
      rw [List.append_assoc] at next
      exact next

/-- Every request is answered by the buffer that the requests before it have left. -/
lemma answer_serveAll (buffer : ChunkBuffer) (requests later : List Request)
    (request : Request) :
    (buffer.serveAll (requests ++ request :: later)).2[requests.length]?
      = some ((buffer.serveAll requests).1.serve request).2 := by
  induction requests generalizing buffer with
  | nil => rfl
  | cons first requests ih => exact ih (buffer.serve first).1

/-- The counter of a buffer grows by what it answers to flushes. -/
lemma flushed_serveAll (buffer : ChunkBuffer) (requests : List Request) :
    (buffer.serveAll requests).1.flushed
      = buffer.flushed + ((buffer.serveAll requests).2.map Answer.count).sum := by
  induction requests generalizing buffer with
  | nil => rfl
  | cons request later ih =>
      rw [serveAll, ih, flushed_serve, List.map_cons, List.sum_cons, Nat.add_assoc]

lemma chunks_serveAll (buffer : ChunkBuffer) (requests : List Request) :
    (buffer.serveAll requests).1.chunks = buffer.chunks + requests.countP Request.isPush := by
  induction requests generalizing buffer with
  | nil => rfl
  | cons request later ih =>
      rw [serveAll, ih, chunks_serve, Nat.add_assoc, ← List.countP_append, List.singleton_append]

/-- **Requests lose, repeat or reorder no bytes**, in whatever order they come. -/
theorem released_append_serveAll (buffer : ChunkBuffer) (requests : List Request) :
    buffer.released requests ++ (buffer.serveAll requests).1.bytes
      = buffer.bytes ++ pushed requests := by
  induction requests generalizing buffer with
  | nil => exact (List.append_nil _).symm
  | cons request later ih =>
      calc buffer.leaving request ++ (buffer.serve request).1.released later
              ++ ((buffer.serve request).1.serveAll later).1.bytes
          = buffer.leaving request ++ ((buffer.serve request).1.bytes ++ pushed later) := by
            rw [List.append_assoc, ih]
        _ = buffer.bytes ++ request.chunk ++ pushed later := by
            rw [← List.append_assoc, leaving_append_serve]
        _ = buffer.bytes ++ pushed (request :: later) := by
            rw [List.append_assoc, pushed, pushed, List.flatMap_cons]

/-! ## All of it together -/

/-- **A buffer is a queue of bytes.**  Whatever has been asked of a new buffer, with `stream` the
bytes that have been pushed: its counter of flushed bytes is the sum of the counts that it has
answered, and never more than the stream is long; all other bytes of the stream are there; every
chunk has been counted.  What is asked next is answered by this buffer, whatever is asked later: a
view shows the stream from the first byte that has not been flushed, and leaves the buffer as it is;
a flush answers how many of the bytes it asks for are there, and two flushes are one of as many
bytes as both.  The bytes that have left, in the order in which they left, followed by those that
are there are the stream. -/
theorem serveAll_faithful (requests : List Request) :
    let buffer := (serveAll {} requests).1
    let stream := pushed requests
    (buffer.flushed = ((serveAll {} requests).2.map Answer.count).sum ∧
      buffer.flushed ≤ stream.length ∧
      buffer.available = stream.length - buffer.flushed ∧
      buffer.chunks = requests.countP Request.isPush) ∧
    (∀ request later, (serveAll {} (requests ++ request :: later)).2[requests.length]?
      = some (buffer.serve request).2) ∧
    (∀ n, buffer.serve (.view n)
      = (buffer, .shown ((stream.drop buffer.flushed).take (min n buffer.available)))) ∧
    (∀ n, buffer.serve (.flush n) = (buffer.flush n, .removed (min n buffer.available))) ∧
    (∀ a b, (buffer.flush a).flush b = buffer.flush (a + b)) ∧
    released {} requests ++ buffer.bytes = stream := by
  intro buffer stream
  have carries : buffer.Carries stream := carries_empty.serveAll requests
  have flushed := flushed_serveAll {} requests
  have chunks := chunks_serveAll {} requests
  have conserved := released_append_serveAll {} requests
  have all := carries.flushed_add_available
  rw [Nat.zero_add] at flushed chunks
  refine ⟨⟨flushed, carries.flushed_le, by omega, chunks⟩,
    fun request later => answer_serveAll {} requests later request, fun n => ?_, fun n => rfl,
    buffer.flush_flush, conserved⟩
  rw [serve, carries.view]

end CueIndex.ChunkBuffer
