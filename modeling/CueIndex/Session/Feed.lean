import CueIndex.Session.Step

/-!
# Feeds

A feed is a session together with the buffer that it reads from, so that bytes can arrive in pieces
and can be let go once they have been taken in.

* `Feed.push`, `Feed.step`, `Feed.compact` — the three things that happen to a feed.
* `Feed.letGo` — a compaction that keeps every byte not yet taken in.
* `Feed.run` — a whole run of deliveries, up to the one that completes the index.
* `Feed.position` — how far into the stream the session has come, which no compaction of bytes that
  have been taken in changes.
-/

namespace CueIndex

/-- A session and the buffer that it reads from. -/
structure Feed where
  session : Session := {}
  buffer : ChunkBuffer := {}
  deriving DecidableEq, Repr, Inhabited

/-- A chunk, and how many bytes at most are let go once it has been read. -/
structure Delivery where
  chunk : Bytes
  slack : Nat := 0
  deriving DecidableEq, Repr, Inhabited

namespace Feed

/-! ## Single operations -/

/-- A chunk arrives. -/
def push (feed : Feed) (chunk : Bytes) : Feed := { feed with buffer := feed.buffer.push chunk }

/-- The session reads what is in the buffer. -/
def step (feed : Feed) : Feed × Step :=
  let stepped := feed.session.step feed.buffer.source
  ({ feed with session := stepped.session }, stepped)

/-- The first `n` bytes of the buffer are let go, and the session is told. -/
def compact (feed : Feed) (n : Nat) : Feed where
  session := feed.session.noteFlush n
  buffer := feed.buffer.flush n

/-- At most `slack` of the bytes that have been taken in are let go. -/
def letGo (feed : Feed) (slack : Nat) : Feed := feed.compact (min slack feed.session.resume)

/-- Where in the stream the next element starts. -/
def position (feed : Feed) : Nat := feed.buffer.flushed + feed.session.resume

/-- Letting go of bytes that have been taken in leaves the position in the stream as it is. -/
theorem position_compact {feed : Feed} {n : Nat} (behind : n ≤ feed.session.resume)
    (inside : n ≤ feed.buffer.available) : (feed.compact n).position = feed.position := by
  simp only [position, compact, ChunkBuffer.flush, ChunkBuffer.flushCount, Session.noteFlush,
    Nat.min_eq_left inside]
  omega

/-- A compaction that lets go of no byte still to be read leaves the position as it is. -/
theorem position_letGo {feed : Feed} (inside : feed.session.resume ≤ feed.buffer.available)
    (slack : Nat) : (feed.letGo slack).position = feed.position :=
  position_compact (Nat.min_le_right _ _) (Nat.le_trans (Nat.min_le_right _ _) inside)

/-! ## Runs -/

/-- Deliver chunks one after the other, reading after each, until the index is complete.  The result
holds what every reading led to. -/
def run (feed : Feed) : List Delivery → Feed × List Step
  | [] => (feed, [])
  | delivery :: later =>
    let (fed, stepped) := (feed.push delivery.chunk).step
    match stepped.outcome with
    | .complete => (fed, [stepped])
    | _ =>
      let (last, steps) := (fed.letGo delivery.slack).run later
      (last, stepped :: steps)

end Feed

end CueIndex
