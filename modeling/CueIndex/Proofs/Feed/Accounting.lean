import Mathlib
import CueIndex.Bytes.Cursor
import CueIndex.Proofs.Feed.History

/-!
# Accounting for every byte

A session counts bytes from the last signature element, the buffer counts bytes that were let go,
and the two counters are never compared.  Here they are: whatever has happened to a feed, both
describe the same place in the stream, and the positions that the session keeps are those of
elements that stand in the stream.

* `Feed.Accounted` — what the counters and positions of a feed mean in the stream.
* **`history_accounted`** — they mean it in every history.
-/

namespace CueIndex.Feed

/-- **What the counters and positions of a feed mean** in the stream that has arrived, given the
elements that were met. -/
structure Accounted (feed : Feed) (stream : Bytes) (log : List Meeting) : Prop where
  /-- The next element starts in what has arrived, or at its end. -/
  inside : feed.position ≤ stream.length
  /-- The session counts the bytes from the last signature element to the next element. -/
  counted : feed.session.consumed + origin log = feed.position
  /-- A call does not move the session back. -/
  forward : feed.position ≤ feed.step.1.position
  /-- A call has the bytes of every element that it takes in, and its counter has room for them. -/
  advances : ∀ m ∈ feed.meetings, m.kind? ≠ some .cluster →
    feed.buffer.flushed ≤ m.place ∧
    ((Cursor.ofBytes feed.buffer.bytes (m.place - feed.buffer.flushed)).advance?
      m.header.advance).isSome = true ∧
    m.visit.consumed + m.header.advance < UInt64.size ∧
    m.visit.consumed + m.header.length < UInt64.size
  /-- The segment's position is where the last segment element stands, counted from the signature
  element before it, and its payload starts behind its header. -/
  segment : ∀ before m after, log = before ++ m :: after → m.kind? = some .segment →
    (∀ other ∈ after, other.kind? ≠ some .segment) →
    feed.session.info.segmentOffset + origin before = m.place ∧
    ∃ header, decodeHeader (stream.drop m.place) = .ok header ∧ header.id = Kind.segment.id ∧
      feed.session.info.segmentDataOffset = feed.session.info.segmentOffset + header.length
  /-- The seek head's position is where the last seek head element stands, counted likewise. -/
  seekHead : ∀ before m after, log = before ++ m :: after → m.kind? = some .seekHead →
    (∀ other ∈ after, other.kind? ≠ some .seekHead) →
    feed.session.info.seekHeadOffset + origin before = m.place ∧
    ∃ header, decodeHeader (stream.drop m.place) = .ok header ∧ header.id = Kind.seekHead.id

variable {feed : Feed} {stream : Bytes} {log : List Meeting}

namespace History

/-- An element that the next call meets has its place. -/
lemma placed_of_mem (history : History feed stream log) {m : Meeting}
    (among : m ∈ feed.meetings) : ∃ before, Session.Placed stream before m := by
  obtain ⟨before, after, split⟩ := List.append_of_mem among
  have met := history.step.ledger.met (log ++ before) m after
  rw [split, List.append_assoc] at met
  exact ⟨_, met rfl⟩

lemma forward (history : History feed stream log) : feed.position ≤ feed.step.1.position :=
  Nat.add_le_add_left (Session.Calls.resume_le feed.calls_step history.phased) _

/-- The bytes of an element that the next call takes in are in the buffer. -/
lemma isSome_advance? (history : History feed stream log) {m : Meeting}
    (among : m ∈ feed.meetings) (takenIn : m.place + m.header.advance ≤ stream.length) :
    feed.buffer.flushed ≤ m.place ∧
      ((Cursor.ofBytes feed.buffer.bytes (m.place - feed.buffer.flushed)).advance?
        m.header.advance).isSome = true := by
  have behind : feed.position ≤ m.place := Meeting.le_of_mem_listFrom among
  have flushed : feed.buffer.flushed ≤ feed.position := Nat.le_add_right _ _
  have buffered := congrArg List.length history.holds.buffered
  rw [List.length_drop] at buffered
  refine ⟨Nat.le_trans flushed behind, ?_⟩
  rw [← Option.ne_none_iff_isSome, Ne, Cursor.advance?_eq_none_iff, Cursor.ofBytes,
    Cursor.remaining, List.length_drop]
  omega

end History

/-- **No byte is lost or counted twice.**  In every history of a feed over fewer than `2 ^ 64`
bytes, its place in the stream is the count of its session added to the start of the last signature
element; calls only move it forward, over elements whose bytes are there; and the positions that the
session keeps are those of the last segment and the last seek head. -/
theorem history_accounted (history : History feed stream log)
    (short : stream.length < UInt64.size) : feed.Accounted stream log where
  inside := history.holds.position_le
  counted := history.ledger.counted
  forward := history.forward
  advances := by
    intro m among taken
    obtain ⟨before, placed⟩ := history.placed_of_mem among
    have counted := placed.counted
    have takenIn := placed.inside.resolve_left taken
    have header := (le_of_decodeHeader placed.decoded).2
    rw [List.length_drop] at header
    obtain ⟨flushed, advances⟩ := history.isSome_advance? among takenIn
    exact ⟨flushed, advances, by omega, by omega⟩
  segment := by
    intro before m after split isSegment isLast
    obtain ⟨offset, data⟩ := history.ledger.segment m ⟨before, after, split, isSegment, isLast⟩
    have placed := history.ledger.met before m after split
    rw [data, offset]
    refine ⟨placed.counted, m.header, placed.decoded, ?_, rfl⟩
    exact (Kind.ofId?_eq_some_iff.1 isSegment).symm
  seekHead := by
    intro before m after split isSeekHead isLast
    have offset := history.ledger.seekHead m ⟨before, after, split, isSeekHead, isLast⟩
    have placed := history.ledger.met before m after split
    refine ⟨by rw [offset]; exact placed.counted, m.header, placed.decoded, ?_⟩
    exact (Kind.ofId?_eq_some_iff.1 isSeekHead).symm

/-- Two signature elements of five bytes, of which the second is cut by the end of a chunk, and a
segment element behind them. -/
theorem history_accounted_second_signature :
    let begun := (({} : Feed).push [0x1A, 0x45, 0xDF, 0xA3, 0x80, 0x1A, 0x45]).step.1
    let feed := ((begun.compact 5).push [0xDF, 0xA3, 0x80, 0x18, 0x53, 0x80, 0x67, 0xFF]).step.1
    let stream := [0x1A, 0x45, 0xDF, 0xA3, 0x80, 0x1A, 0x45] ++
      [0xDF, 0xA3, 0x80, 0x18, 0x53, 0x80, 0x67, 0xFF]
    ∃ log, History feed stream log ∧ stream.length < UInt64.size ∧ feed.Accounted stream log ∧
      feed.session.consumed = 10 ∧ feed.position = 15 ∧ origin log = 5 := by
  intro begun feed stream
  have started : History begun _ _ := .step (.push _ .start)
  have behind : 5 ≤ begun.session.resume := by decide +kernel
  have history : History feed stream _ := .step (.push _ (.compact behind started))
  have accounted := history_accounted history (by decide)
  have consumed : feed.session.consumed = 10 := by decide +kernel
  have position : feed.position = 15 := by decide +kernel
  have counted := accounted.counted
  exact ⟨_, history, by decide, accounted, consumed, position, by omega⟩

end CueIndex.Feed
