import Mathlib
import CueIndex.Proofs.Buffer.Queue
import CueIndex.Proofs.Session.Calls
import CueIndex.Proofs.Session.Shift
import CueIndex.Session.Feed

/-!
# Feeds that follow a stream

A feed sees a stream in pieces and forgets bytes that it has taken in.  What it knows of the stream
all the same is said here once, as an invariant of everything that happens to a feed.

* `Feed.resume_push_le`, `Feed.resume_compact_le` — the place of the session stays inside the
  buffer when this grows, and when bytes are let go.
* `Feed.located` — the session of a feed, with its place counted from the start of the stream.
* **`Feed.Follows`** — the buffer holds what has arrived of the stream less what was let go, and the
  session leads, over every continuation of the stream, where a fresh session leads.
* `follows_start`, `Follows.push`, `Follows.letGo`, `Follows.step` — it holds at first and is kept.
* **`Follows.step_eq`** — a call to a feed that follows a stream leads where a single call to a
  fresh session over the whole stream leads.
-/

namespace CueIndex

/-! ## The place of a session between calls -/

namespace Session

variable {s last : Session} {bytes : Bytes} {outcome : Outcome}

lemma CallsOver.resume_le (calls : CallsOver s bytes outcome last)
    (inside : s.resume ≤ bytes.length) : last.resume ≤ bytes.length := by
  have start := Nat.le_trans s.resume_begun_le inside
  cases calls with
  | finished => exact inside
  | unsigned => exact start
  | beyond => exact start
  | reads _ _ reads =>
      have within := reads.resume_within
      rw [List.length_drop] at within
      rw [resume_settled]
      dsimp only at within
      omega

/-- **A call leaves the place of the session inside its source.** -/
theorem resume_step_le (inside : s.resume ≤ bytes.length) :
    (s.step (.ofBytes bytes)).session.resume ≤ bytes.length :=
  (callsOver_step s bytes).resume_le inside

/-- **A session that does not read yet is at the start of its source.**  This stays so over a call
that does not complete the index, and a session that reads goes on to do so. -/
theorem CallsOver.started (calls : CallsOver s bytes outcome last)
    (started : s.status = .reading ∨ s.resume = 0) (pending : outcome ≠ .complete) :
    last.status = .reading ∨ (s.status ≠ .reading ∧ last.resume = 0) := by
  have starts : s.status ≠ .reading → s.begun.resume = 0 := fun waits =>
    Nat.eq_zero_of_le_zero (Nat.le_trans s.resume_begun_le (started.resolve_left waits).le)
  cases calls with
  | finished done =>
      have waits : s.status ≠ .reading := by simp [done]
      exact Or.inr ⟨waits, started.resolve_left waits⟩
  | unsigned waiting =>
      have waits := (not_reading_of_begun_waits waiting).1
      exact Or.inr ⟨waits, starts waits⟩
  | beyond => exact Or.inl rfl
  | reads _ _ reads =>
      rw [settled, if_neg pending]
      exact Or.inl reads.status

end Session

namespace Feed

variable {feed : Feed} {stream : Bytes}

/-! ## The place of a session in the buffer -/

lemma resume_push_le (inside : feed.session.resume ≤ feed.buffer.available) (chunk : Bytes) :
    (feed.push chunk).session.resume ≤ (feed.push chunk).buffer.available := by
  show feed.session.resume ≤ (feed.buffer.push chunk).available
  rw [ChunkBuffer.available_push]
  exact Nat.le_add_right_of_le inside

/-- Letting go of bytes keeps the place of the session inside the buffer, also where it stops
early. -/
lemma resume_compact_le (inside : feed.session.resume ≤ feed.buffer.available) (n : ℕ) :
    (feed.compact n).session.resume ≤ (feed.compact n).buffer.available := by
  show feed.session.resume - n ≤ (feed.buffer.bytes.drop n).length
  rw [List.length_drop]
  exact Nat.sub_le_sub_right inside n

/-! ## The invariant -/

/-- **The session of a feed, with its place counted from the start of the stream.** -/
def located (feed : Feed) : Session := feed.session.shift feed.buffer.flushed

/-- **A feed that has received the bytes of `stream`** and whose index is not complete. -/
structure Follows (feed : Feed) (stream : Bytes) : Prop where
  /-- Only bytes that have arrived have been let go. -/
  flushed_le : feed.buffer.flushed ≤ stream.length
  /-- All others are in the buffer. -/
  buffered : stream.drop feed.buffer.flushed = feed.buffer.bytes
  /-- The next element starts inside the buffer or at its end. -/
  resume_le : feed.session.resume ≤ feed.buffer.available
  /-- Nothing is let go before the signature has been recognised. -/
  started : feed.session.status = .reading ∨ feed.position = 0
  /-- Over every continuation of the stream the session leads where a fresh one leads. -/
  onward : ∀ more,
    (feed.located.step (.ofBytes (stream ++ more))).Agrees (readWhole (stream ++ more))

lemma follows_start : ({} : Feed).Follows [] where
  flushed_le := Nat.le_refl _
  buffered := rfl
  resume_le := Nat.le_refl _
  started := Or.inr rfl
  onward _ := Step.Agrees.refl _

lemma Follows.carries (follows : feed.Follows stream) : feed.buffer.Carries stream :=
  ⟨follows.flushed_le, follows.buffered.symm⟩

lemma Follows.push (follows : feed.Follows stream) (chunk : Bytes) :
    (feed.push chunk).Follows (stream ++ chunk) where
  flushed_le := (follows.carries.push chunk).flushed_le
  buffered := (follows.carries.push chunk).bytes_eq.symm
  resume_le := resume_push_le follows.resume_le chunk
  started := follows.started
  onward := by
    intro more
    rw [List.append_assoc]
    exact follows.onward (chunk ++ more)

/-- Letting go of bytes behind the session leaves it where it is in the stream. -/
lemma located_letGo (inside : feed.session.resume ≤ feed.buffer.available) (slack : ℕ) :
    (feed.letGo slack).located = feed.located := by
  have behind : min slack feed.session.resume ≤ feed.session.resume := Nat.min_le_right _ _
  show (feed.session.noteFlush _).shift (feed.buffer.flushed + min _ feed.buffer.available)
    = feed.located
  rw [Nat.min_eq_left (Nat.le_trans behind inside), ← Session.shift_shift,
    Session.shift_noteFlush behind]
  rfl

lemma Follows.letGo (follows : feed.Follows stream) (slack : ℕ) :
    (feed.letGo slack).Follows stream := by
  have inside := follows.resume_le
  have carries := follows.carries.flush (min slack feed.session.resume)
  refine ⟨carries.flushed_le, carries.bytes_eq.symm, resume_compact_le inside _, ?_, ?_⟩
  · rw [position_letGo inside]
    exact follows.started
  · rw [located_letGo inside]
    exact follows.onward

/-- Before anything has been let go the buffer holds the whole stream. -/
lemma Follows.buffered_of_start (follows : feed.Follows stream) (start : feed.position = 0) :
    feed.buffer.flushed = 0 ∧ feed.buffer.bytes = stream := by
  have kept : feed.buffer.flushed = 0 := Nat.eq_zero_of_add_eq_zero_right start
  have buffered := follows.buffered
  rw [kept, List.drop_zero] at buffered
  exact ⟨kept, buffered.symm⟩

/-- The session of a feed sees the end of the stream only, and does there what it would do over the
whole of it. -/
lemma Follows.step_located (follows : feed.Follows stream) :
    (feed.located.step (.ofBytes stream)).session = feed.step.1.located ∧
      (feed.located.step (.ofBytes stream)).outcome = feed.step.2.outcome := by
  rcases follows.started with reading | start
  · have shifted := feed.session.step_shift reading (stream.take feed.buffer.flushed)
      feed.buffer.bytes
    rw [follows.carries.length_take, follows.carries.take_append] at shifted
    exact shifted
  · obtain ⟨kept, whole⟩ := follows.buffered_of_start start
    rw [located, kept, ← whole]
    refine ⟨?_, rfl⟩
    show _ = Session.shift _ feed.buffer.flushed
    rw [kept]
    rfl

/-- **A call to a feed leads where a single call to a fresh session over the whole stream
leads.** -/
theorem Follows.step_eq (follows : feed.Follows stream) :
    feed.step.1.located = (readWhole stream).session ∧
      feed.step.2.outcome = (readWhole stream).outcome := by
  obtain ⟨session, outcome⟩ := follows.step_located
  have agree := follows.onward []
  rw [List.append_nil] at agree
  exact ⟨session.symm.trans agree.session, outcome.symm.trans agree.outcome⟩

/-- Unless it completes the index, the feed goes on to follow the stream. -/
lemma Follows.step (follows : feed.Follows stream)
    (pending : feed.step.2.outcome ≠ .complete) : feed.step.1.Follows stream := by
  have place := (Session.callsOver_step feed.session feed.buffer.bytes).started
    (follows.started.imp id fun start => Nat.eq_zero_of_add_eq_zero_left start) pending
  refine ⟨follows.flushed_le, follows.buffered, Session.resume_step_le follows.resume_le, ?_, ?_⟩
  · rcases place with reading | ⟨waited, start⟩
    · exact Or.inl reading
    · refine Or.inr ?_
      have before := follows.started.resolve_left waited
      show feed.buffer.flushed + (feed.session.step feed.buffer.source).session.resume = 0
      rw [Nat.eq_zero_of_add_eq_zero_right before]
      exact (Nat.zero_add _).trans start
  · intro more
    obtain ⟨session, outcome⟩ := follows.step_located
    rw [← session]
    rw [← outcome] at pending
    exact (Session.step_append pending more).trans (follows.onward more)

end Feed

end CueIndex
