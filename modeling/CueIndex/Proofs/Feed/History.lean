import Mathlib
import CueIndex.Proofs.Feed.Following
import CueIndex.Proofs.Session.Meetings

/-!
# Histories of feeds

Everything that can happen to a feed, in any order and also after the index is complete: chunks
arrive, the session is called, and bytes that have been taken in are let go.  A history carries the
stream that has arrived and the elements that were met, each at its place in the stream.

* `Feed.meetings` — the elements that the next call meets.
* **`Feed.History`** — the feeds that can be reached, with stream and elements.
* `Feed.Holds` — the buffer is the end of the stream, and the session is inside it.
* **`History.ledger`** — the numbers of the session are explained from the elements.
-/

namespace CueIndex.Feed

/-- The elements that the next call meets, at their places in the stream. -/
def meetings (feed : Feed) : List Meeting := Meeting.listFrom feed.position feed.step.2.visits

/-- **The feeds that can be reached**, with the stream that has arrived and the elements that were
met. -/
inductive History : Feed → Bytes → List Meeting → Prop
  | start : History {} [] []
  | push {feed : Feed} {stream : Bytes} {log : List Meeting} (chunk : Bytes)
      (past : History feed stream log) : History (feed.push chunk) (stream ++ chunk) log
  | step {feed : Feed} {stream : Bytes} {log : List Meeting} (past : History feed stream log) :
      History feed.step.1 stream (log ++ feed.meetings)
  | compact {feed : Feed} {stream : Bytes} {log : List Meeting} {n : ℕ}
      (behind : n ≤ feed.session.resume) (past : History feed stream log) :
      History (feed.compact n) stream log

/-- **The buffer is the end of the stream**, and the next element starts in it or at its end. -/
structure Holds (feed : Feed) (stream : Bytes) : Prop where
  flushed_le : feed.buffer.flushed ≤ stream.length
  buffered : feed.buffer.bytes = stream.drop feed.buffer.flushed
  resume_le : feed.session.resume ≤ feed.buffer.available

variable {feed : Feed} {stream : Bytes} {log : List Meeting}

lemma Holds.carries (holds : feed.Holds stream) : feed.buffer.Carries stream :=
  ⟨holds.flushed_le, holds.buffered⟩

lemma Holds.position_le (holds : feed.Holds stream) : feed.position ≤ stream.length := by
  have := holds.carries.flushed_add_available
  have := holds.resume_le
  unfold position
  omega

lemma Holds.push (holds : feed.Holds stream) (chunk : Bytes) :
    (feed.push chunk).Holds (stream ++ chunk) where
  flushed_le := (holds.carries.push chunk).flushed_le
  buffered := (holds.carries.push chunk).bytes_eq
  resume_le := resume_push_le holds.resume_le chunk

lemma Holds.step (holds : feed.Holds stream) : feed.step.1.Holds stream where
  flushed_le := holds.flushed_le
  buffered := holds.buffered
  resume_le := Session.resume_step_le holds.resume_le

lemma Holds.compact (holds : feed.Holds stream) {n : ℕ} (behind : n ≤ feed.session.resume) :
    (feed.compact n).Holds stream ∧ (feed.compact n).position = feed.position := by
  have inside := holds.resume_le
  have carries := holds.carries.flush n
  exact ⟨⟨carries.flushed_le, carries.bytes_eq, resume_compact_le inside n⟩,
    position_compact behind (behind.trans inside)⟩

lemma calls_step (feed : Feed) : Session.Calls feed.session (.ofBytes feed.buffer.bytes)
    feed.step.2.visits feed.step.2.outcome feed.step.1.session :=
  Session.calls_step feed.session feed.buffer.source

namespace History

lemma holds (history : History feed stream log) : feed.Holds stream := by
  induction history with
  | start => exact ⟨Nat.le_refl _, rfl, Nat.le_refl _⟩
  | push chunk _ ih => exact ih.push chunk
  | step _ ih => exact ih.step
  | compact behind _ ih => exact (ih.compact behind).1

lemma reachable (history : History feed stream log) : feed.session.Reachable := by
  induction history with
  | start => exact .new
  | push _ _ ih => exact ih
  | @step feed _ _ _ ih =>
      have called := ih.call (.step feed.buffer.source feed.buffer.source)
      rw [Session.call, Session.stepOver_self] at called
      exact called
  | @compact _ _ _ n _ _ ih => exact ih.call (.noteFlush n)

lemma phased (history : History feed stream log) : feed.session.Phased :=
  history.reachable.phased

/-- **The numbers of the session are explained from the elements that were met.** -/
theorem ledger (history : History feed stream log) :
    feed.session.Ledger stream feed.position log := by
  induction history with
  | start => exact Session.ledger_start
  | push chunk _ ih => exact ih.append chunk
  | @step feed stream log past ih =>
      exact Session.Ledger.calls feed.calls_step past.phased past.holds.buffered ih
  | compact behind past ih =>
      rw [(past.holds.compact behind).2]
      exact ih.of_same rfl rfl rfl

end History

end CueIndex.Feed
