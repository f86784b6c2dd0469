import Mathlib
import CueIndex.Proofs.Feed.Following

/-!
# Flushes and the place of the session

A flush concerns two parties that count for themselves: the buffer stops at its end, and the session
at its start.  Nothing compares the two counts, so a flush of more bytes than there are, or of more
than have been taken in, moves them differently far.  The place of the session stays inside the
buffer all the same, as long as the session hears of every flush, before it or after.

* `Feed.flush`, `Feed.noteFlush` — the two halves of a flush.
* `Feed.Deed`, `Feed.tended` — what an owner does that tells the session about every flush.
* `CallsOver.beyond_iff` — a session that reads and is called over a byte string rejects it exactly
  if it ends before the place of the session.
* **`tended_contained`** — with both halves the place stays inside and no call is rejected; with
  the buffer's half alone the next call is, exactly if the place has come to lie outside.
-/

namespace CueIndex

/-! ## Calls that a byte string makes the session reject -/

namespace Session

variable {s last : Session} {bytes : Bytes} {outcome : Outcome}

/-- Only bytes that end before the place of the session are rejected, and a byte string hides
none. -/
lemma CallsOver.outside_of_beyond (calls : CallsOver s bytes outcome last) :
    (outcome = .resumeBeyondEnd → bytes.length < s.begun.resume) ∧ outcome ≠ .bytesHidden := by
  cases calls with
  | finished => simp
  | unsigned _ _ refusal => rcases refusal with rfl | rfl <;> simp
  | beyond _ outside => exact ⟨fun _ => outside, by simp⟩
  | reads _ _ reads => rcases reads.outcome_eq with rfl | rfl <;> simp

lemma CallsOver.accepted_of_inside (calls : CallsOver s bytes outcome last)
    (inside : s.resume ≤ bytes.length) : outcome ≠ .resumeBeyondEnd ∧ outcome ≠ .bytesHidden := by
  obtain ⟨outside, shown⟩ := calls.outside_of_beyond
  refine ⟨fun beyond => ?_, shown⟩
  have start := Nat.le_trans s.resume_begun_le inside
  exact Nat.not_lt_of_le start (outside beyond)

/-- **A session that reads rejects a byte string exactly if it ends before its place.** -/
theorem CallsOver.beyond_iff (calls : CallsOver s bytes outcome last)
    (reading : s.status = .reading) : outcome = .resumeBeyondEnd ↔ bytes.length < s.resume := by
  have begins : s.begun = s := begun_of_started (by simp [reading])
  constructor
  · intro beyond
    have outside := calls.outside_of_beyond.1 beyond
    rwa [begins] at outside
  · intro outside
    cases calls with
    | finished done => exact absurd (reading.symm.trans done) (by simp)
    | unsigned waiting => exact absurd reading (not_reading_of_begun_waits waiting).1
    | beyond => rfl
    | reads _ inside =>
        rw [begins] at inside
        exact absurd outside (Nat.not_lt_of_le inside)

end Session

namespace Feed

/-! ## What an owner does -/

/-- The buffer lets go of its first `n` bytes, and the session does not hear of it. -/
def flush (feed : Feed) (n : ℕ) : Feed := { feed with buffer := feed.buffer.flush n }

/-- The session hears that `n` bytes were let go, whether they were or not. -/
def noteFlush (feed : Feed) (n : ℕ) : Feed := { feed with session := feed.session.noteFlush n }

/-- **What an owner does that tells the session about every flush.** -/
inductive Deed
  | push (chunk : Bytes)
  | step
  | takeIndex
  | restart
  | release
  /-- A flush that the session hears of afterwards. -/
  | flushThenNote (n : ℕ)
  /-- A flush that the session hears of beforehand. -/
  | noteThenFlush (n : ℕ)
  deriving DecidableEq, Repr

/-- The feed after one deed. -/
def tend (feed : Feed) : Deed → Feed
  | .push chunk => feed.push chunk
  | .step => feed.step.1
  | .takeIndex => { feed with session := feed.session.takeIndex.2 }
  | .restart => { feed with session := feed.session.restart.1 }
  | .release => { feed with session := feed.session.release.1 }
  | .flushThenNote n => (feed.flush n).noteFlush n
  | .noteThenFlush n => (feed.noteFlush n).flush n

/-- The feed after deeds, one after the other. -/
def tended (feed : Feed) (deeds : List Deed) : Feed := deeds.foldl tend feed

variable {feed : Feed}

/-- The two halves of a flush make up a compaction, whichever of them is the first. -/
lemma flush_noteFlush (feed : Feed) (n : ℕ) : (feed.flush n).noteFlush n = feed.compact n := rfl

lemma noteFlush_flush (feed : Feed) (n : ℕ) : (feed.noteFlush n).flush n = feed.compact n := rfl

/-! ## The place of the session -/

/-- **Every deed leaves the place of the session inside the buffer.** -/
theorem resume_tend_le (inside : feed.session.resume ≤ feed.buffer.available) (deed : Deed) :
    (feed.tend deed).session.resume ≤ (feed.tend deed).buffer.available := by
  cases deed with
  | push chunk => exact resume_push_le inside chunk
  | step => exact Session.resume_step_le inside
  | takeIndex => exact inside
  | restart | release => exact Nat.zero_le _
  | flushThenNote n =>
      rw [tend, flush_noteFlush]
      exact resume_compact_le inside n
  | noteThenFlush n =>
      rw [tend, noteFlush_flush]
      exact resume_compact_le inside n

lemma resume_tended_le (inside : feed.session.resume ≤ feed.buffer.available)
    (deeds : List Deed) :
    (feed.tended deeds).session.resume ≤ (feed.tended deeds).buffer.available := by
  induction deeds generalizing feed with
  | nil => exact inside
  | cons deed deeds ih => exact ih (resume_tend_le inside deed)

/-! ## All of it together -/

/-- **The place of the session and the buffer.**  Whatever is done to a new feed, as long as both
halves of every flush are, and however many bytes a flush is about: the next element starts inside
the buffer or at its end, so that no call says that the source ends too early or hides bytes.  When
the buffer alone lets go of bytes, a later call to a session that reads says that the source ends
too early exactly if the place of the session is outside the buffer. -/
theorem tended_contained :
    (∀ deeds : List Deed,
      let feed := ({} : Feed).tended deeds
      feed.session.resume ≤ feed.buffer.available ∧
        feed.step.2.outcome ≠ .resumeBeyondEnd ∧ feed.step.2.outcome ≠ .bytesHidden) ∧
    ∀ (feed : Feed) (n : ℕ) (deeds : List Deed),
      let flushed := (feed.flush n).tended deeds
      flushed.session.status = .reading →
        (flushed.step.2.outcome = .resumeBeyondEnd ↔
          flushed.buffer.available < flushed.session.resume) := by
  constructor
  · intro deeds feed
    have inside : feed.session.resume ≤ feed.buffer.available :=
      resume_tended_le (Nat.le_refl _) deeds
    have called := Session.callsOver_step feed.session feed.buffer.bytes
    exact ⟨inside, called.accepted_of_inside inside⟩
  · intro feed n deeds flushed reading
    exact (Session.callsOver_step flushed.session flushed.buffer.bytes).beyond_iff reading

/-- A signature element, the header of a segment, and the first byte of another element. -/
def segmentOpened : Bytes :=
  [0x1A, 0x45, 0xDF, 0xA3, 0x80, 0x18, 0x53, 0x80, 0x67, 0xFF, 0xEC]

/-- The session has taken in ten of eleven bytes.  A flush of a hundred leaves both parties at their
start; a flush of five that the session never hears of leaves six bytes in front of its place. -/
theorem tended_contained_segmentOpened :
    let deeds : List Deed := [.push segmentOpened, .step]
    let opened := ({} : Feed).tended deeds
    let emptied := ({} : Feed).tended (deeds ++ [.noteThenFlush 100])
    (opened.session.resume = 10 ∧ opened.session.resume ≤ opened.buffer.available) ∧
      (emptied.session.resume ≤ emptied.buffer.available ∧
        emptied.step.2.outcome ≠ .resumeBeyondEnd) ∧
      (opened.flush 5).session.status = .reading ∧ (opened.flush 5).buffer.available = 6 ∧
        (opened.flush 5).step.2.outcome = .resumeBeyondEnd := by
  intro deeds opened emptied
  obtain ⟨always, alone⟩ := tended_contained
  have place : opened.session.resume = 10 := by decide +kernel
  have left : (opened.flush 5).buffer.available = 6 := by decide +kernel
  have reading : (opened.flush 5).session.status = .reading := by decide +kernel
  have beyond : (opened.flush 5).step.2.outcome = .resumeBeyondEnd :=
    (alone opened 5 [] reading).2 (by decide +kernel)
  obtain ⟨insideOpened, -⟩ := always deeds
  obtain ⟨insideEmptied, accepted, -⟩ := always (deeds ++ [.noteThenFlush 100])
  exact ⟨⟨place, insideOpened⟩, ⟨insideEmptied, accepted⟩, reading, left, beyond⟩

end Feed

end CueIndex
