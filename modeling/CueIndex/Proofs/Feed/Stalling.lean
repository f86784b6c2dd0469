import Mathlib
import CueIndex.Proofs.Feed.Containment
import CueIndex.Proofs.Session.Stalling

/-!
# Feeds that stall

What a call says about the bytes ahead of a session has to outlast the call: chunks arrive, bytes
are let go, and the session is called again, in any order and as often as anybody likes.  A flag
that was set for a reason keeps it through all of this, which makes the stall one of the feed and
not only of the call that came upon it.

* `Feed.unread` — the bytes that are there and have not been taken in.
* **`Feed.Onward`** — everything that can happen to a feed, with what is reported on the way.
* `Feed.Stuck` — a feed whose session has stalled in front of a malformed header; nothing that can
  happen to it changes it (`Stuck.onward`).
* `Onward.stuck`, `Onward.countP_isMalformedHeader` — a feed that has stalled is stuck, and this has
  been reported once.
* **`stalled_for_good`** — all of it together.
-/

namespace CueIndex.Feed

/-- The bytes that are there and have not been taken in. -/
def unread (feed : Feed) : Bytes := feed.buffer.bytes.drop feed.session.resume

/-- **Going on from a feed**, with everything that is reported on the way: chunks arrive, the
session is called, and bytes that have been taken in are let go. -/
inductive Onward (feed : Feed) : List Event → Feed → Prop
  | here : Onward feed [] feed
  | push {events : List Event} {later : Feed} (chunk : Bytes) (past : Onward feed events later) :
      Onward feed events (later.push chunk)
  | step {events : List Event} {later : Feed} (past : Onward feed events later) :
      Onward feed (events ++ later.step.2.events) later.step.1
  | compact {events : List Event} {later : Feed} {n : ℕ} (behind : n ≤ later.session.resume)
      (past : Onward feed events later) : Onward feed events (later.compact n)

variable {feed later : Feed} {events : List Event}

/-! ## Stuck feeds -/

/-- **A feed whose session has stalled in front of a malformed header.** -/
structure Stuck (feed : Feed) : Prop where
  stalled : feed.session.stalled = true
  blocked : feed.session.Blocked feed.buffer.bytes

lemma Stuck.push (stuck : feed.Stuck) (chunk : Bytes) : (feed.push chunk).Stuck where
  stalled := stuck.stalled
  blocked := stuck.blocked.append chunk

lemma Stuck.compact (stuck : feed.Stuck) {n : ℕ} (behind : n ≤ feed.session.resume) :
    (feed.compact n).Stuck where
  stalled := stuck.stalled
  blocked := stuck.blocked.noteFlush behind

/-- A call to a stuck feed does nothing. -/
lemma Stuck.step_eq (stuck : feed.Stuck) :
    feed.step = (feed, ⟨feed.session, .suspended, []⟩) := by
  have idle : feed.session.step feed.buffer.source = ⟨feed.session, .suspended, []⟩ :=
    Session.step_of_blocked stuck.stalled stuck.blocked
  rw [Feed.step, idle]

/-- **Whatever happens to a stuck feed, it stays stuck in the same place of the stream**, in the
same state, and nothing is reported. -/
theorem Stuck.onward (stuck : feed.Stuck) (onward : feed.Onward events later) :
    later.Stuck ∧ events = [] ∧
      later.session = { feed.session with resume := later.session.resume } ∧
      later.position = feed.position := by
  induction onward with
  | here => exact ⟨stuck, rfl, rfl, rfl⟩
  | push chunk past ih =>
      obtain ⟨still, silent, same, place⟩ := ih
      exact ⟨still.push chunk, silent, same, place⟩
  | step past ih =>
      obtain ⟨still, silent, same, place⟩ := ih
      rw [still.step_eq, silent]
      exact ⟨still, rfl, same, place⟩
  | @compact _ later n behind past ih =>
      obtain ⟨still, silent, same, place⟩ := ih
      refine ⟨still.compact behind, silent, ?_, ?_⟩
      · show later.session.noteFlush n = _
        rw [Session.noteFlush, same]
        rfl
      · rw [position_compact behind (Nat.le_trans behind still.blocked.inside), place]

/-! ## What has happened to a new feed -/

lemma Onward.inside (onward : ({} : Feed).Onward events feed) :
    feed.session.resume ≤ feed.buffer.available := by
  induction onward with
  | here => exact Nat.le_refl _
  | push chunk past ih => exact resume_tend_le ih (.push chunk)
  | step past ih => exact resume_tend_le ih .step
  | @compact _ _ n behind past ih => exact resume_tend_le ih (.flushThenNote n)

/-- After a call the flag is set exactly if the session is blocked. -/
lemma stalled_step_iff (inside : feed.session.resume ≤ feed.buffer.available)
    (before : feed.session.stalled = true → feed.Stuck) :
    feed.step.1.session.stalled = true ↔
      feed.step.1.session.Blocked feed.step.1.buffer.bytes :=
  (Session.callsOver_step feed.session feed.buffer.bytes).stalled_iff inside
    fun stalled => (before stalled).blocked

/-- **A feed that has stalled is stuck.** -/
theorem Onward.stuck (onward : ({} : Feed).Onward events feed)
    (stalled : feed.session.stalled = true) : feed.Stuck := by
  induction onward with
  | here => cases stalled
  | push chunk past ih => exact (ih stalled).push chunk
  | step past ih => exact ⟨stalled, (stalled_step_iff past.inside ih).1 stalled⟩
  | compact behind past ih => exact (ih stalled).compact behind

/-- **A malformed header has been reported once if the feed has stalled**, and never otherwise. -/
theorem Onward.countP_isMalformedHeader (onward : ({} : Feed).Onward events feed) :
    events.countP Event.isMalformedHeader = feed.session.stalled.toNat := by
  induction onward with
  | here => rfl
  | push chunk past ih => exact ih
  | @step events feed past ih =>
      have started : feed.session.stalled = true → feed.session.status ≠ .fresh := by
        intro stalled fresh
        exact absurd (fresh.symm.trans (past.stuck stalled).blocked.1) (by simp)
      have reported := feed.session.alarms_step feed.buffer.source
      rw [Session.stalled_begun started] at reported
      rw [List.countP_append, ih, Nat.add_comm]
      exact reported
  | compact behind past ih => exact ih

/-! ## All of it together -/

/-- **Stalling is exact, for good, and reported once.**  Whatever chunks have arrived in a new feed,
and however often its session was called and bytes that had been taken in were let go: after a call
that leaves the session reading, it has stalled exactly if the bytes not taken in start with a
header whose width is out of range.  Once it has stalled, nothing that can happen changes its state
or its place in the stream, every call says that it has to wait, and nothing more is reported.  What
was reported until then holds one warning of a malformed header, and none if it has not stalled. -/
theorem stalled_for_good (events : List Event) (feed : Feed)
    (onward : ({} : Feed).Onward events feed) :
    (feed.step.1.session.status = .reading →
      (feed.step.1.session.stalled = true ↔
        ∃ width, decodeHeader feed.step.1.unread = .error (.invalidWidth width))) ∧
    (feed.session.stalled = true → ∀ (reports : List Event) (later : Feed),
      feed.Onward reports later →
        reports = [] ∧ later.session = { feed.session with resume := later.session.resume } ∧
          later.position = feed.position ∧
          later.step = (later, ⟨later.session, .suspended, []⟩)) ∧
    (messages .warn events).countP Message.isMalformedHeader
      = if feed.session.stalled then 1 else 0 := by
  refine ⟨fun reading => ?_, fun stalled reports later goes => ?_, ?_⟩
  · rw [stalled_step_iff onward.inside onward.stuck, ← nextMove_malformed_iff]
    exact and_iff_right reading
  · obtain ⟨still, silent, same, place⟩ := (onward.stuck stalled).onward goes
    exact ⟨silent, same, place, still.step_eq⟩
  · rw [countP_messages_isMalformedHeader, onward.countP_isMalformedHeader]
    cases feed.session.stalled <;> rfl

/-- A signature element, the header of a segment, and a byte that no header starts with. -/
def segmentSpoiled : Bytes :=
  [0x1A, 0x45, 0xDF, 0xA3, 0x80, 0x18, 0x53, 0x80, 0x67, 0xFF, 0x00]

/-- The session stalls behind the header of the segment, with one warning.  When the ten bytes in
front are let go and a cluster arrives, it is still there and still waits. -/
theorem stalled_for_good_segmentSpoiled :
    let spoiled := (({} : Feed).push segmentSpoiled).step
    let later := ((spoiled.1.compact 10).push [0x1F, 0x43, 0xB6, 0x75, 0x80]).step.1
    (spoiled.1.session.status = .reading ∧ spoiled.1.session.stalled = true ∧
        ∃ width, decodeHeader spoiled.1.unread = .error (.invalidWidth width)) ∧
      (later.session.resume = 0 ∧ later.position = spoiled.1.position ∧
        later.session = { spoiled.1.session with resume := 0 } ∧
        later.step.2.outcome = .suspended) ∧
      (messages .warn spoiled.2.events).countP Message.isMalformedHeader = 1 := by
  intro spoiled later
  have fed : ({} : Feed).Onward [] (({} : Feed).push segmentSpoiled) := .push _ .here
  have reading : spoiled.1.session.status = .reading := by decide +kernel
  have stalled : spoiled.1.session.stalled = true := by decide +kernel
  have behind : 10 ≤ spoiled.1.session.resume := by decide +kernel
  have start : later.session.resume = 0 := by decide +kernel
  have malformed := ((stalled_for_good _ _ fed).1 reading).1 stalled
  obtain ⟨-, still, warned⟩ := stalled_for_good _ _ fed.step
  have goes : spoiled.1.Onward _ later := .step (.push _ (.compact behind .here))
  obtain ⟨-, same, place, idle⟩ := still stalled _ _ goes
  rw [start] at same
  rw [if_pos stalled] at warned
  exact ⟨⟨reading, stalled, malformed⟩, ⟨start, place, same, by rw [idle]⟩, warned⟩

end CueIndex.Feed
