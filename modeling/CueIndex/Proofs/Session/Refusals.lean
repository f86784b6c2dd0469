import Mathlib
import CueIndex.Proofs.Session.Lifecycle

/-!
# Refused calls

A call that its source keeps from reading may still have gone some way: it sets up a fresh session,
and it may recognise the signature before the source proves to be of no use.  Only the phase shows
this afterwards, and the next call does not ask how the session got there.

* `Calls.of_refusal` — the two states that a refused call can leave.
* `Phased.step_begun`, `step_of_recognised` — a call goes on from either of them as from the state
  before.
* **`refusal_inert`** — a refused call changes nothing but the phase, and the next call over a byte
  string leads where it would have led without it.
-/

namespace CueIndex.Session

variable {s last : Session} {first later : ByteSource} {visits : List Visit} {outcome : Outcome}
  {bytes : Bytes}

/-! ## The state after a refused call -/

/-- **What a refused call leaves**: the session that every call starts from, at most with the
signature recognised. -/
theorem Calls.of_refusal (calls : Calls s later visits outcome last)
    (refusal : outcome.isRefusal = true) : s.status ≠ .finished ∧
      (s.begun.status = .awaitingSignature ∧ last = s.begun ∨
        last = { s.begun with status := .reading }) := by
  cases calls with
  | finished => cases refusal
  | unsigned waiting => exact ⟨(not_reading_of_begun_waits waiting).2, Or.inl ⟨waiting, rfl⟩⟩
  | unread live => exact ⟨live, Or.inr rfl⟩
  | reads _ _ reads => rcases reads.outcome_eq with rfl | rfl <;> cases refusal

/-- Nothing but the phase has changed. -/
lemma Phased.of_refusal (phased : s.Phased) (calls : Calls s later visits outcome last)
    (refusal : outcome.isRefusal = true) : last = { s with status := last.status } := by
  obtain ⟨status, begins⟩ := phased.begun
  rcases (calls.of_refusal refusal).2 with ⟨-, left⟩ | left <;> rw [left, begins]

/-- A refused call does not finish the session. -/
lemma Calls.unfinished_of_refusal (calls : Calls s later visits outcome last)
    (refusal : outcome.isRefusal = true) : last.status ≠ .finished := by
  intro done
  have live := (calls.of_refusal refusal).1
  rw [calls.complete_iff.2 ⟨live, done⟩] at refusal
  cases refusal

/-! ## The next call -/

/-- Setting up a session beforehand makes no difference to a call. -/
lemma Phased.step_begun (phased : s.Phased) (source : ByteSource) :
    s.begun.step source = s.step source := by
  by_cases fresh : s.status = .fresh
  · rw [begun_of_fresh fresh, phased.fresh fresh]
    rfl
  · rw [begun_of_started fresh]

/-- Nor does recognising the signature beforehand, if it is there. -/
lemma step_of_recognised (waiting : s.status = .awaitingSignature)
    (right : bytes.take 4 = signature) :
    ({ s with status := .reading } : Session).step (.ofBytes bytes) = s.step (.ofBytes bytes) := by
  simp only [step, waiting]
  rw [s.stepSignature_of_right right]

/-- **The next call over a byte string leads where it would have led without the refused one.** -/
theorem Phased.step_of_refusal (phased : s.Phased) (calls : Calls s later visits outcome last)
    (refusal : outcome.isRefusal = true)
    (right : s.status ≠ .reading → last.status = .reading → bytes.take 4 = signature) :
    last.step (.ofBytes bytes) = s.step (.ofBytes bytes) := by
  obtain ⟨live, ⟨-, left⟩ | left⟩ := calls.of_refusal refusal
  · rw [left]
    exact phased.step_begun _
  · rw [← phased.step_begun, left]
    by_cases reading : s.status = .reading
    · rw [begun_of_started (by simp [reading]), ← reading]
    · exact step_of_recognised (begun_waits live reading) (right reading (by rw [left]))

/-! ## All of it together -/

/-- **A refused call.**  In every state that a session can be in, and whatever the two sources of
the call answer: if they keep it from reading, then it changes nothing but the phase, which does not
go back and does not become the last one.  The next call over a byte string leads to the same state,
outcome and report as if the refused call had never been made; only if that call has recognised the
signature first, the byte string has to start with it. -/
theorem refusal_inert :
    (∀ s : Session, Reachable s → ∀ first later : ByteSource,
      (s.stepOver first later).outcome.isRefusal = true →
        let left := (s.stepOver first later).session
        left = { s with status := left.status } ∧
          s.status.rank ≤ left.status.rank ∧ left.status ≠ .finished ∧
          ∀ bytes : Bytes,
            (s.status ≠ .reading → left.status = .reading → bytes.take 4 = signature) →
              left.step (.ofBytes bytes) = s.step (.ofBytes bytes)) ∧
    ∀ (s : Session) (source : ByteSource), s.stepOver source source = s.step source := by
  refine ⟨?_, stepOver_self⟩
  intro s reachable first later refused left
  have phased := reachable.phased
  have calls := calls_stepOver s first later
  exact ⟨phased.of_refusal calls refused, calls.rank_le, calls.unfinished_of_refusal refused,
    fun bytes right => phased.step_of_refusal calls refused right⟩

/-- A fresh session is shown the signature and then four bytes less than promised: the phase is all
that it keeps of this, and the stream is read as if for the first time. -/
theorem refusal_inert_announcedCues :
    let liar : ByteSource := ⟨9, fun _ => signature ++ [0x80]⟩
    let left := (Session.stepOver {} liar liar).session
    (Session.stepOver {} liar liar).outcome = .bytesHidden ∧ left.status = .reading ∧
      left = { ({} : Session) with status := left.status } ∧
      left.step (.ofBytes announcedCues) = Session.step {} (.ofBytes announcedCues) ∧
      (left.step (.ofBytes announcedCues)).session.cuesEnd = some 20 := by
  intro liar left
  have hidden : (Session.stepOver {} liar liar).outcome = .bytesHidden := by decide +kernel
  have recognised : left.status = .reading := by decide +kernel
  obtain ⟨still, -, -, again⟩ := refusal_inert.1 {} .new liar liar (by rw [hidden]; rfl)
  have same := again announcedCues fun _ _ => by decide
  exact ⟨hidden, recognised, still, same, by rw [same]; decide +kernel⟩

end CueIndex.Session
