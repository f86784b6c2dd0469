import Mathlib
import CueIndex.Proofs.Session.Calls

/-!
# The life of a session

A session goes through its phases in one direction, whatever its sources answer and whatever else is
done to it between calls, until somebody starts it over.

* `Status.rank` — the order of the phases.
* `Call`, `Session.call`, `Session.after` — what can be done to a session short of starting over.
* `Reachable` — every state that a session can be in.
* **`Phased`** — what its phase says about the rest of a state: nothing is known before the
  signature, and a session that reads has not come to the end of the cues.
* **`session_lifecycle`** — all of it together: forward only, complete once, still afterwards.
-/

namespace CueIndex.Session

/-! ## Phases -/

/-- The place of a phase in the order in which a session goes through them. -/
def Status.rank : Status → ℕ
  | .fresh => 0
  | .awaitingSignature => 1
  | .reading => 2
  | .finished => 3

lemma Status.rank_le (status : Status) : status.rank ≤ Status.finished.rank := by
  cases status <;> decide

/-- What can be done to a session short of starting over.  The source of a step may answer
differently once the signature has been recognised. -/
inductive Call
  | step (first later : ByteSource)
  | noteFlush (n : ℕ)
  | takeIndex

/-- The session after a call, and the outcome if the call is a step. -/
def call (s : Session) : Call → Session × Option Outcome
  | .step first later =>
    let stepped := s.stepOver first later
    (stepped.session, some stepped.outcome)
  | .noteFlush n => (s.noteFlush n, none)
  | .takeIndex => (s.takeIndex.2, none)

/-- The session after calls, one after the other. -/
def after (s : Session) (calls : List Call) : Session :=
  calls.foldl (fun s call => (s.call call).1) s

/-- The outcomes of the steps among calls, in order. -/
def outcomes (s : Session) : List Call → List Outcome
  | [] => []
  | call :: calls => (s.call call).2.toList ++ (s.call call).1.outcomes calls

/-- **Every state that a session can be in.** -/
inductive Reachable : Session → Prop
  | new : Reachable {}
  | call {s : Session} (call : Call) : Reachable s → Reachable (s.call call).1
  | restart {s : Session} : Reachable s → Reachable s.restart.1
  | release {s : Session} : Reachable s → Reachable s.release.1

variable {s last : Session} {first later : ByteSource} {visits : List Visit} {outcome : Outcome}

/-! ## Forward only -/

lemma begun_status (s : Session) : s.status.rank ≤ s.begun.status.rank ∧
    (s.status ≠ .finished → s.begun.status.rank ≤ Status.reading.rank) := by
  unfold begun
  split
  · next fresh => simp [fresh, Status.rank]
  · cases s.status <;> simp [Status.rank]

lemma status_settled (last : Session) (outcome : Outcome) :
    (last.settled outcome).status
      = if outcome = .complete then .finished else last.status := by
  unfold settled
  split <;> rfl

/-- A call leads to the same or a later phase. -/
lemma Calls.rank_le (calls : Calls s later visits outcome last) :
    s.status.rank ≤ last.status.rank := by
  have forward := s.begun_status
  cases calls with
  | finished => exact Nat.le_refl _
  | unsigned => exact forward.1
  | unread live => exact Nat.le_trans forward.1 (forward.2 live)
  | reads live _ reads =>
      rw [status_settled]
      split
      · exact Status.rank_le _
      · rw [reads.status]
        exact Nat.le_trans forward.1 (forward.2 live)

/-- **A call completes the index exactly if it finishes the session.** -/
theorem Calls.complete_iff (calls : Calls s later visits outcome last) :
    outcome = .complete ↔ s.status ≠ .finished ∧ last.status = .finished := by
  cases calls with
  | finished done => simp [done]
  | unsigned waiting refusal =>
      rw [waiting]
      cases outcome <;> simp_all [Outcome.isRefusal]
  | unread live refusal => cases outcome <;> simp_all [Outcome.isRefusal]
  | reads live _ reads =>
      rw [status_settled]
      split
      · next done => simp [done, live]
      · next pending => simp [pending, reads.status]

lemma rank_le_call (s : Session) (call : Call) :
    s.status.rank ≤ (s.call call).1.status.rank := by
  cases call with
  | step first later => exact (calls_stepOver s first later).rank_le
  | noteFlush n => exact Nat.le_refl _
  | takeIndex => exact Nat.le_refl _

/-- **No calls lead back to an earlier phase.** -/
theorem rank_le_after (s : Session) (calls : List Call) :
    s.status.rank ≤ (s.after calls).status.rank := by
  induction calls generalizing s with
  | nil => exact Nat.le_refl _
  | cons call calls ih => exact Nat.le_trans (s.rank_le_call call) (ih _)

/-! ## Still after the end -/

lemma status_after_of_finished (done : s.status = .finished) (calls : List Call) :
    (s.after calls).status = .finished := by
  have forward := s.rank_le_after calls
  rw [done] at forward
  cases phase : (s.after calls).status <;> simp_all [Status.rank]

/-- The steps of a finished session complete nothing. -/
lemma outcomes_of_finished (done : s.status = .finished) (calls : List Call) :
    ∀ outcome ∈ s.outcomes calls, outcome = .suspended := by
  induction calls generalizing s with
  | nil => simp [outcomes]
  | cons call calls ih =>
      have still : (s.call call).1.status = .finished := status_after_of_finished done [call]
      intro outcome among
      rw [outcomes, List.mem_append] at among
      rcases among with here | later
      · cases call with
        | step first later =>
            simp only [Session.call, stepOver_of_finished done, Option.toList_some,
              List.mem_singleton] at here
            exact here
        | noteFlush | takeIndex => cases here
      · exact ih still outcome later

/-- Only a step completes the index, and it finishes the session. -/
lemma status_call_of_complete {call : Call} (completes : (s.call call).2 = some .complete) :
    (s.call call).1.status = .finished := by
  cases call with
  | step first later =>
      have done : (s.stepOver first later).outcome = .complete := Option.some.inj completes
      exact ((calls_stepOver s first later).complete_iff.1 done).2
  | noteFlush | takeIndex => cases completes

/-- **At most one step completes the index.** -/
theorem count_complete_le (s : Session) (calls : List Call) :
    (s.outcomes calls).count .complete ≤ 1 := by
  induction calls generalizing s with
  | nil => simp [outcomes]
  | cons call calls ih =>
      rw [outcomes, List.count_append]
      by_cases completes : (s.call call).2 = some .complete
      · have ended := status_call_of_complete completes
        have none : ((s.call call).1.outcomes calls).count .complete = 0 := by
          refine List.count_eq_zero.2 fun among => ?_
          cases outcomes_of_finished ended calls _ among
        rw [none, completes]
        simp
      · have here : ((s.call call).2.toList).count .complete = 0 :=
          List.count_eq_zero.2 fun among => completes (Option.mem_toList.1 among)
        rw [here, Nat.zero_add]
        exact ih _

/-! ## What the phase says about the state -/

/-- **What its phase says about the rest of a state.** -/
structure Phased (s : Session) : Prop where
  /-- A fresh session knows nothing. -/
  fresh : s.status = .fresh → s = {}
  /-- Nor does one that waits for the signature. -/
  awaiting : s.status = .awaitingSignature → s = { status := .awaitingSignature }
  /-- A session that reads has not come to the end of the cues. -/
  reading : s.status = .reading → s.cuesReached? = none

lemma phased_new : Phased {} where
  fresh _ := rfl
  awaiting waiting := by cases waiting
  reading reads := by cases reads

/-- Nothing but the phase distinguishes the session that a call starts from. -/
lemma Phased.begun (phased : s.Phased) : ∃ status, s.begun = { s with status := status } := by
  by_cases fresh : s.status = .fresh
  · exact ⟨.awaitingSignature, by rw [begun_of_fresh fresh, phased.fresh fresh]⟩
  · exact ⟨s.status, begun_of_started fresh⟩

/-- Before the end, the end of the cues has not been reached. -/
lemma Phased.ongoing (phased : s.Phased) (live : s.status ≠ .finished) :
    s.cuesReached? = none := by
  cases phase : s.status with
  | fresh => rw [phased.fresh phase]; rfl
  | awaitingSignature => rw [phased.awaiting phase]; rfl
  | reading => exact phased.reading phase
  | finished => exact absurd phase live

/-- **A call keeps a session in step with its phase.** -/
theorem Phased.calls (phased : s.Phased) (calls : Calls s later visits outcome last) :
    last.Phased := by
  obtain ⟨status, begins⟩ := phased.begun
  cases calls with
  | finished => exact phased
  | unsigned waiting =>
      refine ⟨by simp [waiting], fun _ => ?_, by simp [waiting]⟩
      by_cases fresh : s.status = .fresh
      · exact begun_of_fresh fresh
      · rw [begun_of_started fresh] at waiting ⊢
        exact phased.awaiting waiting
  | unread live =>
      refine ⟨by simp, by simp, fun _ => ?_⟩
      rw [begins]
      exact phased.ongoing live
  | @reads _ _ _ live _ reads =>
      have phase := reads.status
      unfold settled
      split
      · exact ⟨by simp, by simp, by simp⟩
      · next pending =>
        refine ⟨by simp [phase], by simp [phase], fun _ => ?_⟩
        rw [begins] at reads
        exact reads.ongoing (phased.ongoing live) pending

lemma Phased.call (phased : s.Phased) (call : Call) : (s.call call).1.Phased := by
  cases call with
  | step first later => exact phased.calls (calls_stepOver s first later)
  | noteFlush n =>
      refine ⟨fun fresh => ?_, fun waiting => ?_, phased.reading⟩
      · have start : s = {} := phased.fresh fresh
        rw [Session.call, start, Session.noteFlush, Nat.zero_sub]
      · have start : s = { status := .awaitingSignature } := phased.awaiting waiting
        rw [Session.call, start, Session.noteFlush, Nat.zero_sub]
  | takeIndex =>
      refine ⟨fun fresh => ?_, fun waiting => ?_, phased.reading⟩
      · have start : s = {} := phased.fresh fresh
        rw [Session.call, start]
        rfl
      · have start : s = { status := .awaitingSignature } := phased.awaiting waiting
        rw [Session.call, start]
        rfl

/-- **Every state that a session can be in goes with its phase.** -/
theorem Reachable.phased (reachable : Reachable s) : s.Phased := by
  induction reachable with
  | new => exact phased_new
  | call call _ ih => exact ih.call call
  | restart | release => exact phased_new

/-! ## All of it together -/

/-- **The life of a session.**  Whatever the sources of its steps answer, and whatever is flushed or
taken in between: its phase never goes back; at most one step completes the index, and a step
completes it exactly if it enters the last phase; every step after that has nothing to do and
changes nothing.  In every state that a session can be in, also after starting over, nothing is
known before the signature, so that setting a session up loses no cues, and a session that reads has
the end of the cues still ahead of it. -/
theorem session_lifecycle :
    (∀ (s : Session) (calls later : List Call),
      (s.after calls).status.rank ≤ (s.after (calls ++ later)).status.rank ∧
      (s.outcomes calls).count .complete ≤ 1) ∧
    (∀ (s : Session) (first later : ByteSource),
      (s.stepOver first later).outcome = .complete ↔
        s.status ≠ .finished ∧ (s.stepOver first later).session.status = .finished) ∧
    (∀ (s : Session) (first later : ByteSource),
      (s.stepOver first later).outcome = .complete →
      ∀ (calls : List Call) (first' later' : ByteSource),
        let ended := (s.stepOver first later).session.after calls
        ended.stepOver first' later' = ⟨ended, .suspended, []⟩) ∧
    (∀ s : Session, Reachable s →
      (s.status = .fresh → s = {} ∧ s.restart.2 = []) ∧
      (s.status = .awaitingSignature → s = { status := .awaitingSignature }) ∧
      (s.status = .reading → ∀ cuesEnd, s.cuesEnd = some cuesEnd → s.consumed < cuesEnd)) ∧
    ∀ (s : Session) (source : ByteSource), s.stepOver source source = s.step source := by
  refine ⟨fun s calls later => ⟨?_, s.count_complete_le calls⟩, ?_, ?_, ?_, stepOver_self⟩
  · have split : s.after (calls ++ later) = (s.after calls).after later := List.foldl_append ..
    rw [split]
    exact rank_le_after _ later
  · intro s first later
    exact (calls_stepOver s first later).complete_iff
  · intro s first later done calls first' later'
    have finished := ((calls_stepOver s first later).complete_iff.1 done).2
    exact stepOver_of_finished (status_after_of_finished finished calls) first' later'
  · intro s reachable
    have phased := reachable.phased
    refine ⟨fun fresh => ?_, phased.awaiting, fun reads => ?_⟩
    · have start : s = {} := phased.fresh fresh
      exact ⟨start, by rw [start]; rfl⟩
    · exact cuesReached?_eq_none.1 (phased.reading reads)

/-- A stream that has announced five bytes of cues, of which none has arrived. -/
def announcedCues : Bytes :=
  [0x1A, 0x45, 0xDF, 0xA3, 0x80, 0x18, 0x53, 0x80, 0x67, 0xFF, 0x1C, 0x53, 0xBB, 0x6B, 0x85]

/-- Up to its cues the stream leaves a session that reads; the five bytes finish it, and a source
that shows less than it promises changes nothing any more. -/
theorem session_lifecycle_announced_cues :
    let waiting := (Session.stepOver {} (.ofBytes announcedCues) (.ofBytes announcedCues)).session
    let whole := ByteSource.ofBytes (announcedCues ++ [0xEC, 0x83, 0, 0, 0])
    let ended := (waiting.stepOver whole whole).session
    let liar : ByteSource := ⟨9, fun _ => []⟩
    (waiting.status = .reading ∧ waiting.cuesEnd = some 20 ∧ waiting.consumed < 20) ∧
      (waiting.stepOver whole whole).outcome = .complete ∧
      ended.stepOver liar liar = ⟨ended, .suspended, []⟩ := by
  obtain ⟨-, -, still, phases, -⟩ := session_lifecycle
  intro waiting whole ended liar
  have reads : waiting.status = .reading := by decide +kernel
  have announced : waiting.cuesEnd = some 20 := by decide +kernel
  have done : (waiting.stepOver whole whole).outcome = .complete := by decide +kernel
  have reachable : Reachable waiting := .call (.step _ _) .new
  exact ⟨⟨reads, announced, (phases waiting reachable).2.2 reads 20 announced⟩, done,
    still waiting whole whole done [] liar liar⟩

end CueIndex.Session
