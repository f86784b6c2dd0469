import Mathlib
import CueIndex.Proofs.Session.Resumption

/-!
# Places counted from further back

A session knows where the next element starts only as a place in its source, and a source that
bytes are flushed from starts further on in the stream.  `Session.shift` counts the place from
further back.  A session that reads the stream is not affected by the bytes behind it, so shifting
it and putting bytes in front of its source leads to the shifted result (`step_shift`).
-/

namespace CueIndex.Session

/-- The session with its place counted from `n` bytes further back. -/
def shift (s : Session) (n : ℕ) : Session := { s with resume := s.resume + n }

variable {s last : Session} {ahead rest bytes : Bytes} {events : List Event}

@[simp] lemma resume_shift (s : Session) (n : ℕ) : (s.shift n).resume = s.resume + n := rfl

lemma shift_shift (s : Session) (m n : ℕ) : (s.shift m).shift n = s.shift (n + m) := by
  simp only [shift, Session.mk.injEq, true_and, and_true]
  omega

/-- Going back by bytes behind the session and counting from further back undo each other. -/
lemma shift_noteFlush {n : ℕ} (behind : n ≤ s.resume) : (s.noteFlush n).shift n = s := by
  simp only [shift, noteFlush]
  rw [Nat.sub_add_cancel behind]

@[simp] lemma meet_shift (s : Session) (n : ℕ) (header : Header) (ahead : Bytes) :
    (s.shift n).meet header ahead = (s.meet header ahead).shift n := by
  have recorded : ∀ payload, (s.shift n).record header payload
      = (s.record header payload).shift n := by
    intro payload
    unfold record store
    cases header.kind? with
    | none => rfl
    | some kind => cases kind <;> dsimp only <;> (try split) <;> rfl
  rw [meet, meet, visit, visit, recorded, advance, advance, shift, shift]
  simp only [Nat.add_right_comm]

@[simp] lemma meetEvents_shift (s : Session) (n : ℕ) (header : Header) (ahead : Bytes) :
    (s.shift n).meetEvents header ahead = s.meetEvents header ahead := by
  unfold meetEvents
  rw [meet_shift]
  rfl

lemma Path.shift (path : Path s ahead events last rest) (n : ℕ) :
    Path (s.shift n) ahead events (last.shift n) rest := by
  induction path with
  | here s ahead => exact .here _ _
  | @meet s last ahead rest header events move ongoing later ih =>
      rw [← s.meetEvents_shift n]
      rw [← meet_shift] at ih
      refine .meet move ?_ ih
      rw [meet_shift]
      exact ongoing

/-- **A reading is not affected by the bytes behind the session.** -/
theorem read_shift (s : Session) (n : ℕ) (ahead : Bytes) :
    ((s.shift n).read ahead).session = (s.read ahead).session.shift n ∧
      ((s.shift n).read ahead).outcome = (s.read ahead).outcome := by
  by_cases pending : (s.read ahead).outcome = .complete
  · obtain ⟨events, last, rest, path, ended⟩ := read_of_complete pending
    rw [read_of_path path, read_of_path (path.shift n)]
    rcases ended with ⟨header, move⟩ | ⟨header, cuesEnd, move, reached⟩
    · simp only [read_of_stop _ move, and_self]
    · have reached' : ((last.shift n).meet header rest).cuesReached? = some cuesEnd := by
        rw [meet_shift]
        exact reached
      simp only [read_of_take_last _ move reached, read_of_take_last _ move reached', meet_shift,
        and_self]
  · obtain ⟨events, last, rest, path, suspended, ended⟩ := read_of_pending pending
    rw [suspended, read_of_path (path.shift n)]
    rcases ended with ⟨⟨gap, move⟩, place⟩ | ⟨⟨error, move⟩, place⟩
    · obtain ⟨events', all⟩ := (last.shift n).read_of_wait move
      simp only [all, place, and_self]
    · obtain ⟨events', all⟩ := (last.shift n).read_of_malformed move
      simp only [all, place]
      exact ⟨rfl, trivial⟩

/-- **Nor is a call to a session that reads.**  The bytes `front` stand in front of its source. -/
theorem step_shift (s : Session) (reading : s.status = .reading) (front bytes : Bytes) :
    ((s.shift front.length).step (.ofBytes (front ++ bytes))).session
        = (s.step (.ofBytes bytes)).session.shift front.length ∧
      ((s.shift front.length).step (.ofBytes (front ++ bytes))).outcome
        = (s.step (.ofBytes bytes)).outcome := by
  have shifted : (s.shift front.length).status = .reading := reading
  simp only [step, reading, shifted]
  by_cases inside : s.resume ≤ bytes.length
  · rw [stepReading_ofBytes inside,
      stepReading_ofBytes (by rw [resume_shift, List.length_append]; omega), resume_shift,
      Nat.add_comm, List.drop_append]
    obtain ⟨session, outcome⟩ := s.read_shift front.length (bytes.drop s.resume)
    rw [List.drop_eq_nil_of_le (by omega), List.nil_append, Nat.add_sub_cancel_left]
    refine ⟨?_, by rw [outcome_settle, outcome_settle, outcome]⟩
    unfold settle
    rw [outcome]
    split
    · simp only [session]
      rfl
    · exact session
  · have outside : ¬ s.resume + front.length ≤ (front ++ bytes).length := by
      rw [List.length_append]; omega
    simp only [stepReading, ByteSource.available_ofBytes, resume_shift, Nat.lt_of_not_le inside,
      Nat.lt_of_not_le outside, if_true, and_self]

end CueIndex.Session
