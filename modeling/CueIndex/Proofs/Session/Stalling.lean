import Mathlib
import CueIndex.Proofs.Session.Calls

/-!
# Sessions that stall

In front of a header that no further bytes can mend, a session sets a flag.  The flag is never taken
back and never looked at again but for keeping quiet, so that it could outlive its reason or come
too late for it.  It does neither: what it says about the bytes stays true, and each session says it
once.

* `nextMove_malformed_iff` — a header cannot be mended exactly if a width is out of range.
* `Session.Blocked` — a session that reads in front of such a header.  It is about the bytes, not
  about the flag.
* **`CallsOver.stalled_iff`** — after a call the flag is set exactly if the session is blocked, as
  long as it was not set without reason before.
* `Blocked.append`, `Blocked.noteFlush`, **`step_of_blocked`** — bytes that arrive or are let go do
  not help, and a call to a blocked session that has stalled does nothing at all.
* `Step.alarms`, **`alarms_step`** — a call reports a malformed header exactly if it sets the flag.
* `messages_isMalformedHeader` — and the report is one warning.
-/

namespace CueIndex

/-- A header can never be read exactly if the width of one of its fields is out of range. -/
theorem nextMove_malformed_iff {ahead : Bytes} : (∃ error, nextMove ahead = .malformed error) ↔
    ∃ width, decodeHeader ahead = .error (.invalidWidth width) := by
  unfold nextMove
  cases decodeHeader ahead with
  | error error => cases error <;> simp [HeaderError.isRecoverable]
  | ok header =>
      dsimp only
      split
      · split <;> simp
      · simp

namespace Session

variable {s last : Session} {ahead bytes : Bytes} {visits : List Visit} {outcome : Outcome}

/-! ## The flag and the bytes ahead -/

@[simp] lemma stalled_meet (s : Session) (header : Header) (ahead : Bytes) :
    (s.meet header ahead).stalled = s.stalled := by
  simp [Session.meet, visit, advance]

/-- A flag that was set for a malformed header ahead is not set where something else is ahead. -/
lemma stalled_eq_false {move : Move}
    (before : s.stalled = true → ∃ error, nextMove ahead = .malformed error)
    (next : nextMove ahead = move) (other : ∀ error, move ≠ .malformed error) :
    s.stalled = false := by
  refine Bool.eq_false_iff.2 fun stalled => ?_
  obtain ⟨error, malformed⟩ := before stalled
  exact other error (next.symm.trans malformed)

/-- **A reading sets the flag exactly if it ends in front of a malformed header**, and so it does if
the flag was set for such a header before. -/
theorem Reads.stalled_iff (reads : Reads s ahead visits outcome last)
    (before : s.stalled = true → ∃ error, nextMove ahead = .malformed error) :
    last.stalled = true ↔ outcome ≠ .complete ∧
      ∃ error, nextMove (ahead.drop (last.resume - s.resume)) = .malformed error := by
  induction reads with
  | wait move => simp [move, stalled_eq_false before move]
  | malformed move => simp [move]
  | stop move => simp [stalled_eq_false before move]
  | last move => simp [stalled_eq_false before move]
  | @meet s last ahead header _ _ move ongoing later ih =>
      have quiet : s.stalled = false := stalled_eq_false before move (by simp)
      have forward := later.resume_le
      rw [resume_meet] at forward
      have skipped : header.advance + (last.resume - (s.resume + header.advance))
          = last.resume - s.resume := by omega
      rw [ih fun stalled => absurd stalled (by simp [quiet]), resume_meet, List.drop_drop, skipped]

/-- **A session that reads in front of a malformed header**, given the bytes of its source. -/
def Blocked (s : Session) (bytes : Bytes) : Prop :=
  s.status = .reading ∧ ∃ error, nextMove (bytes.drop s.resume) = .malformed error

/-- **After a call the flag is set exactly if the session is blocked**, as long as it was not set
without reason before. -/
theorem CallsOver.stalled_iff (calls : CallsOver s bytes outcome last)
    (inside : s.resume ≤ bytes.length) (before : s.stalled = true → s.Blocked bytes) :
    last.stalled = true ↔ last.Blocked bytes := by
  have begins : s.begun.stalled = true → s.begun = s ∧ s.Blocked bytes := by
    intro stalled
    by_cases fresh : s.status = .fresh
    · rw [begun_of_fresh fresh] at stalled
      cases stalled
    · have same := begun_of_started fresh
      rw [same] at stalled
      exact ⟨same, before stalled⟩
  cases calls with
  | finished done =>
      constructor
      · exact before
      · intro blocked
        exact absurd (blocked.1.symm.trans done) (by simp)
  | unsigned waiting =>
      constructor
      · intro stalled
        exact absurd (begins stalled).2.1 (not_reading_of_begun_waits waiting).1
      · intro blocked
        exact absurd (blocked.1.symm.trans waiting) (by simp)
  | beyond _ outside =>
      exact absurd outside (Nat.not_lt_of_le (Nat.le_trans s.resume_begun_le inside))
  | @reads _ _ last _ start reads =>
      have forward : s.begun.resume ≤ last.resume := reads.resume_le
      have flag := reads.stalled_iff fun stalled => by
        obtain ⟨same, -, malformed⟩ := begins stalled
        rwa [same]
      rw [List.drop_drop, Nat.add_sub_of_le forward] at flag
      unfold settled
      split
      · next done => simp [Blocked, flag, done]
      · next pending => simp [Blocked, flag, pending, reads.status]

/-! ## Nothing helps a blocked session -/

/-- There is something ahead of a blocked session. -/
lemma Blocked.inside (blocked : s.Blocked bytes) : s.resume ≤ bytes.length := by
  obtain ⟨-, error, malformed⟩ := blocked
  refine Nat.le_of_not_lt fun outside => ?_
  rw [List.drop_of_length_le outside.le] at malformed
  cases malformed

/-- Bytes that arrive do not help. -/
lemma Blocked.append (blocked : s.Blocked bytes) (more : Bytes) : s.Blocked (bytes ++ more) := by
  have inside := blocked.inside
  obtain ⟨reading, error, malformed⟩ := blocked
  refine ⟨reading, error, ?_⟩
  rw [List.drop_append_of_le_length inside, nextMove_append (by simp [malformed]), malformed]

/-- Nor does letting go of bytes that have been taken in. -/
lemma Blocked.noteFlush (blocked : s.Blocked bytes) {n : ℕ} (behind : n ≤ s.resume) :
    (s.noteFlush n).Blocked (bytes.drop n) := by
  obtain ⟨reading, error, malformed⟩ := blocked
  refine ⟨reading, error, ?_⟩
  rwa [Session.noteFlush, List.drop_drop, Nat.add_sub_of_le behind]

lemma read_of_stalled {error : HeaderError} (stalled : s.stalled = true)
    (malformed : nextMove ahead = .malformed error) : s.read ahead = ⟨s, .suspended, []⟩ := by
  unfold read
  split <;> simp_all

/-- **A call to a session that has stalled and is blocked does nothing**, and reports nothing. -/
theorem step_of_blocked (stalled : s.stalled = true) (blocked : s.Blocked bytes) :
    s.step (.ofBytes bytes) = ⟨s, .suspended, []⟩ := by
  have inside := blocked.inside
  obtain ⟨reading, error, malformed⟩ := blocked
  simp only [step, reading]
  rw [stepReading_ofBytes inside, read_of_stalled stalled malformed]
  rfl

end Session

/-! ## One report -/

/-- Whether an event reports a malformed header. -/
def Event.isMalformedHeader : Event → Bool
  | malformedHeader .. => true
  | _ => false

/-- How many malformed headers a call reports. -/
def Step.alarms (step : Step) : ℕ := step.events.countP Event.isMalformedHeader

namespace Session

variable {s : Session} {source : ByteSource}

/-- Elements that are met are no malformed headers. -/
lemma countP_visitEvents (visit : Visit) (payload : Bytes) :
    (visitEvents visit payload).countP Event.isMalformedHeader = 0 := by
  unfold visitEvents
  split
  · split <;> rfl
  · rfl

/-- **A reading reports a malformed header exactly if it sets the flag.** -/
theorem alarms_read (s : Session) (ahead : Bytes) :
    (s.read ahead).alarms + s.stalled.toNat = (s.read ahead).session.stalled.toNat := by
  fun_induction Session.read s ahead with
  | case1 | case2 | case3 | case5 => simp [Step.alarms, Event.isMalformedHeader]
  | case4 s ahead error move unset => simp [Step.alarms, Event.isMalformedHeader, unset]
  | case6 s ahead header move payload consumed next events cuesEnd reached =>
      have kept : next.stalled = s.stalled := s.stalled_meet header ahead
      have silent : events.countP Event.isMalformedHeader = 0 := countP_visitEvents _ _
      simp [Step.alarms, silent, kept, Event.isMalformedHeader]
  | case7 s ahead header move payload consumed next events ongoing later ih =>
      have kept : next.stalled = s.stalled := s.stalled_meet header ahead
      have silent : events.countP Event.isMalformedHeader = 0 := countP_visitEvents _ _
      simp only [Step.alarms, List.countP_append, silent, Nat.zero_add]
      rw [← kept]
      exact ih

/-- And so does a call that reads, -/
lemma alarms_stepReading (s : Session) (source : ByteSource) :
    (s.stepReading source).alarms + s.stalled.toNat
      = (s.stepReading source).session.stalled.toNat := by
  unfold stepReading
  dsimp only
  split
  · simp [Step.alarms, Event.isMalformedHeader]
  · split
    · simp [Step.alarms, Event.isMalformedHeader]
    · have reported := s.alarms_read ((source.view source.available).drop s.resume)
      split <;> exact reported

/-- one that looks for the signature first, -/
lemma alarms_stepSignature (s : Session) (source : ByteSource) :
    (s.stepSignature source).alarms + s.stalled.toNat
      = (s.stepSignature source).session.stalled.toNat := by
  unfold stepSignature
  dsimp only
  split
  · simp [Step.alarms, Event.isMalformedHeader]
  · split
    · simp [Step.alarms, Event.isMalformedHeader]
    · split
      · exact alarms_stepReading { s with status := .reading } source
      · simp [Step.alarms, Event.isMalformedHeader]

/-- The flag of the session that a call starts from. -/
lemma stalled_begun (started : s.stalled = true → s.status ≠ .fresh) :
    s.begun.stalled = s.stalled := by
  by_cases fresh : s.status = .fresh
  · rw [begun_of_fresh fresh]
    exact (Bool.eq_false_iff.2 fun stalled => started stalled fresh).symm
  · rw [begun_of_started fresh]

/-- **and every other, from the session that it starts from.** -/
theorem alarms_step (s : Session) (source : ByteSource) :
    (s.step source).alarms + s.begun.stalled.toNat = (s.step source).session.stalled.toNat := by
  rw [← stepOver_self]
  by_cases done : s.status = .finished
  · rw [begun_of_started (by simp [done]), stepOver_of_finished done]
    simp [Step.alarms]
  · by_cases reading : s.status = .reading
    · rw [begun_of_started (by simp [reading]), stepOver_of_reading reading]
      exact s.alarms_stepReading source
    · have silent : s.overwritten.countP Event.isMalformedHeader = 0 := by
        refine List.countP_eq_zero.2 fun event among => ?_
        obtain ⟨cueCount, rfl⟩ := eq_of_mem_overwritten among
        simp [Event.isMalformedHeader]
      rw [stepOver_of_waiting (begun_waits done reading), Step.alarms, List.countP_append, silent,
        Nat.zero_add]
      exact s.begun.alarms_stepSignature source

end Session

/-! ## The warning -/

/-- Whether a message is the warning of a malformed header. -/
def Message.isMalformedHeader (m : Message) : Bool :=
  m.severity = .warn && "malformed element header".toList.isPrefixOf m.text.toList

/-- Only the report of a malformed header has this message. -/
lemma Event.any_message?_isMalformedHeader (event : Event) :
    event.message?.any Message.isMalformedHeader = event.isMalformedHeader := by
  have text : ∀ words : String, toString words = words := fun _ => rfl
  cases event with
  | visited visit =>
      simp only [message?, isMalformedHeader]
      unfold Visit.message?
      dsimp only
      split <;> simp [Message.isMalformedHeader]
  | integerSkipped | malformedHeader | signatureMismatch =>
      simp [message?, isMalformedHeader, Message.isMalformedHeader, String.toList_append, text,
        List.isPrefixOf]
  | _ => simp [message?, isMalformedHeader, Message.isMalformedHeader]

/-- **Every report of a malformed header is one warning, and no other message is.** -/
theorem countP_messages_isMalformedHeader (events : List Event) :
    (messages .warn events).countP Message.isMalformedHeader
      = events.countP Event.isMalformedHeader := by
  rw [messages, List.countP_filter, List.countP_filterMap]
  refine List.countP_congr fun event _ => ?_
  rw [← event.any_message?_isMalformedHeader]
  cases event.message? with
  | none => simp
  | some message =>
      obtain ⟨severity, text⟩ := message
      cases severity <;> simp [Message.isMalformedHeader, Severity.rank]

end CueIndex
