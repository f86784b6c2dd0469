import Mathlib
import CueIndex.Proofs.Session.Calls
import CueIndex.Proofs.Session.Shift

/-!
# Reports of interrupted readings

An interrupted reading looks once more at the element in front of which it stopped.  Some of its
reports are about how much of the stream is there, and these come again with every call.  The others
are about the stream itself: an element that is met, an integer that is skipped, a header that can
never be read.  What goes wrong if one of these comes twice, or not at all, is not seen in the state
that the session ends in, so agreement of two calls (`Step.Agrees`) says nothing about it.

* `Event.isLasting`, `lasting` — the reports about the stream itself.
* `filterMap_visit?_lasting`, `messages_warn_lasting` — elements that are met and all warnings and
  errors are among them.
* **`lasting_read_append`**, **`lasting_step_append`** — a reading, or a call, that was interrupted
  reports the rest of what an uninterrupted one reports, once the signature is there.
* `lasting_read_shift`, `lasting_step_shift` — bytes behind the session do not show in them.
-/

namespace CueIndex

/-! ## Lasting reports -/

/-- Whether an event is about the stream itself, and not about how much of it is there or kept. -/
def Event.isLasting : Event → Bool
  | visited _ | integerSkipped .. | malformedHeader .. | signatureHidden _ | signatureMismatch _
  | resumeBeyondEnd .. | bytesHidden .. | cuesOverwritten _ | cuesDropped _ => true
  | headerPending .. | elementPending .. | signaturePending _ | cuesComplete .. | flushed _
  | indexComplete .. => false

/-- The events that are about the stream itself, in order. -/
def lasting (events : List Event) : List Event := events.filter Event.isLasting

lemma lasting_append (one two : List Event) :
    lasting (one ++ two) = lasting one ++ lasting two := List.filter_append ..

/-- Elements that are met are lasting reports. -/
lemma filterMap_visit?_lasting (events : List Event) :
    (lasting events).filterMap Event.visit? = events.filterMap Event.visit? := by
  rw [lasting, List.filterMap_filter]
  refine List.filterMap_congr fun event _ => ?_
  cases event <;> rfl

/-- And so is everything that a warning or an error is made from. -/
lemma messages_warn_lasting (events : List Event) :
    messages .warn (lasting events) = messages .warn events := by
  induction events with
  | nil => rfl
  | cons event events ih =>
      have split : ∀ tail, messages .warn (event :: tail)
          = messages .warn [event] ++ messages .warn tail := by
        intro tail
        rw [messages, ← List.singleton_append, List.filterMap_append, List.filter_append]
        rfl
      rw [split events, ← ih, lasting, List.filter_cons]
      cases isLasting : event.isLasting with
      | true => exact split _
      | false =>
          have silent : messages .warn [event] = [] := by
            cases event <;> first | rfl | cases isLasting
          rw [silent]
          rfl

namespace Session

variable {s : Session} {ahead bytes : Bytes} {error : HeaderError}

/-! ## Readings -/

lemma lasting_read_of_wait {gap : Gap} (s : Session) (move : nextMove ahead = .wait gap) :
    lasting (s.read ahead).events = [] := by
  unfold read
  split <;> simp_all [lasting, Event.isLasting]

lemma lasting_read_of_malformed (s : Session) (move : nextMove ahead = .malformed error) :
    lasting (s.read ahead).events
      = if s.stalled then [] else [.malformedHeader s.consumed error] := by
  unfold read
  split <;> simp_all
  split <;> simp [lasting, Event.isLasting]

/-- **A reading that was interrupted reports the rest** of what a reading of all the bytes reports,
and nothing twice. -/
theorem lasting_read_append (pending : (s.read ahead).outcome ≠ .complete) (more : Bytes) :
    let paused := (s.read ahead).session
    lasting (s.read ahead).events
        ++ lasting (paused.read ((ahead ++ more).drop (paused.resume - s.resume))).events
      = lasting (s.read (ahead ++ more)).events := by
  obtain ⟨events, last, rest, path, -, ended⟩ := read_of_pending pending
  obtain ⟨forward, total, skipped⟩ := path.resume
  have onward : (ahead ++ more).drop (last.resume - s.resume) = rest ++ more := by
    rw [skipped, List.drop_append_of_le_length (by omega)]
  intro paused
  have first : lasting (s.read ahead).events
      = lasting events ++ lasting (last.read rest).events := by
    rw [read_of_path path]
    exact lasting_append _ _
  have whole : lasting (s.read (ahead ++ more)).events
      = lasting events ++ lasting (last.read (rest ++ more)).events := by
    rw [read_of_path (path.append more)]
    exact lasting_append _ _
  rw [first, whole, List.append_assoc]
  congr 1
  rcases ended with ⟨⟨gap, move⟩, place⟩ | ⟨⟨error, move⟩, place⟩
  · rw [last.lasting_read_of_wait move, List.nil_append, show paused = last from place, onward]
  · -- the header is reported by whichever of the two readings sets the flag
    have later : nextMove (rest ++ more) = .malformed error := by
      rw [nextMove_append (by simp [move]), move]
    rw [show paused = { last with stalled := true } from place]
    dsimp only
    rw [onward, last.lasting_read_of_malformed move, last.lasting_read_of_malformed later,
      lasting_read_of_malformed _ later, if_pos rfl, List.append_nil]

/-- **Bytes behind the session do not show** in what a reading reports. -/
theorem lasting_read_shift (s : Session) (n : ℕ) (ahead : Bytes) :
    lasting ((s.shift n).read ahead).events = lasting (s.read ahead).events := by
  obtain ⟨events, last, rest, path, ended⟩ := exists_path s ahead
  rw [read_of_path path, read_of_path (path.shift n)]
  dsimp only
  rw [lasting_append, lasting_append]
  congr 1
  cases move : nextMove rest with
  | wait gap => rw [lasting_read_of_wait _ move, lasting_read_of_wait _ move]
  | malformed error =>
      rw [lasting_read_of_malformed _ move, lasting_read_of_malformed _ move]
      rfl
  | stop header =>
      rw [read_of_stop _ move, read_of_stop _ move]
      rfl
  | take header =>
      obtain ⟨cuesEnd, reached⟩ := Option.ne_none_iff_exists'.1 (ended header move)
      have reached' : ((last.shift n).meet header rest).cuesReached? = some cuesEnd := by
        rw [meet_shift]
        exact reached
      rw [read_of_take_last _ move reached, read_of_take_last _ move reached', meetEvents_shift]
      dsimp only
      rw [lasting_append, lasting_append]
      rfl

/-! ## Calls -/

@[simp] lemma events_settle (read : Step) : (settle read).events = read.events := by
  unfold settle
  split <;> rfl

/-- The reading phase, interrupted. -/
lemma lasting_stepReading_append
    (pending : (s.stepReading (.ofBytes bytes)).outcome ≠ .complete)
    (inside : s.resume ≤ bytes.length) (more : Bytes) :
    lasting (s.stepReading (.ofBytes bytes)).events
        ++ lasting ((s.stepReading (.ofBytes bytes)).session.stepReading
            (.ofBytes (bytes ++ more))).events
      = lasting (s.stepReading (.ofBytes (bytes ++ more))).events := by
  have length : (bytes ++ more).length = bytes.length + more.length := List.length_append
  rw [stepReading_ofBytes inside] at pending ⊢
  rw [outcome_settle] at pending
  rw [settle_of_pending pending]
  have reports := lasting_read_append pending more
  obtain ⟨forward, within⟩ := s.resume_read (bytes.drop s.resume)
  rw [List.length_drop] at within
  rw [← List.drop_append_of_le_length inside] at reports
  dsimp only at reports
  rw [List.drop_drop, Nat.add_sub_of_le forward] at reports
  rw [stepReading_ofBytes (by omega), stepReading_ofBytes (by omega), events_settle, events_settle,
    reports]

lemma step_of_reading (reading : s.status = .reading) (source : ByteSource) :
    s.step source = s.stepReading source := by
  rw [← stepOver_self, stepOver_of_reading reading]

lemma step_of_waiting (waiting : s.begun.status = .awaitingSignature) (source : ByteSource) :
    s.step source = { s.begun.stepSignature source with
      events := s.overwritten ++ (s.begun.stepSignature source).events } := by
  rw [← stepOver_self, stepOver_of_waiting waiting]
  rfl

/-- Where the signature is, a session that waits for it reads. -/
lemma step_of_signed (waiting : s.begun.status = .awaitingSignature)
    (signed : bytes.take 4 = signature) :
    s.step (.ofBytes bytes) =
      let read := ({ s.begun with status := .reading } : Session).stepReading (.ofBytes bytes)
      { read with events := s.overwritten ++ read.events } := by
  rw [step_of_waiting waiting, stepSignature_of_right _ signed]

/-- Too few bytes for the signature are no reason to report anything that lasts. -/
lemma step_of_short (waiting : s.begun.status = .awaitingSignature) (short : bytes.length < 4) :
    s.step (.ofBytes bytes) =
      ⟨s.begun, .signaturePending, s.overwritten ++ [.signaturePending bytes.length]⟩ := by
  rw [step_of_waiting waiting, stepSignature, if_pos (by simpa using short),
    ByteSource.available_ofBytes]

/-- **A call that was interrupted reports the rest** of what a call with all the bytes reports, and
nothing twice, if these bytes start with the signature.  Others are rejected with a warning each
time. -/
theorem lasting_step_append (inside : s.resume ≤ bytes.length)
    (pending : (s.step (.ofBytes bytes)).outcome ≠ .complete) (more : Bytes)
    (signed : (bytes ++ more).take 4 = signature) :
    lasting (s.step (.ofBytes bytes)).events
        ++ lasting ((s.step (.ofBytes bytes)).session.step (.ofBytes (bytes ++ more))).events
      = lasting (s.step (.ofBytes (bytes ++ more))).events := by
  by_cases done : s.status = .finished
  · simp only [step, done]
    rfl
  by_cases reading : s.status = .reading
  · rw [step_of_reading reading] at pending ⊢
    have still := (stepReading_append pending more).1.trans reading
    rw [step_of_reading still, step_of_reading reading]
    exact lasting_stepReading_append pending inside more
  have waiting := begun_waits done reading
  by_cases short : bytes.length < 4
  · -- the second call starts where the first one did, with nothing left to set up
    have started : s.begun.begun = s.begun := begun_of_started (by simp [waiting])
    have silent : s.begun.overwritten = [] := by simp [overwritten, waiting]
    rw [step_of_short waiting short, step_of_signed (by rw [started, waiting]) signed,
      step_of_signed waiting signed, started, silent]
    dsimp only
    rw [List.nil_append, lasting_append, lasting_append, List.append_assoc]
    rfl
  · have right : bytes.take 4 = signature := by
      rwa [List.take_append_of_le_length (Nat.le_of_not_lt short)] at signed
    rw [step_of_signed waiting right] at pending ⊢
    have still := (stepReading_append pending more).1
    rw [step_of_reading still, step_of_signed waiting signed]
    dsimp only
    rw [lasting_append, lasting_append, List.append_assoc, lasting_stepReading_append pending
      (Nat.le_trans s.resume_begun_le inside) more]

/-- **Once the index is complete, further bytes add nothing** to what is reported. -/
theorem lasting_step_append_of_complete (done : (s.step (.ofBytes bytes)).outcome = .complete)
    (more : Bytes) :
    lasting (s.step (.ofBytes (bytes ++ more))).events
      = lasting (s.step (.ofBytes bytes)).events := by
  by_cases finished : s.status = .finished
  · simp only [step, finished]
  by_cases reading : s.status = .reading
  · rw [step_of_reading reading] at done
    rw [step_of_reading reading, step_of_reading reading, stepReading_append_of_complete done]
  have waiting := begun_waits finished reading
  by_cases signed : bytes.take 4 = signature
  · rw [step_of_signed waiting signed] at done
    rw [step_of_signed waiting signed, step_of_signed waiting (signature_append signed more),
      stepReading_append_of_complete done]
  · obtain ⟨outcome, events, all, refusal⟩ := s.begun.stepSignature_of_unsigned signed
    rw [step_of_waiting waiting, all] at done
    rcases refusal with rfl | rfl <;> cases done

/-- **Bytes behind a session that reads do not show** in what a call reports. -/
theorem lasting_step_shift (reading : s.status = .reading) (inside : s.resume ≤ bytes.length)
    (front : Bytes) :
    lasting ((s.shift front.length).step (.ofBytes (front ++ bytes))).events
      = lasting (s.step (.ofBytes bytes)).events := by
  have shifted : (s.shift front.length).status = .reading := reading
  have within : (s.shift front.length).resume ≤ (front ++ bytes).length := by
    rw [resume_shift, List.length_append]
    omega
  rw [step_of_reading reading, step_of_reading shifted, stepReading_ofBytes inside,
    stepReading_ofBytes within, events_settle, events_settle, resume_shift, Nat.add_comm,
    List.drop_append, List.drop_eq_nil_of_le (by omega), List.nil_append,
    Nat.add_sub_cancel_left, lasting_read_shift]

end Session

end CueIndex
