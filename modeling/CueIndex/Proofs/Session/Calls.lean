import Mathlib
import CueIndex.Proofs.Session.Course
import CueIndex.Proofs.Session.Resumption

/-!
# Calls to a session

A call asks its source at most twice: for the signature, and for the bytes to read.  Nothing makes
the two answers fit together, and a source that changes in between is as good as two sources.  The
laws of a call are about all of them, so the call is taken apart here over two sources, once and for
every phase.

* `Session.stepOver` — a call over two sources; **`stepOver_self`** says that `Session.step` is the
  call over one source twice.
* `Session.begun` — the session that a call starts from; `stepOver_of_waiting` and its two
  companions say what a call does in each phase.
* **`Session.Calls`**, `calls_stepOver` — everything that a call can lead to: nothing in a finished
  session, a refusal, or a reading.
* `Session.CallsOver`, `callsOver_step` — the same for a byte string, which keeps its word.
* `reads_readWhole`, `readWhole_of_reads` — one call over a whole stream is one reading of it.
-/

namespace CueIndex

/-- The outcomes of a call that its source keeps from reading. -/
def Outcome.isRefusal : Outcome → Bool
  | .suspended | .complete => false
  | .unrecognised | .resumeBeyondEnd | .signaturePending | .bytesHidden => true

namespace Session

/-! ## Two sources -/

/-- The signature phase, over one source for the signature and another for the bytes to read. -/
def stepSignatureOver (s : Session) (first later : ByteSource) : Step :=
  if first.available < 4 then
    ⟨s, .signaturePending, [.signaturePending first.available]⟩
  else
    let shown := first.view 4
    if shown.length < 4 then ⟨s, .bytesHidden, [.signatureHidden shown.length]⟩
    else if shown.take 4 = signature then { s with status := .reading }.stepReading later
    else ⟨s, .unrecognised, [.signatureMismatch shown]⟩

/-- **A call over one source for the signature and another for the bytes to read.** -/
def stepOver (s : Session) (first later : ByteSource) : Step :=
  match s.status with
  | .fresh =>
    let (fresh, lost) := s.restart
    let stepped := { fresh with status := .awaitingSignature }.stepSignatureOver first later
    { stepped with events := lost ++ stepped.events }
  | .awaitingSignature => s.stepSignatureOver first later
  | .reading => s.stepReading later
  | .finished => ⟨s, .suspended, []⟩

/-- **A source that does not change is asked twice.** -/
theorem stepOver_self (s : Session) (source : ByteSource) :
    s.stepOver source source = s.step source := by
  unfold stepOver step
  cases s.status <;> rfl

/-! ## What a call can lead to -/

/-- The session that a call starts from: a fresh one is set up first. -/
def begun (s : Session) : Session :=
  match s.status with
  | .fresh => { status := .awaitingSignature }
  | _ => s

/-- What a reading leaves behind: a complete index finishes the session. -/
def settled (last : Session) (outcome : Outcome) : Session :=
  if outcome = .complete then { last with status := .finished } else last

@[simp] lemma resume_settled (last : Session) (outcome : Outcome) :
    (last.settled outcome).resume = last.resume := by
  unfold settled
  split <;> rfl

lemma session_settle (read : Step) :
    (settle read).session = read.session.settled read.outcome := by
  unfold settle settled
  split
  · next done => rw [if_pos done]
  · next pending => rw [if_neg pending]

/-- **Everything that a call can lead to**: the elements that are met, the outcome and the session
that it leaves, given the source of the bytes to read. -/
inductive Calls (s : Session) (later : ByteSource) : List Visit → Outcome → Session → Prop
  /-- A finished session stays as it is. -/
  | finished (done : s.status = .finished) : Calls s later [] .suspended s
  /-- There is no signature to go by. -/
  | unsigned {outcome : Outcome} (waiting : s.begun.status = .awaitingSignature)
      (refusal : outcome.isRefusal = true) : Calls s later [] outcome s.begun
  /-- The source does not fit the session or itself. -/
  | unread {outcome : Outcome} (live : s.status ≠ .finished)
      (refusal : outcome.isRefusal = true) :
      Calls s later [] outcome { s.begun with status := .reading }
  /-- The bytes that the source shows are read. -/
  | reads {visits : List Visit} {outcome : Outcome} {last : Session}
      (live : s.status ≠ .finished) (inside : s.begun.resume ≤ later.available)
      (reads : Reads { s.begun with status := .reading }
        ((later.view later.available).drop s.begun.resume) visits outcome last) :
      Calls s later visits outcome (last.settled outcome)

variable {s : Session} {first later : ByteSource} {visits : List Visit} {outcome : Outcome}
  {last : Session} {ahead : Bytes}

/-! ### Where a reading leaves the session -/

/-- A reading moves the session forward. -/
lemma Reads.resume_le (reads : Reads s ahead visits outcome last) : s.resume ≤ last.resume := by
  obtain ⟨-, -, rfl⟩ := reads.eq_read
  exact (s.resume_read ahead).1

/-- And not past the bytes ahead. -/
lemma Reads.resume_within (reads : Reads s ahead visits outcome last) :
    last.resume ≤ s.resume + ahead.length := by
  obtain ⟨-, -, rfl⟩ := reads.eq_read
  exact (s.resume_read ahead).2

/-! ### Where a call starts -/

lemma begun_of_fresh (fresh : s.status = .fresh) :
    s.begun = { status := .awaitingSignature } := by
  rw [begun, fresh]

lemma begun_of_started (started : s.status ≠ .fresh) : s.begun = s := by
  unfold begun
  split
  · next fresh => exact absurd fresh started
  · rfl

lemma resume_begun_le (s : Session) : s.begun.resume ≤ s.resume := by
  unfold begun
  split
  · exact Nat.zero_le _
  · exact Nat.le_refl _

/-- A session waits for the signature at the start of a call unless it has recognised it before. -/
lemma begun_waits (live : s.status ≠ .finished) (waits : s.status ≠ .reading) :
    s.begun.status = .awaitingSignature := by
  cases phase : s.status with
  | fresh => rw [begun_of_fresh phase]
  | awaitingSignature => rw [begun_of_started (by simp [phase]), phase]
  | reading => exact absurd phase waits
  | finished => exact absurd phase live

lemma not_reading_of_begun_waits (waiting : s.begun.status = .awaitingSignature) :
    s.status ≠ .reading ∧ s.status ≠ .finished := by
  constructor <;> intro phase <;>
    rw [begun_of_started (by simp [phase]), phase] at waiting <;> cases waiting

lemma begun_of_reading (reading : s.status = .reading) :
    ({ s.begun with status := .reading } : Session) = s := by
  rw [begun_of_started (by simp [reading]), ← reading]

/-! ### One equation for each phase

A law of calls has three cases by these, since a fresh session and one that waits are alike from
where the call starts. -/

/-- What setting a session up reports. -/
def overwritten (s : Session) : List Event :=
  match s.status with
  | .fresh => s.restart.2
  | _ => []

lemma eq_of_mem_overwritten {event : Event} (among : event ∈ s.overwritten) :
    ∃ cueCount, event = .cuesOverwritten cueCount := by
  unfold overwritten restart at among
  split at among
  · split at among
    · cases among
    · exact ⟨_, List.mem_singleton.1 among⟩
  · cases among

lemma stepOver_of_finished (done : s.status = .finished) (first later : ByteSource) :
    s.stepOver first later = ⟨s, .suspended, []⟩ := by
  simp only [stepOver, done]

lemma stepOver_of_reading (reading : s.status = .reading) (first later : ByteSource) :
    s.stepOver first later = s.stepReading later := by
  simp only [stepOver, reading]

lemma stepOver_of_waiting (waiting : s.begun.status = .awaitingSignature)
    (first later : ByteSource) :
    s.stepOver first later = { s.begun.stepSignatureOver first later with
      events := s.overwritten ++ (s.begun.stepSignatureOver first later).events } := by
  obtain ⟨notReading, live⟩ := not_reading_of_begun_waits waiting
  cases phase : s.status with
  | fresh =>
      rw [begun_of_fresh phase]
      simp only [stepOver, overwritten, phase]
      rfl
  | awaitingSignature =>
      rw [begun_of_started (by simp [phase])]
      simp only [stepOver, overwritten, phase, List.nil_append]
  | reading => exact absurd phase notReading
  | finished => exact absurd phase live

/-! ### The cases -/

/-- A call in the reading phase, taken apart. -/
lemma calls_stepReading (live : s.status ≠ .finished) (later : ByteSource) :
    let stepped := ({ s.begun with status := .reading } : Session).stepReading later
    Calls s later stepped.visits stepped.outcome stepped.session := by
  intro stepped
  unfold stepped stepReading
  dsimp only
  split
  · exact .unread live rfl
  · next inside =>
    split
    · exact .unread live rfl
    · have reading := Calls.reads live (Nat.le_of_not_lt inside)
        (reads_read { s.begun with status := .reading }
          ((later.view later.available).drop s.begun.resume))
      unfold settled at reading
      split
      · next done => simpa only [Step.visits, done, if_true] using reading
      · next pending => simpa only [if_neg pending] using reading

/-- A call in the signature phase, taken apart. -/
lemma calls_stepSignatureOver (waiting : s.begun.status = .awaitingSignature)
    (live : s.status ≠ .finished) (first later : ByteSource) :
    let stepped := s.begun.stepSignatureOver first later
    Calls s later stepped.visits stepped.outcome stepped.session := by
  intro stepped
  unfold stepped stepSignatureOver
  dsimp only
  split
  · exact .unsigned waiting rfl
  · split
    · exact .unsigned waiting rfl
    · split
      · exact calls_stepReading live later
      · exact .unsigned waiting rfl

/-- **A call, taken apart.** -/
theorem calls_stepOver (s : Session) (first later : ByteSource) :
    Calls s later (s.stepOver first later).visits (s.stepOver first later).outcome
      (s.stepOver first later).session := by
  by_cases done : s.status = .finished
  · rw [stepOver_of_finished done]
    exact .finished done
  · by_cases reading : s.status = .reading
    · have called := calls_stepReading done later
      rw [begun_of_reading reading] at called
      rwa [stepOver_of_reading reading]
    · have waiting := begun_waits done reading
      have silent : s.overwritten.filterMap Event.visit? = [] := by
        refine List.filterMap_eq_nil_iff.2 fun event among => ?_
        obtain ⟨cueCount, rfl⟩ := eq_of_mem_overwritten among
        rfl
      rw [stepOver_of_waiting waiting, Step.visits, List.filterMap_append, silent]
      exact calls_stepSignatureOver waiting done first later

/-- The same for a source that does not change. -/
lemma calls_step (s : Session) (source : ByteSource) :
    Calls s source (s.step source).visits (s.step source).outcome (s.step source).session := by
  rw [← stepOver_self]
  exact calls_stepOver s source source

lemma Calls.visits_of_refusal (calls : Calls s later visits outcome last)
    (refusal : outcome.isRefusal = true) : visits = [] := by
  cases calls with
  | finished | unsigned | unread => rfl
  | reads _ _ reads =>
      rcases reads.outcome_eq with rfl | rfl <;> cases refusal

lemma Calls.reads_of_accepted (calls : Calls s later visits outcome last)
    (live : s.status ≠ .finished) (accepted : outcome.isRefusal = false) :
    ∃ read, Reads { s.begun with status := .reading }
      ((later.view later.available).drop s.begun.resume) visits outcome read ∧
      last = read.settled outcome := by
  cases calls with
  | finished done => exact absurd done live
  | unsigned _ refusal | unread _ refusal => exact absurd (refusal.symm.trans accepted) (by simp)
  | reads _ _ reads => exact ⟨_, reads, rfl⟩

/-! ## A call over a byte string -/

/-- **Everything that a call over a byte string can lead to.**  Such a source keeps its word, so the
call is refused only for want of a signature, or because the next element starts behind the last
byte. -/
inductive CallsOver (s : Session) (bytes : Bytes) : Outcome → Session → Prop
  /-- A finished session stays as it is. -/
  | finished (done : s.status = .finished) : CallsOver s bytes .suspended s
  /-- There are too few bytes for the signature, or they are others. -/
  | unsigned {outcome : Outcome} (waiting : s.begun.status = .awaitingSignature)
      (other : bytes.take 4 ≠ signature)
      (refusal : outcome = .signaturePending ∨ outcome = .unrecognised) :
      CallsOver s bytes outcome s.begun
  /-- The next element starts behind the last byte. -/
  | beyond (live : s.status ≠ .finished) (outside : bytes.length < s.begun.resume) :
      CallsOver s bytes .resumeBeyondEnd { s.begun with status := .reading }
  /-- The bytes from the place of the session on are read. -/
  | reads {visits : List Visit} {outcome : Outcome} {last : Session}
      (live : s.status ≠ .finished) (inside : s.begun.resume ≤ bytes.length)
      (reads : Reads { s.begun with status := .reading } (bytes.drop s.begun.resume)
        visits outcome last) :
      CallsOver s bytes outcome (last.settled outcome)

section Over

variable {bytes : Bytes}

/-- A call in the reading phase over a byte string, taken apart. -/
lemma callsOver_stepReading (live : s.status ≠ .finished) (bytes : Bytes) :
    let stepped := ({ s.begun with status := .reading } : Session).stepReading (.ofBytes bytes)
    CallsOver s bytes stepped.outcome stepped.session := by
  intro stepped
  by_cases inside : s.begun.resume ≤ bytes.length
  · have all : stepped = _ := stepReading_ofBytes inside
    rw [all, outcome_settle, session_settle]
    exact .reads live inside (reads_read _ _)
  · have outside : bytes.length < s.begun.resume := Nat.lt_of_not_le inside
    have all : stepped = _ := stepReading_of_beyond outside
    rw [all]
    exact .beyond live outside

/-- A call in the signature phase over a byte string, taken apart. -/
lemma callsOver_stepSignature (waiting : s.begun.status = .awaitingSignature)
    (live : s.status ≠ .finished) (bytes : Bytes) :
    let stepped := s.begun.stepSignature (.ofBytes bytes)
    CallsOver s bytes stepped.outcome stepped.session := by
  intro stepped
  by_cases right : bytes.take 4 = signature
  · have all : stepped = _ := s.begun.stepSignature_of_right right
    rw [all]
    exact callsOver_stepReading live bytes
  · obtain ⟨outcome, events, all, refusal⟩ := s.begun.stepSignature_of_unsigned right
    rw [show stepped = _ from all]
    exact .unsigned waiting right refusal

/-- **A call over a byte string, taken apart.** -/
theorem callsOver_step (s : Session) (bytes : Bytes) :
    CallsOver s bytes (s.step (.ofBytes bytes)).outcome (s.step (.ofBytes bytes)).session := by
  rw [← stepOver_self]
  by_cases done : s.status = .finished
  · rw [stepOver_of_finished done]
    exact .finished done
  · by_cases reading : s.status = .reading
    · have called := callsOver_stepReading done bytes
      rw [begun_of_reading reading] at called
      rwa [stepOver_of_reading reading]
    · have waiting := begun_waits done reading
      rw [stepOver_of_waiting waiting]
      exact callsOver_stepSignature waiting done bytes

end Over

end Session

/-! ## A whole stream, taken apart -/

section Whole

variable {stream : Bytes} {visits : List Visit} {outcome : Outcome} {last : Session}

lemma calls_readWhole (stream : Bytes) : Session.Calls {} (.ofBytes stream)
    (readWhole stream).visits (readWhole stream).outcome (readWhole stream).session :=
  Session.calls_step {} (.ofBytes stream)

/-- Without the signature nothing is met. -/
lemma readWhole_of_unsigned (wrong : stream.take 4 ≠ Session.signature) :
    (readWhole stream).visits = [] ∧ (readWhole stream).outcome ≠ .complete := by
  by_cases short : stream.length < 4
  · have outcome := (readWhole_of_short short).2
    exact ⟨(calls_readWhole stream).visits_of_refusal (by rw [outcome]; rfl), by rw [outcome]; simp⟩
  · have outcome := (readWhole_of_wrong (Nat.le_of_not_lt short) wrong).2
    exact ⟨(calls_readWhole stream).visits_of_refusal (by rw [outcome]; rfl), by rw [outcome]; simp⟩

/-- **A stream that starts with the signature is read.** -/
theorem reads_readWhole (right : stream.take 4 = Session.signature) :
    ∃ last, Session.Reads { status := .reading } stream (readWhole stream).visits
      (readWhole stream).outcome last ∧
      (readWhole stream).session = last.settled (readWhole stream).outcome := by
  have outcome := (readWhole_of_right right).outcome
  rw [Session.outcome_settle] at outcome
  have accepted : (readWhole stream).outcome.isRefusal = false := by
    have ends := (Session.reads_read { status := .reading } stream).outcome_eq
    rw [outcome]
    rcases ends with ends | ends <;> rw [ends] <;> rfl
  obtain ⟨last, reads, session⟩ :=
    (calls_readWhole stream).reads_of_accepted (by simp) accepted
  rw [ByteSource.available_ofBytes, ByteSource.view_ofBytes, List.take_length] at reads
  exact ⟨last, reads, session⟩

/-- And its reading is all that the call does. -/
theorem readWhole_of_reads (right : stream.take 4 = Session.signature)
    (reads : Session.Reads { status := .reading } stream visits outcome last) :
    (readWhole stream).outcome = outcome ∧ (readWhole stream).session = last.settled outcome := by
  obtain ⟨last', reads', session⟩ := reads_readWhole right
  obtain ⟨-, outcome, place⟩ := reads.eq_read
  obtain ⟨-, outcome', place'⟩ := reads'.eq_read
  have same := outcome'.symm.trans outcome
  refine ⟨same, ?_⟩
  rw [session, same, ← place, ← place']

end Whole

end CueIndex
