import Mathlib
import CueIndex.Proofs.Session.Path
import CueIndex.Session.Step

/-!
# Interrupted readings

A session that has read some bytes and is called again when more are there goes on where it
stopped.  Nothing shows that it was interrupted: it ends where one call over all the bytes ends.

* `readWhole` — one call to a fresh session over a whole stream.
* `Step.Agrees` — two calls lead to the same place.
* `step_append_of_complete` — once the index is complete, further bytes change nothing.
* **`step_append`** — until then, calling again with more bytes leads where a single call leads.
* `Session.shift`, `step_shift` — the same for a session whose place is counted from further back in
  the stream, with the bytes in between in front of the others.
-/

namespace CueIndex

/-- **One call to a fresh session over a whole stream.** -/
def readWhole (stream : Bytes) : Step := Session.step {} (.ofBytes stream)

/-- **Two calls lead to the same place**, the same state and the same outcome.  What they report on
the way may differ. -/
structure Step.Agrees (one other : Step) : Prop where
  session : one.session = other.session
  outcome : one.outcome = other.outcome

namespace Step.Agrees

lemma refl (one : Step) : one.Agrees one := ⟨rfl, rfl⟩

lemma symm {one other : Step} (agree : one.Agrees other) : other.Agrees one :=
  ⟨agree.session.symm, agree.outcome.symm⟩

lemma trans {one two three : Step} (first : one.Agrees two) (second : two.Agrees three) :
    one.Agrees three :=
  ⟨first.session.trans second.session, first.outcome.trans second.outcome⟩

end Step.Agrees

namespace Session

variable {s : Session} {ahead bytes : Bytes}

/-! ## Reading on -/

/-- **Where a reading pauses**: at the end of a path, in front of bytes that allow nothing yet or of
a header that can never be read. -/
theorem read_of_pending (pending : (s.read ahead).outcome ≠ .complete) :
    ∃ events last rest, Path s ahead events last rest ∧ (s.read ahead).outcome = .suspended ∧
      ((∃ gap, nextMove rest = .wait gap) ∧ (s.read ahead).session = last ∨
        (∃ error, nextMove rest = .malformed error) ∧
          (s.read ahead).session = { last with stalled := true }) := by
  obtain ⟨events, last, rest, path, ended⟩ := exists_path s ahead
  refine ⟨events, last, rest, path, ?_⟩
  rw [read_of_path path] at pending ⊢
  cases move : nextMove rest with
  | wait gap =>
      obtain ⟨events', all⟩ := last.read_of_wait move
      rw [all]
      exact ⟨rfl, Or.inl ⟨⟨gap, rfl⟩, rfl⟩⟩
  | malformed error =>
      obtain ⟨events', all⟩ := last.read_of_malformed move
      rw [all]
      exact ⟨rfl, Or.inr ⟨⟨error, rfl⟩, rfl⟩⟩
  | stop header =>
      rw [last.read_of_stop move] at pending
      exact absurd rfl pending
  | take header =>
      obtain ⟨cuesEnd, reached⟩ := Option.ne_none_iff_exists'.1 (ended header move)
      rw [last.read_of_take_last move reached] at pending
      exact absurd rfl pending

/-- **Where a reading completes the index**: at the end of a path, in front of a cluster or with the
element that completes the cues. -/
theorem read_of_complete (done : (s.read ahead).outcome = .complete) :
    ∃ events last rest, Path s ahead events last rest ∧
      ((∃ header, nextMove rest = .stop header) ∨
        ∃ header cuesEnd, nextMove rest = .take header ∧
          (last.meet header rest).cuesReached? = some cuesEnd) := by
  obtain ⟨events, last, rest, path, ended⟩ := exists_path s ahead
  refine ⟨events, last, rest, path, ?_⟩
  rw [read_of_path path] at done
  cases move : nextMove rest with
  | wait gap =>
      obtain ⟨events', all⟩ := last.read_of_wait move
      rw [all] at done
      cases done
  | malformed error =>
      obtain ⟨events', all⟩ := last.read_of_malformed move
      rw [all] at done
      cases done
  | stop header => exact Or.inl ⟨header, rfl⟩
  | take header =>
      obtain ⟨cuesEnd, reached⟩ := Option.ne_none_iff_exists'.1 (ended header move)
      exact Or.inr ⟨header, cuesEnd, rfl, reached⟩

/-- **Once the index is complete, further bytes change nothing**, not even what is reported. -/
theorem read_append_of_complete (done : (s.read ahead).outcome = .complete) (more : Bytes) :
    s.read (ahead ++ more) = s.read ahead := by
  obtain ⟨events, last, rest, path, ended⟩ := read_of_complete done
  rw [read_of_path path, read_of_path (path.append more)]
  rcases ended with ⟨header, move⟩ | ⟨header, cuesEnd, move, reached⟩
  · have later : nextMove (rest ++ more) = .stop header := by
      rw [nextMove_append (by simp [move]), move]
    rw [last.read_of_stop move, last.read_of_stop later]
  · have later : nextMove (rest ++ more) = .take header := by
      rw [nextMove_append (by simp [move]), move]
    have still : (last.meet header (rest ++ more)).cuesReached? = some cuesEnd := by
      rw [last.meet_append move more, reached]
    rw [last.read_of_take_last move reached, last.read_of_take_last later still]
    simp only [last.meet_append move more, last.meetEvents_append move more]

/-- A reading moves the session forward, and not past the bytes ahead. -/
lemma resume_read (s : Session) (ahead : Bytes) :
    s.resume ≤ (s.read ahead).session.resume ∧
      (s.read ahead).session.resume ≤ s.resume + ahead.length := by
  by_cases done : (s.read ahead).outcome = .complete
  · obtain ⟨events, last, rest, path, ended⟩ := read_of_complete done
    obtain ⟨forward, total, -⟩ := path.resume
    rw [read_of_path path]
    rcases ended with ⟨header, move⟩ | ⟨header, cuesEnd, move, reached⟩
    · rw [last.read_of_stop move]
      exact ⟨forward, by dsimp only; omega⟩
    · have inside := advance_le_of_nextMove move
      rw [last.read_of_take_last move reached]
      simp only [resume_meet]
      omega
  · obtain ⟨events, last, rest, path, -, ended⟩ := read_of_pending done
    obtain ⟨forward, total, -⟩ := path.resume
    have within : last.resume ≤ s.resume + ahead.length := by omega
    rcases ended with ⟨-, place⟩ | ⟨-, place⟩ <;> rw [place] <;> exact ⟨forward, within⟩

/-- **A reading that was interrupted goes on where it stopped** and ends where a reading of all the
bytes ends. -/
theorem read_append (pending : (s.read ahead).outcome ≠ .complete) (more : Bytes) :
    let paused := (s.read ahead).session
    (paused.read ((ahead ++ more).drop (paused.resume - s.resume))).Agrees
      (s.read (ahead ++ more)) := by
  obtain ⟨events, last, rest, path, -, ended⟩ := read_of_pending pending
  obtain ⟨forward, total, skipped⟩ := path.resume
  have onward : (ahead ++ more).drop (last.resume - s.resume) = rest ++ more := by
    rw [skipped, List.drop_append_of_le_length (by omega)]
  rw [read_of_path (path.append more)]
  rcases ended with ⟨-, place⟩ | ⟨⟨error, move⟩, place⟩
  · simp only [place, onward]
    exact ⟨rfl, rfl⟩
  · simp only [place, onward]
    have later : nextMove (rest ++ more) = .malformed error := by
      rw [nextMove_append (by simp [move]), move]
    obtain ⟨_, again⟩ := ({ last with stalled := true } : Session).read_of_malformed later
    obtain ⟨_, once⟩ := last.read_of_malformed later
    rw [again, once]
    exact ⟨rfl, rfl⟩

/-- A reading that has not completed the index leaves the session in its phase. -/
lemma status_read (pending : (s.read ahead).outcome ≠ .complete) :
    (s.read ahead).session.status = s.status := by
  obtain ⟨events, last, rest, path, -, ended⟩ := read_of_pending pending
  rcases ended with ⟨-, place⟩ | ⟨-, place⟩ <;> rw [place] <;> exact path.status.1

/-! ## Calling again -/

/-- What a call makes of a reading: a complete index finishes the session. -/
def settle (read : Step) : Step :=
  match read.outcome with
  | .complete => { read with session.status := .finished }
  | _ => read

@[simp] lemma outcome_settle (read : Step) : (settle read).outcome = read.outcome := by
  unfold settle
  split <;> rfl

lemma settle_of_pending {read : Step} (pending : read.outcome ≠ .complete) :
    settle read = read := by
  unfold settle
  split
  · next done => exact absurd done pending
  · rfl

lemma settle_agrees {one other : Step} (agree : one.Agrees other) :
    (settle one).Agrees (settle other) := by
  obtain ⟨session, outcome, events⟩ := one
  obtain ⟨session', outcome', events'⟩ := other
  obtain ⟨rfl, rfl⟩ := agree
  unfold Session.settle
  cases outcome <;> exact ⟨rfl, rfl⟩

lemma stepReading_ofBytes (inside : s.resume ≤ bytes.length) :
    s.stepReading (.ofBytes bytes) = settle (s.read (bytes.drop s.resume)) := by
  unfold stepReading
  rw [if_neg (by simpa using inside)]
  dsimp only
  rw [ByteSource.view_ofBytes, ByteSource.available_ofBytes, List.take_length,
    if_neg (Nat.lt_irrefl _)]
  rfl

lemma stepReading_of_beyond (outside : bytes.length < s.resume) :
    s.stepReading (.ofBytes bytes)
      = ⟨s, .resumeBeyondEnd, [.resumeBeyondEnd s.resume bytes.length]⟩ := by
  rw [stepReading, if_pos (by simpa using outside), ByteSource.available_ofBytes]

/-- **The reading phase, interrupted.** -/
theorem stepReading_append (pending : (s.stepReading (.ofBytes bytes)).outcome ≠ .complete)
    (more : Bytes) :
    let paused := (s.stepReading (.ofBytes bytes)).session
    paused.status = s.status ∧
      (paused.stepReading (.ofBytes (bytes ++ more))).Agrees
        (s.stepReading (.ofBytes (bytes ++ more))) := by
  by_cases inside : s.resume ≤ bytes.length
  · rw [stepReading_ofBytes inside] at pending ⊢
    rw [outcome_settle] at pending
    rw [settle_of_pending pending]
    have agree := read_append pending more
    obtain ⟨forward, within⟩ := s.resume_read (bytes.drop s.resume)
    rw [List.length_drop] at within
    refine ⟨status_read pending, ?_⟩
    rw [stepReading_ofBytes (by rw [List.length_append]; omega),
      stepReading_ofBytes (by rw [List.length_append]; omega)]
    refine settle_agrees ?_
    rw [← List.drop_append_of_le_length inside] at agree
    dsimp only at agree
    rwa [List.drop_drop, show s.resume + ((s.read (bytes.drop s.resume)).session.resume - s.resume)
      = (s.read (bytes.drop s.resume)).session.resume by omega] at agree
  · rw [stepReading_of_beyond (Nat.lt_of_not_le inside)]
    exact ⟨rfl, Step.Agrees.refl _⟩

lemma stepReading_append_of_complete
    (done : (s.stepReading (.ofBytes bytes)).outcome = .complete) (more : Bytes) :
    s.stepReading (.ofBytes (bytes ++ more)) = s.stepReading (.ofBytes bytes) := by
  by_cases inside : s.resume ≤ bytes.length
  · rw [stepReading_ofBytes inside, outcome_settle] at done
    rw [stepReading_ofBytes inside, stepReading_ofBytes (by rw [List.length_append]; omega),
      List.drop_append_of_le_length inside, read_append_of_complete done]
  · rw [stepReading_of_beyond (Nat.lt_of_not_le inside)] at done
    cases done

/-! ### The signature phase over a byte string

Too few bytes and wrong bytes leave the session as it is, and the right ones start the reading
phase. -/

lemma signature_eq : signature = [0x1A, 0x45, 0xDF, 0xA3] := by decide

lemma stepSignature_of_short (s : Session) (short : bytes.length < 4) :
    ∃ events, s.stepSignature (.ofBytes bytes) = ⟨s, .signaturePending, events⟩ := by
  refine ⟨[.signaturePending bytes.length], ?_⟩
  rw [stepSignature, if_pos (by simpa using short), ByteSource.available_ofBytes]

/-- Where the signature is, there are as many bytes as it has. -/
lemma length_of_signature (right : bytes.take 4 = signature) : 4 ≤ bytes.length := by
  have long : (bytes.take 4).length = 4 := by rw [right, signature_eq]; rfl
  rw [List.length_take] at long
  omega

lemma signature_append (right : bytes.take 4 = signature) (more : Bytes) :
    (bytes ++ more).take 4 = signature := by
  rw [List.take_append_of_le_length (length_of_signature right), right]

lemma stepSignature_of_right (s : Session) (right : bytes.take 4 = signature) :
    s.stepSignature (.ofBytes bytes)
      = { s with status := .reading }.stepReading (.ofBytes bytes) := by
  have enough := length_of_signature right
  rw [stepSignature, if_neg (by simpa using enough)]
  dsimp only
  rw [ByteSource.view_ofBytes, if_neg (by rw [List.length_take]; omega),
    if_pos (by rw [List.take_take]; exact right)]

lemma stepSignature_of_wrong (s : Session) (enough : 4 ≤ bytes.length)
    (wrong : bytes.take 4 ≠ signature) :
    ∃ events, s.stepSignature (.ofBytes bytes) = ⟨s, .unrecognised, events⟩ := by
  refine ⟨[.signatureMismatch (bytes.take 4)], ?_⟩
  rw [stepSignature, if_neg (by simpa using enough)]
  dsimp only
  rw [ByteSource.view_ofBytes, if_neg (by rw [List.length_take]; omega),
    if_neg (by rw [List.take_take]; exact wrong)]

/-- Either way the session is left as it is. -/
lemma stepSignature_of_unsigned (s : Session) (other : bytes.take 4 ≠ signature) :
    ∃ outcome events, s.stepSignature (.ofBytes bytes) = ⟨s, outcome, events⟩ ∧
      (outcome = .signaturePending ∨ outcome = .unrecognised) := by
  by_cases short : bytes.length < 4
  · obtain ⟨events, all⟩ := s.stepSignature_of_short short
    exact ⟨_, events, all, Or.inl rfl⟩
  · obtain ⟨events, all⟩ := s.stepSignature_of_wrong (Nat.le_of_not_lt short) other
    exact ⟨_, events, all, Or.inr rfl⟩

/-- The first call to a session does what a call to a session does that waits for the signature. -/
lemma step_of_fresh (s : Session) (fresh : s.status = .fresh) (source : ByteSource) :
    (s.step source).Agrees (Session.step { status := .awaitingSignature } source) := by
  simp only [step, fresh, restart]
  exact ⟨rfl, rfl⟩

/-- **Once the index is complete, a call with more bytes would have led to the same.** -/
theorem step_append_of_complete (done : (s.step (.ofBytes bytes)).outcome = .complete)
    (more : Bytes) : (s.step (.ofBytes (bytes ++ more))).Agrees (s.step (.ofBytes bytes)) := by
  suffices waiting : ∀ w : Session, w.status ≠ .fresh →
      (w.step (.ofBytes bytes)).outcome = .complete →
      (w.step (.ofBytes (bytes ++ more))).Agrees (w.step (.ofBytes bytes)) by
    by_cases fresh : s.status = .fresh
    · have first := s.step_of_fresh fresh (.ofBytes bytes)
      have second := s.step_of_fresh fresh (.ofBytes (bytes ++ more))
      rw [first.outcome] at done
      exact second.trans ((waiting _ (by simp) done).trans first.symm)
    · exact waiting s fresh done
  intro w started done
  cases phase : w.status with
  | fresh => exact absurd phase started
  | finished =>
      simp only [step, phase] at done
      cases done
  | reading =>
      simp only [step, phase] at done ⊢
      rw [stepReading_append_of_complete done]
      exact Step.Agrees.refl _
  | awaitingSignature =>
      simp only [step, phase] at done ⊢
      by_cases right : bytes.take 4 = signature
      · have front := signature_append right more
        rw [w.stepSignature_of_right right] at done ⊢
        rw [w.stepSignature_of_right front, stepReading_append_of_complete done]
        exact Step.Agrees.refl _
      · obtain ⟨outcome, events, all, refusal⟩ := w.stepSignature_of_unsigned right
        rw [all] at done
        rcases refusal with rfl | rfl <;> cases done

/-- **Until the index is complete, calling again with more bytes leads where a single call with all
of them leads.** -/
theorem step_append (pending : (s.step (.ofBytes bytes)).outcome ≠ .complete) (more : Bytes) :
    ((s.step (.ofBytes bytes)).session.step (.ofBytes (bytes ++ more))).Agrees
      (s.step (.ofBytes (bytes ++ more))) := by
  suffices waiting : ∀ w : Session, w.status ≠ .fresh →
      (w.step (.ofBytes bytes)).outcome ≠ .complete →
      ((w.step (.ofBytes bytes)).session.step (.ofBytes (bytes ++ more))).Agrees
        (w.step (.ofBytes (bytes ++ more))) by
    by_cases fresh : s.status = .fresh
    · have first := s.step_of_fresh fresh (.ofBytes bytes)
      have second := s.step_of_fresh fresh (.ofBytes (bytes ++ more))
      rw [first.outcome] at pending
      rw [first.session]
      exact (waiting _ (by simp) pending).trans second.symm
    · exact waiting s fresh pending
  intro w started pending
  cases phase : w.status with
  | fresh => exact absurd phase started
  | finished =>
      have unchanged : (w.step (.ofBytes bytes)).session = w := by simp only [step, phase]
      rw [unchanged]
      exact Step.Agrees.refl _
  | reading =>
      simp only [step, phase] at pending ⊢
      obtain ⟨same, agree⟩ := stepReading_append pending more
      simpa only [same, phase] using agree
  | awaitingSignature =>
      simp only [step, phase] at pending ⊢
      by_cases right : bytes.take 4 = signature
      · have front := signature_append right more
        rw [w.stepSignature_of_right right] at pending ⊢
        rw [w.stepSignature_of_right front]
        obtain ⟨same, agree⟩ := stepReading_append pending more
        simpa only [same] using agree
      · obtain ⟨outcome, events, all, -⟩ := w.stepSignature_of_unsigned right
        simp only [all, phase]
        exact Step.Agrees.refl _

end Session

/-! ## A whole stream at once -/

lemma readWhole_of_short {stream : Bytes} (short : stream.length < 4) :
    (readWhole stream).session = { status := .awaitingSignature } ∧
      (readWhole stream).outcome = .signaturePending := by
  have first := Session.step_of_fresh {} rfl (.ofBytes stream)
  obtain ⟨events, all⟩ :=
    Session.stepSignature_of_short { status := .awaitingSignature } short
  exact ⟨first.session.trans (congrArg Step.session all),
    first.outcome.trans (congrArg Step.outcome all)⟩

lemma readWhole_of_wrong {stream : Bytes} (enough : 4 ≤ stream.length)
    (wrong : stream.take 4 ≠ Session.signature) :
    (readWhole stream).session = { status := .awaitingSignature } ∧
      (readWhole stream).outcome = .unrecognised := by
  have first := Session.step_of_fresh {} rfl (.ofBytes stream)
  obtain ⟨events, all⟩ :=
    Session.stepSignature_of_wrong { status := .awaitingSignature } enough wrong
  exact ⟨first.session.trans (congrArg Step.session all),
    first.outcome.trans (congrArg Step.outcome all)⟩

/-- **A stream that starts with the signature is read from its start.** -/
theorem readWhole_of_right {stream : Bytes} (right : stream.take 4 = Session.signature) :
    (readWhole stream).Agrees (Session.settle (Session.read { status := .reading } stream)) := by
  have first := Session.step_of_fresh {} rfl (.ofBytes stream)
  have all := Session.stepSignature_of_right { status := .awaitingSignature } right
  rw [Session.stepReading_ofBytes (Nat.zero_le _)] at all
  exact ⟨first.session.trans (congrArg Step.session all),
    first.outcome.trans (congrArg Step.outcome all)⟩

/-- Over a byte string a fresh session fails in no other way than these. -/
lemma outcome_readWhole (stream : Bytes) :
    ((readWhole stream).outcome = .signaturePending ∧ (readWhole stream).session.stalled = false) ∨
      (readWhole stream).outcome = .unrecognised ∨ (readWhole stream).outcome = .suspended ∨
        (readWhole stream).outcome = .complete := by
  by_cases short : stream.length < 4
  · obtain ⟨session, outcome⟩ := readWhole_of_short short
    exact Or.inl ⟨outcome, by rw [session]⟩
  · refine Or.inr ?_
    by_cases right : stream.take 4 = Session.signature
    · refine Or.inr ?_
      rw [(readWhole_of_right right).outcome, Session.outcome_settle]
      by_cases done : (Session.read { status := .reading } stream).outcome = .complete
      · exact Or.inr done
      · obtain ⟨-, -, -, -, suspended, -⟩ := Session.read_of_pending done
        exact Or.inl suspended
    · exact Or.inl (readWhole_of_wrong (Nat.le_of_not_lt short) right).2

end CueIndex
