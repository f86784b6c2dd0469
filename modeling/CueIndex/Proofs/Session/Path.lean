import Mathlib
import CueIndex.Proofs.Element.Extension
import CueIndex.Session.Reading

/-!
# Paths through the bytes ahead

A reading goes along a path: element after element is met, until the bytes ahead allow no further
one or the cues are complete.  The path is cut out of the reading here, since it is what two
readings of the same bytes share.

* `Session.meet`, `Session.meetEvents` — what meeting the next element leaves and reports.
* `Session.Path` — going from one place to a later one, with what is reported on the way.
* **`read_of_path`** — reading from the start of a path is reporting what happens on it and reading
  on from its end.
* `exists_path` — every reading has a path to the place where it ends.
* `Path.append` — bytes that arrive behind a path do not change it.
-/

namespace CueIndex.Session

/-! ## Meeting the next element -/

/-- The session past the next element, given the bytes ahead. -/
def meet (s : Session) (header : Header) (ahead : Bytes) : Session :=
  s.visit header (header.payload ahead)

/-- What meeting the next element reports. -/
def meetEvents (s : Session) (header : Header) (ahead : Bytes) : List Event :=
  visitEvents ⟨header, s.consumed, (s.meet header ahead).cues.length⟩ (header.payload ahead)

/-- Only an element with an integer leaves something that depends on its payload. -/
lemma record_congr (s : Session) {header : Header}
    (other : ∀ kind, header.kind? = some kind → kind.isInteger = false) (one two : Bytes) :
    s.record header one = s.record header two := by
  unfold record
  cases known : header.kind? with
  | none => rfl
  | some kind =>
      have := other kind known
      cases kind <;> first
        | rfl
        | (simp only [store]; split <;> split <;> rfl)
        | cases this

lemma visitEvents_congr {visit : Visit}
    (other : ∀ kind, visit.header.kind? = some kind → kind.isInteger = false) (one two : Bytes) :
    visitEvents visit one = visitEvents visit two := by
  unfold visitEvents
  split
  · next kind known => simp [other kind known]
  · rfl

/-- An element with an integer is met only when it is there whole, so that bytes behind it do not
belong to its payload; of the other elements the payload does not matter. -/
lemma payload_append_or {ahead : Bytes} {header : Header} (move : nextMove ahead = .take header)
    (more : Bytes) :
    header.payload (ahead ++ more) = header.payload ahead ∨
      ∀ kind, header.kind? = some kind → kind.isInteger = false := by
  by_cases integer : ∃ kind, header.kind? = some kind ∧ kind.isInteger = true
  · obtain ⟨kind, known, integer⟩ := integer
    have there := (decodeHeader_of_nextMove (Or.inl move)).2
    have whole : header.required = header.span := by
      unfold Header.required
      rw [known]
      cases kind <;> simp_all [Kind.isOpen, Kind.isInteger]
    rw [whole, Header.span] at there
    refine Or.inl ?_
    rw [Header.payload, Header.payload, List.drop_append_of_le_length (by omega),
      List.take_append_of_le_length (by rw [List.length_drop]; omega)]
  · refine Or.inr ?_
    intro kind known
    exact Bool.eq_false_iff.2 fun yes => integer ⟨kind, known, yes⟩

/-- **Meeting an element does not depend on the bytes behind it.** -/
theorem meet_append {ahead : Bytes} {header : Header} (s : Session)
    (move : nextMove ahead = .take header) (more : Bytes) :
    s.meet header (ahead ++ more) = s.meet header ahead := by
  rcases payload_append_or move more with same | other
  · rw [meet, meet, same]
  · rw [meet, meet, visit, visit, s.record_congr other]

lemma meetEvents_append {ahead : Bytes} {header : Header} (s : Session)
    (move : nextMove ahead = .take header) (more : Bytes) :
    s.meetEvents header (ahead ++ more) = s.meetEvents header ahead := by
  unfold meetEvents
  rw [s.meet_append move more]
  rcases payload_append_or move more with same | other
  · rw [same]
  · exact visitEvents_congr other _ _

/-! ## What a reading does next -/

section Read

variable (s : Session) {ahead : Bytes} {header : Header} {error : HeaderError}

lemma read_of_wait {gap : Gap} (move : nextMove ahead = .wait gap) :
    ∃ events, s.read ahead = ⟨s, .suspended, events⟩ := by
  unfold read
  split <;> simp_all

lemma read_of_malformed (move : nextMove ahead = .malformed error) :
    ∃ events, s.read ahead = ⟨{ s with stalled := true }, .suspended, events⟩ := by
  unfold read
  split <;> simp_all
  split
  · next stalled => exact ⟨[], by rw [← stalled]⟩
  · exact ⟨_, rfl⟩

lemma read_of_stop (move : nextMove ahead = .stop header) :
    s.read ahead = ⟨s, .complete, [.visited ⟨header, s.consumed, s.cues.length⟩]⟩ := by
  unfold read
  split <;> simp_all

lemma read_of_take (move : nextMove ahead = .take header)
    (ongoing : (s.meet header ahead).cuesReached? = none) :
    s.read ahead =
      let later := (s.meet header ahead).read (ahead.drop header.advance)
      ⟨later.session, later.outcome, s.meetEvents header ahead ++ later.events⟩ := by
  rw [meet] at ongoing
  conv => lhs; unfold read
  split
  all_goals simp_all only [reduceCtorEq, Move.take.injEq]
  rfl

lemma read_of_take_last {cuesEnd : ℕ} (move : nextMove ahead = .take header)
    (reached : (s.meet header ahead).cuesReached? = some cuesEnd) :
    s.read ahead =
      let next := s.meet header ahead
      ⟨next, .complete, s.meetEvents header ahead ++
        [.cuesComplete next.resume next.consumed cuesEnd next.cues.length]⟩ := by
  rw [meet] at reached
  conv => lhs; unfold read
  split
  all_goals simp_all only [reduceCtorEq, Move.take.injEq]
  rfl

end Read

/-! ## Paths -/

/-- **Going along the bytes ahead**, element after element, without reaching the end of the cues. -/
inductive Path : Session → Bytes → List Event → Session → Bytes → Prop
  | here (s : Session) (ahead : Bytes) : Path s ahead [] s ahead
  | meet {s last : Session} {ahead rest : Bytes} {header : Header} {events : List Event}
      (move : nextMove ahead = .take header)
      (ongoing : (s.meet header ahead).cuesReached? = none)
      (later : Path (s.meet header ahead) (ahead.drop header.advance) events last rest) :
      Path s ahead (s.meetEvents header ahead ++ events) last rest

variable {s mid last : Session} {ahead between rest : Bytes} {events : List Event}

/-- **Reading is going along a path and reading on from its end.** -/
theorem read_of_path (path : Path s ahead events last rest) :
    s.read ahead =
      let later := last.read rest
      ⟨later.session, later.outcome, events ++ later.events⟩ := by
  induction path with
  | here s ahead => rfl
  | meet move ongoing later ih =>
      rw [read_of_take _ move ongoing, ih]
      simp only [List.append_assoc]

lemma Path.trans {further : List Event} (first : Path s ahead events mid between)
    (second : Path mid between further last rest) :
    Path s ahead (events ++ further) last rest := by
  induction first with
  | here s ahead => exact second
  | meet move ongoing later ih =>
      rw [List.append_assoc]
      exact .meet move ongoing (ih second)

/-- **Bytes that arrive behind a path do not change it.** -/
theorem Path.append (path : Path s ahead events last rest) (more : Bytes) :
    Path s (ahead ++ more) events last (rest ++ more) := by
  induction path with
  | here s ahead => exact .here s _
  | @meet s last ahead rest header events move ongoing later ih =>
      have settled : ∀ gap, nextMove ahead ≠ .wait gap := by
        intro gap pending
        rw [move] at pending
        cases pending
      rw [← s.meetEvents_append move more]
      refine .meet ?_ ?_ ?_
      · rw [nextMove_append settled more, move]
      · rw [s.meet_append move more, ongoing]
      · rw [s.meet_append move more,
          List.drop_append_of_le_length (advance_le_of_nextMove move)]
        exact ih

/-- Every reading has a path to the place where it ends: there, no element can be met, or the next
one completes the cues. -/
lemma exists_path (s : Session) (ahead : Bytes) :
    ∃ events last rest, Path s ahead events last rest ∧
      ∀ header, nextMove rest = .take header → (last.meet header rest).cuesReached? ≠ none := by
  induction length : ahead.length using Nat.strongRecOn generalizing s ahead with
  | _ n ih =>
      by_cases onward : ∃ header, nextMove ahead = .take header ∧
          (s.meet header ahead).cuesReached? = none
      · obtain ⟨header, move, ongoing⟩ := onward
        have progress := two_le_advance_of_nextMove move
        have inside := advance_le_of_nextMove move
        obtain ⟨events, last, rest, path, ended⟩ :=
          ih (ahead.drop header.advance).length (by rw [List.length_drop]; omega)
            (s.meet header ahead) (ahead.drop header.advance) rfl
        exact ⟨_, last, rest, .meet move ongoing path, ended⟩
      · refine ⟨[], s, ahead, .here s ahead, ?_⟩
        intro header move ongoing
        exact onward ⟨header, move, ongoing⟩

/-! ## What a path keeps -/

@[simp] lemma resume_meet (s : Session) (header : Header) (ahead : Bytes) :
    (s.meet header ahead).resume = s.resume + header.advance := resume_visit s header _

/-- A session moves forward by as many bytes as it leaves behind, and skips none. -/
lemma Path.resume (path : Path s ahead events last rest) :
    s.resume ≤ last.resume ∧ last.resume + rest.length = s.resume + ahead.length ∧
      rest = ahead.drop (last.resume - s.resume) := by
  induction path with
  | here s ahead => simp
  | @meet s last ahead rest header events move ongoing later ih =>
      have inside := advance_le_of_nextMove move
      obtain ⟨forward, total, skipped⟩ := ih
      rw [resume_meet] at forward total skipped
      rw [List.length_drop] at total
      refine ⟨by omega, by omega, ?_⟩
      rw [skipped, List.drop_drop]
      congr 1
      omega

@[simp] lemma status_record (s : Session) (header : Header) (payload : Bytes) :
    (s.record header payload).status = s.status := by
  unfold record store
  repeat' split
  all_goals rfl

@[simp] lemma stalled_record (s : Session) (header : Header) (payload : Bytes) :
    (s.record header payload).stalled = s.stalled := by
  unfold record store
  repeat' split
  all_goals rfl

/-- Meeting elements neither changes the phase nor stalls the session. -/
lemma Path.status (path : Path s ahead events last rest) :
    last.status = s.status ∧ last.stalled = s.stalled := by
  induction path with
  | here s ahead => exact ⟨rfl, rfl⟩
  | meet move ongoing later ih => simpa [Session.meet, visit, advance] using ih

end CueIndex.Session
