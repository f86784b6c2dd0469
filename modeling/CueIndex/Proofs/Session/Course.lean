import Mathlib
import CueIndex.Proofs.Session.Path

/-!
# The course of a reading

A reading meets elements one after the other and ends in one of four ways.  `Session.read` computes
this together with everything that is reported; what the laws of a reading are about is said here
once more, as a relation whose cases they go through.

* `Step.visits` — the elements that a call reports as met.
* **`Session.Reads`** — which elements a reading meets, how it ends and where it leaves the session.
* `reads_read`, `Reads.eq_read` — the relation holds of `Session.read` and of nothing else.
* `Moves`, `moves_meet` — what meeting an element does to each position.
* `Reads.ongoing` — a reading that goes on has not come to the end of the cues.
-/

namespace CueIndex

/-- The elements that a call reports as met, in order. -/
def Step.visits (step : Step) : List Visit := step.events.filterMap Event.visit?

namespace Session

/-! ## Elements that are met -/

/-- The next element, as it is reported when it is met. -/
def nextVisit (s : Session) (header : Header) (ahead : Bytes) : Visit :=
  ⟨header, s.consumed, (s.meet header ahead).cues.length⟩

/-- The cluster that a reading stops at, as it is reported. -/
def stopVisit (s : Session) (header : Header) : Visit := ⟨header, s.consumed, s.cues.length⟩

@[simp] lemma header_nextVisit (s : Session) (header : Header) (ahead : Bytes) :
    (s.nextVisit header ahead).header = header := rfl

@[simp] lemma header_stopVisit (s : Session) (header : Header) :
    (s.stopVisit header).header = header := rfl

/-- An element is reported as met once, with or without an integer that is skipped. -/
lemma filterMap_meetEvents (s : Session) (header : Header) (ahead : Bytes) :
    (s.meetEvents header ahead).filterMap Event.visit? = [s.nextVisit header ahead] := by
  unfold meetEvents visitEvents
  split
  · split <;> rfl
  · rfl

section Visits

variable (s : Session) {ahead : Bytes} {header : Header}

lemma visits_read_of_wait {gap : Gap} (move : nextMove ahead = .wait gap) :
    (s.read ahead).visits = [] := by
  unfold read
  split <;> simp_all [Step.visits, Event.visit?]

lemma visits_read_of_malformed {error : HeaderError} (move : nextMove ahead = .malformed error) :
    (s.read ahead).visits = [] := by
  unfold read
  split <;> simp_all
  split <;> simp [Step.visits, Event.visit?]

lemma visits_read_of_stop (move : nextMove ahead = .stop header) :
    (s.read ahead).visits = [s.stopVisit header] := by
  rw [s.read_of_stop move]
  rfl

lemma visits_read_of_take_last {cuesEnd : ℕ} (move : nextMove ahead = .take header)
    (reached : (s.meet header ahead).cuesReached? = some cuesEnd) :
    (s.read ahead).visits = [s.nextVisit header ahead] := by
  rw [s.read_of_take_last move reached, Step.visits, List.filterMap_append, filterMap_meetEvents]
  rfl

lemma visits_read_of_take (move : nextMove ahead = .take header)
    (ongoing : (s.meet header ahead).cuesReached? = none) :
    (s.read ahead).visits = s.nextVisit header ahead ::
      ((s.meet header ahead).read (ahead.drop header.advance)).visits := by
  rw [s.read_of_take move ongoing, Step.visits, List.filterMap_append, filterMap_meetEvents]
  rfl

end Visits

/-! ## The relation -/

/-- **A reading**: the bytes ahead of a session, the elements that are met among them, how the
reading ends, and the session that it leaves. -/
inductive Reads : Session → Bytes → List Visit → Outcome → Session → Prop
  | wait {s : Session} {ahead : Bytes} {gap : Gap} (move : nextMove ahead = .wait gap) :
      Reads s ahead [] .suspended s
  | malformed {s : Session} {ahead : Bytes} {error : HeaderError}
      (move : nextMove ahead = .malformed error) :
      Reads s ahead [] .suspended { s with stalled := true }
  | stop {s : Session} {ahead : Bytes} {header : Header} (move : nextMove ahead = .stop header) :
      Reads s ahead [s.stopVisit header] .complete s
  | last {s : Session} {ahead : Bytes} {header : Header} {cuesEnd : ℕ}
      (move : nextMove ahead = .take header)
      (reached : (s.meet header ahead).cuesReached? = some cuesEnd) :
      Reads s ahead [s.nextVisit header ahead] .complete (s.meet header ahead)
  | meet {s last : Session} {ahead : Bytes} {header : Header} {visits : List Visit}
      {outcome : Outcome} (move : nextMove ahead = .take header)
      (ongoing : (s.meet header ahead).cuesReached? = none)
      (later : Reads (s.meet header ahead) (ahead.drop header.advance) visits outcome last) :
      Reads s ahead (s.nextVisit header ahead :: visits) outcome last

variable {s last : Session} {ahead rest : Bytes} {visits : List Visit} {outcome : Outcome}
  {events : List Event}

/-- A reading that goes along a path first. -/
lemma Reads.of_path (path : Path s ahead events last rest)
    (reads : Reads last rest (last.read rest).visits (last.read rest).outcome
      (last.read rest).session) :
    Reads s ahead (s.read ahead).visits (s.read ahead).outcome (s.read ahead).session := by
  induction path with
  | here s ahead => exact reads
  | meet move ongoing later ih =>
      have onward := ih reads
      rw [visits_read_of_take _ move ongoing, read_of_take _ move ongoing]
      exact .meet move ongoing onward

/-- **Every reading is one.** -/
theorem reads_read (s : Session) (ahead : Bytes) :
    Reads s ahead (s.read ahead).visits (s.read ahead).outcome (s.read ahead).session := by
  obtain ⟨events, last, rest, path, ended⟩ := exists_path s ahead
  refine Reads.of_path path ?_
  cases move : nextMove rest with
  | wait gap =>
      obtain ⟨events', all⟩ := last.read_of_wait move
      rw [last.visits_read_of_wait move, all]
      exact .wait move
  | malformed error =>
      obtain ⟨events', all⟩ := last.read_of_malformed move
      rw [last.visits_read_of_malformed move, all]
      exact .malformed move
  | stop header =>
      rw [last.visits_read_of_stop move, last.read_of_stop move]
      exact .stop move
  | take header =>
      obtain ⟨cuesEnd, reached⟩ := Option.ne_none_iff_exists'.1 (ended header move)
      rw [last.visits_read_of_take_last move reached, last.read_of_take_last move reached]
      exact .last move reached

/-- **A reading is determined by the bytes ahead.** -/
theorem Reads.eq_read (reads : Reads s ahead visits outcome last) :
    (s.read ahead).visits = visits ∧ (s.read ahead).outcome = outcome ∧
      (s.read ahead).session = last := by
  induction reads with
  | @wait s _ _ move =>
      obtain ⟨events, all⟩ := s.read_of_wait move
      exact ⟨s.visits_read_of_wait move, by rw [all], by rw [all]⟩
  | @malformed s _ _ move =>
      obtain ⟨events, all⟩ := s.read_of_malformed move
      exact ⟨s.visits_read_of_malformed move, by rw [all], by rw [all]⟩
  | @stop s _ _ move =>
      rw [s.visits_read_of_stop move, s.read_of_stop move]
      exact ⟨rfl, rfl, rfl⟩
  | @last s _ _ _ move reached =>
      rw [s.visits_read_of_take_last move reached, s.read_of_take_last move reached]
      exact ⟨rfl, rfl, rfl⟩
  | @meet s _ _ _ _ _ move ongoing later ih =>
      obtain ⟨visits, outcome, session⟩ := ih
      rw [s.visits_read_of_take move ongoing, s.read_of_take move ongoing]
      exact ⟨by rw [visits], outcome, session⟩

/-! ## What meeting an element does to each position -/

/-- **The positions of a session before and after it meets an element.**  Only the element that a
position is about changes it, apart from the count. -/
structure Moves (s : Session) (header : Header) (next : Session) : Prop where
  consumed : next.consumed
    = (if header.kind? = some .signature then 0 else s.consumed) + header.advance
  segmentOffset : next.info.segmentOffset
    = if header.kind? = some .segment then s.consumed else s.info.segmentOffset
  segmentDataOffset : next.info.segmentDataOffset
    = if header.kind? = some .segment then s.consumed + header.length
      else s.info.segmentDataOffset
  seekHeadOffset : next.info.seekHeadOffset
    = if header.kind? = some .seekHead then s.consumed else s.info.seekHeadOffset
  cuesEnd : next.cuesEnd
    = if header.kind? = some .cues then some (saturate (s.consumed + header.span)) else s.cuesEnd

lemma moves_meet (s : Session) (header : Header) (ahead : Bytes) :
    s.Moves header (s.meet header ahead) := by
  cases known : header.kind? with
  | none => constructor <;> simp [Session.meet, visit, advance, record, known]
  | some kind =>
      -- an integer is stored or skipped, and changes no position either way
      cases kind <;> constructor <;>
        simp only [Session.meet, visit, advance, record, store, known] <;>
        first | rfl | (split <;> rfl)

@[simp] lemma status_meet (s : Session) (header : Header) (ahead : Bytes) :
    (s.meet header ahead).status = s.status := by
  simp [Session.meet, visit, advance]

/-! ## What a reading keeps -/

lemma cuesReached?_eq_none : s.cuesReached? = none ↔
    ∀ cuesEnd, s.cuesEnd = some cuesEnd → s.consumed < cuesEnd := by
  simp [cuesReached?, Option.filter_eq_none_iff]

/-- A reading leaves the session in its phase. -/
lemma Reads.status (reads : Reads s ahead visits outcome last) : last.status = s.status := by
  induction reads with
  | wait | malformed | stop => rfl
  | last => exact status_meet ..
  | meet move ongoing later ih => exact ih.trans (status_meet ..)

/-- A reading ends because it has to wait or because the index is complete. -/
lemma Reads.outcome_eq (reads : Reads s ahead visits outcome last) :
    outcome = .suspended ∨ outcome = .complete := by
  induction reads with
  | wait | malformed => exact Or.inl rfl
  | stop | last => exact Or.inr rfl
  | meet move ongoing later ih => exact ih

/-- **A reading that has to wait has not come to the end of the cues.** -/
theorem Reads.ongoing (reads : Reads s ahead visits outcome last) (start : s.cuesReached? = none)
    (pending : outcome ≠ .complete) : last.cuesReached? = none := by
  induction reads with
  | wait | malformed => exact start
  | stop | last => exact absurd rfl pending
  | meet move ongoing later ih => exact ih ongoing pending

end Session

end CueIndex
