import CueIndex.Session.Basic
import CueIndex.Session.Event
import CueIndex.Session.Move

/-!
# Reading elements

The elements of a byte string are met one after the other.  What comes next depends on the bytes
ahead alone (`nextMove`), and what it leaves behind is `Session.visit`.

* `Step`, `Outcome` — what a call to a session leads to.
* `Session.read` — everything that the bytes ahead allow.  Reading ends where an element is not all
  there, at a malformed header, at a cluster, or where all cues have been met.
-/

namespace CueIndex

/-- What a call to a session says about the reading. -/
inductive Outcome
  /-- Everything that the bytes allow has been done; more bytes may allow more. -/
  | suspended
  /-- The index is complete. -/
  | complete
  /-- The stream does not start with the signature. -/
  | unrecognised
  /-- The source ends before the place where the next element starts. -/
  | resumeBeyondEnd
  /-- There are too few bytes to compare with the signature. -/
  | signaturePending
  /-- The source shows fewer bytes than it says are there. -/
  | bytesHidden
  deriving DecidableEq, Repr

/-- What a call to a session leads to. -/
structure Step where
  session : Session
  outcome : Outcome
  events : List Event
  deriving DecidableEq, Repr

namespace Session

/-- Meet all elements that the bytes ahead allow.  A session that has stalled before reports no
malformed header again. -/
def read (s : Session) (ahead : Bytes) : Step :=
  match _ : nextMove ahead with
  | .wait (.header error) =>
    ⟨s, .suspended, [.headerPending s.resume ahead.length error]⟩
  | .wait (.element required) =>
    ⟨s, .suspended, [.elementPending s.resume ahead.length required]⟩
  | .malformed error =>
    if s.stalled then ⟨s, .suspended, []⟩
    else ⟨{ s with stalled := true }, .suspended, [.malformedHeader s.consumed error]⟩
  | .stop header => ⟨s, .complete, [.visited ⟨header, s.consumed, s.cues.length⟩]⟩
  | .take header =>
    let payload := header.payload ahead
    let consumed := s.consumed
    let next := s.visit header payload
    let events := visitEvents ⟨header, consumed, next.cues.length⟩ payload
    match next.cuesReached? with
    | some cuesEnd =>
      ⟨next, .complete, events ++
        [.cuesComplete next.resume next.consumed cuesEnd next.cues.length]⟩
    | none =>
      let later := read next (ahead.drop header.advance)
      ⟨later.session, later.outcome, events ++ later.events⟩
termination_by ahead.length
decreasing_by
  have move : nextMove ahead = .take header := by assumption
  have := two_le_advance_of_nextMove move
  have := advance_le_of_nextMove move
  simp only [List.length_drop]
  omega

end Session

end CueIndex
