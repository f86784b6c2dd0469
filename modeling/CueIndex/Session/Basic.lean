import CueIndex.Element.Kind
import CueIndex.SeekIndex.Basic

/-!
# Sessions

A session is a reading of one stream.  Between calls it keeps numbers and cues only, never bytes, so
that the bytes may move in the meantime.

* `Session` — the state, `Session.Status` its phase.
* `Session.record` — what an element leaves in the state.
* `Session.visit` — meeting an element: what it leaves, and the step past it.
* `Session.takeIndex` — the index so far, moved out of the state.
-/

namespace CueIndex

/-- The phases of a session, in the order in which it goes through them. -/
inductive Session.Status
  /-- Nothing has been asked of the session yet. -/
  | fresh
  /-- The first bytes have not been compared with the signature yet. -/
  | awaitingSignature
  /-- The stream is being read element by element. -/
  | reading
  /-- The index is complete. -/
  | finished
  deriving DecidableEq, Repr, Inhabited

/-- The state of a reading of one stream. -/
structure Session where
  status : Session.Status := .fresh
  /-- Bytes taken in since the start of the last signature element. -/
  consumed : Nat := 0
  /-- Where in the source the next element starts. -/
  resume : Nat := 0
  info : StreamInfo := {}
  /-- The value of `consumed` at which all cues have been met, once their element has been. -/
  cuesEnd : Option Nat := none
  cues : CueList := {}
  /-- Whether a header was met that no further bytes can mend. -/
  stalled : Bool := false
  deriving DecidableEq, Repr, Inhabited

namespace Session

/-! ## Meeting an element -/

/-- Store the integer of an element in the place that the element is about.  A cue's number goes to
the newest cue, and to none if there is no cue. -/
def store (s : Session) (kind : Kind) (value : UInt64) : Session :=
  match kind with
  | .timeScale => { s with info.timeScale := value }
  | .duration => { s with info.duration := value }
  | .cueTime => { s with cues := s.cues.updateNewest ({ · with time := value }) }
  | .cueTrack => { s with cues := s.cues.updateNewest ({ · with track := value }) }
  | .cueClusterPosition =>
    { s with cues := s.cues.updateNewest ({ · with clusterPosition := value }) }
  | _ => s

/-- What an element leaves in the state: positions are those at its start, a cue point opens a new
cue, and an integer is stored if its payload spells one. -/
def record (s : Session) (h : Header) (payload : Bytes) : Session :=
  match h.kind? with
  | some .signature => { s with consumed := 0 }
  | some .segment =>
    { s with info.segmentOffset := s.consumed, info.segmentDataOffset := s.consumed + h.length }
  | some .seekHead => { s with info.seekHeadOffset := s.consumed }
  | some .cues => { s with cuesEnd := some (saturate (s.consumed + h.span)) }
  | some .cuePoint => { s with cues := s.cues.push }
  | some kind =>
    match Bytes.uint? payload with
    | some value => s.store kind value
    | none => s
  | none => s

/-- The state with its two positions moved forward by `n` bytes. -/
def advance (s : Session) (n : Nat) : Session :=
  { s with consumed := s.consumed + n, resume := s.resume + n }

/-- Meeting an element: what it leaves in the state, then the step past what it takes in. -/
def visit (s : Session) (h : Header) (payload : Bytes) : Session :=
  (s.record h payload).advance h.advance

@[simp] theorem resume_store (s : Session) (kind : Kind) (value : UInt64) :
    (s.store kind value).resume = s.resume := by
  cases kind <;> rfl

@[simp] theorem resume_record (s : Session) (h : Header) (payload : Bytes) :
    (s.record h payload).resume = s.resume := by
  unfold record
  repeat' split
  all_goals simp

/-- Meeting an element moves the reading past what the element takes in. -/
@[simp] theorem resume_visit (s : Session) (h : Header) (payload : Bytes) :
    (s.visit h payload).resume = s.resume + h.advance := by
  simp [visit, advance]

/-- The end of the cues, once it has been reached. -/
def cuesReached? (s : Session) : Option Nat := s.cuesEnd.filter (· ≤ s.consumed)

/-! ## Between calls -/

/-- Whether the index is complete. -/
def isFinished (s : Session) : Bool := s.status = .finished

/-- Account for `n` bytes flushed from the front of the source. -/
def noteFlush (s : Session) (n : Nat) : Session := { s with resume := s.resume - n }

/-- The index so far. -/
def index (s : Session) : SeekIndex := { s.info with cues := s.cues.toList }

/-- The index so far, and the session without its cues. -/
def takeIndex (s : Session) : SeekIndex × Session := (s.index, { s with cues := .empty })

end Session

end CueIndex
