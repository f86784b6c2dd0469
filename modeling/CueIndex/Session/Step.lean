import CueIndex.Buffer
import CueIndex.Session.Reading

/-!
# Calls to a session

* `Session.step` — go through as many phases as the source allows.
* `Session.restart`, `Session.release` — back to a fresh session, with a report if cues are lost.
* `Outcome.label` — the word for an outcome in messages.
-/

namespace CueIndex

/-- The word for an outcome in messages. -/
def Outcome.label : Outcome → String
  | suspended => "Ok"
  | complete => "Done"
  | unrecognised => "NotSupported"
  | resumeBeyondEnd => "ErrorParam"
  | signaturePending => "InsufficientData"
  | bytesHidden => "Error"

namespace Session

/-! ## Starting over -/

/-- A fresh session in place of this one.  Cues that it still holds are lost, which is reported. -/
def restart (s : Session) : Session × List Event :=
  ({}, if s.cues.isEmpty then [] else [.cuesOverwritten s.cues.length])

/-- Let go of a session, which leaves a fresh one.  Cues that were never taken are lost, which is
reported. -/
def release (s : Session) : Session × List Event :=
  ({}, if s.cues.isEmpty then [] else [.cuesDropped s.cues.length])

/-! ## Stepping -/

/-- The bytes that a stream starts with: the id of the signature element. -/
def signature : Bytes := ElementId.toBytes Kind.signature.id

/-- The reading phase: read what the source shows from the resume position on.  A source that
does not fit the session's position or its own count changes nothing. -/
def stepReading (s : Session) (source : ByteSource) : Step :=
  if source.available < s.resume then
    ⟨s, .resumeBeyondEnd, [.resumeBeyondEnd s.resume source.available]⟩
  else
    let shown := source.view source.available
    if shown.length < source.available then
      ⟨s, .bytesHidden, [.bytesHidden shown.length source.available]⟩
    else
      let read := s.read (shown.drop s.resume)
      match read.outcome with
      | .complete => { read with session.status := .finished }
      | _ => read

/-- The phase before that: compare the first bytes with the signature, and go on to read if they are
equal. -/
def stepSignature (s : Session) (source : ByteSource) : Step :=
  if source.available < 4 then
    ⟨s, .signaturePending, [.signaturePending source.available]⟩
  else
    let shown := source.view 4
    if shown.length < 4 then ⟨s, .bytesHidden, [.signatureHidden shown.length]⟩
    else if shown.take 4 = signature then { s with status := .reading }.stepReading source
    else ⟨s, .unrecognised, [.signatureMismatch shown]⟩

/-- Go through as many phases as the source allows.  A finished session stays as it is. -/
def step (s : Session) (source : ByteSource) : Step :=
  match s.status with
  | .fresh =>
    let (fresh, lost) := s.restart
    let stepped := { fresh with status := .awaitingSignature }.stepSignature source
    { stepped with events := lost ++ stepped.events }
  | .awaitingSignature => s.stepSignature source
  | .reading => s.stepReading source
  | .finished => ⟨s, .suspended, []⟩

end Session

end CueIndex
