import CueIndex.Bytes.Hex
import CueIndex.Element.Kind
import CueIndex.Saturation

/-!
# Events

What happens during a reading is reported as data, in order.  Messages for people are made from it
in one place.

* `Visit` — an element being met.
* `Event` — everything that is reported.
* `Severity`, `Message` — how serious an event is and its text.
* `visitEvents` — what is reported when an element is met.
* `Event.message?`, `messages` — the message of an event, if it has one, and those of a list.
-/

namespace CueIndex

/-- How serious a message is, most serious first. -/
inductive Severity
  | error
  | warn
  | info
  | debug
  deriving DecidableEq, Repr

namespace Severity

/-- Position in the order, 0 for the most serious. -/
def rank : Severity → Nat
  | error => 0
  | warn => 1
  | info => 2
  | debug => 3

def label : Severity → String
  | error => "ERROR"
  | warn => "WARN"
  | info => "INFO"
  | debug => "DEBUG"

end Severity

/-- A message for people. -/
structure Message where
  severity : Severity
  text : String
  deriving DecidableEq, Repr

/-- An element being met. -/
structure Visit where
  header : Header
  /-- Bytes taken in before the element. -/
  consumed : Nat
  /-- How many cues there are, this element counted. -/
  cueCount : Nat
  deriving DecidableEq, Repr

/-- What is reported during a reading. -/
inductive Event
  /-- An element is met. -/
  | visited (visit : Visit)
  /-- The payload of an element spells no integer, so the element leaves nothing. -/
  | integerSkipped (kind : Kind) (size : Size)
  /-- Everything that the cues element declares has been taken in. -/
  | cuesComplete (offset consumed cuesEnd cueCount : Nat)
  /-- The next header is not all there. -/
  | headerPending (offset remaining : Nat) (error : HeaderError)
  /-- The next element is not all there. -/
  | elementPending (offset remaining required : Nat)
  /-- The next header can never be read. -/
  | malformedHeader (consumed : Nat) (error : HeaderError)
  /-- There are too few bytes to compare with the signature. -/
  | signaturePending (available : Nat)
  /-- The source shows too few bytes to compare with the signature. -/
  | signatureHidden (shown : Nat)
  /-- The stream starts with something else than the signature. -/
  | signatureMismatch (view : Bytes)
  /-- The next element starts after the end of the source. -/
  | resumeBeyondEnd (resume available : Nat)
  /-- The source shows fewer bytes than it says are there. -/
  | bytesHidden (shown available : Nat)
  /-- A session is set up while it still holds cues. -/
  | cuesOverwritten (cueCount : Nat)
  /-- A session is let go while it still holds cues. -/
  | cuesDropped (cueCount : Nat)
  /-- Bytes that have been taken in are flushed. -/
  | flushed (count : Nat)
  /-- The index is complete. -/
  | indexComplete (cueCount bytesRead chunks : Nat)
  deriving DecidableEq, Repr

/-! ## Messages -/

/-- The message of an element being met.  Elements that hold an integer are met in silence. -/
def Visit.message? (v : Visit) : Option Message :=
  let size := v.header.size.extent
  match v.header.kind? with
  | some .signature => some ⟨.debug, s!"id: ebml header, size = {size}"⟩
  | some .segment => some ⟨.debug, s!"id: segment, size = {size}"⟩
  | some .seekHead => some ⟨.debug, s!"id: seek head, offset = {v.consumed}, size = {size}"⟩
  | some .info => some ⟨.debug, s!"id: segment info, size = {size}"⟩
  | some .cues =>
    let cuesEnd := saturate (v.consumed + v.header.span)
    some ⟨.debug, s!"id: cues, size = {size}, ends at Some({cuesEnd})"⟩
  | some .cuePoint => some ⟨.debug, s!"id: cue point, num = {v.cueCount}, size = {size}"⟩
  | some .cueTrackPositions =>
    some ⟨.debug, s!"id: track position, num = {v.cueCount}, size = {size}"⟩
  | some .cluster =>
    some ⟨.info, s!"id: cluster, offset = {v.consumed}, {v.cueCount} cue points"⟩
  | some .timeScale | some .duration | some .cueTime | some .cueTrack
  | some .cueClusterPosition => none
  | some .tracks | some .tags | some .attachments | some .chapters | some .cueBlockNumber
  | none =>
    let id := Hex.ofNat v.header.id.toNat
    let name := elementName v.header.id
    some ⟨.debug, s!"unhandled id = 0x{id} ({name}), size = {size}, "
      ++ s!"data_offset = {v.header.length}, consume = {v.consumed}"⟩

namespace Event

/-- The message of an event, if it has one. -/
def message? : Event → Option Message
  | visited visit => visit.message?
  | integerSkipped kind size =>
    let id := Hex.ofNat kind.id.toNat
    some ⟨.warn, s!"skipping {kind.name} (0x{id}) with invalid integer size {size.extent}"⟩
  | cuesComplete offset consumed cuesEnd cueCount =>
    some ⟨.info, s!"all cues read, offset in buffer = {offset}, consume = {consumed}, "
      ++ s!"len = {cuesEnd}, {cueCount} cue points"⟩
  | headerPending offset remaining error =>
    some ⟨.debug, s!"insufficient data, offset = {offset}, remain len = {remaining}: "
      ++ error.message⟩
  | elementPending offset remaining required =>
    some ⟨.debug, s!"insufficient data, offset = {offset}, remain len = {remaining}, "
      ++ s!"consume = {required}"⟩
  | malformedHeader consumed error =>
    some ⟨.warn, s!"malformed element header at consumed offset {consumed}: " ++ error.message⟩
  | signaturePending available =>
    some ⟨.debug, s!"insufficient data for EBML header, len = {available}"⟩
  | signatureHidden shown => some ⟨.error, s!"adapter mapped {shown} bytes, expected 4"⟩
  | signatureMismatch view =>
    some ⟨.warn, "stream does not start with an EBML header: " ++ Hex.ofBytes view⟩
  | resumeBeyondEnd resume available =>
    some ⟨.error, s!"resume offset {resume} beyond {available} available bytes, "
      ++ "buffer flushed without on_flush?"⟩
  | bytesHidden shown available =>
    some ⟨.error, s!"adapter mapped {shown} of {available} available bytes"⟩
  | cuesOverwritten cueCount =>
    some ⟨.error, s!"parser initialized with {cueCount} cue points still held, "
      ++ "previous session was not released"⟩
  | cuesDropped cueCount =>
    some ⟨.error, s!"releasing {cueCount} cue points that were never taken"⟩
  | flushed count => some ⟨.debug, s!"flushed {count} consumed bytes"⟩
  | indexComplete cueCount bytesRead chunks =>
    some ⟨.info, s!"seek index complete: {cueCount} cue points after {bytesRead} bytes "
      ++ s!"in {chunks} chunks"⟩

/-- The element that an event reports as met. -/
def visit? : Event → Option Visit
  | visited visit => some visit
  | _ => none

end Event

/-- The report of an element being met, given its payload. -/
def visitEvents (visit : Visit) (payload : Bytes) : List Event :=
  match visit.header.kind? with
  | some kind =>
    if kind.isInteger ∧ Bytes.uint? payload = none then
      [.visited visit, .integerSkipped kind visit.header.size]
    else [.visited visit]
  | none => [.visited visit]

/-- The messages of a list of events that are at least as serious as `least`. -/
def messages (least : Severity) (events : List Event) : List Message :=
  (events.filterMap Event.message?).filter fun message => message.severity.rank ≤ least.rank

end CueIndex
