import CueIndex.Session.Feed

/-!
# Scans

A scan reads a stream from a source that answers one request after the other, until the index is
complete or cannot be.  It is a machine that turns between requests, so that whoever holds the
source makes the requests.

* `ScanOptions` — how many bytes to ask for, and after how many to give up.
* `Reply` — the answer to a request.
* `ScanError` — why there is no index, and `ScanError.message` in words.
* `Verdict` — what a scan ends with; `ScanOptions.refusal?`, if it is not even begun.
* `Scan.turn`, `Scan.receive` — what happens between two requests, and what a reply changes.
* `Scan.run`, `scan` — a whole scan over the replies of a source.
-/

namespace CueIndex

/-! ## Options and replies -/

structure ScanOptions where
  /-- How many bytes a request asks for. -/
  chunkSize : Nat := 8192
  /-- After how many bytes to give up, if ever. -/
  maxBytes : Option Nat := none
  deriving DecidableEq, Repr, Inhabited

/-- The answer to a request. -/
inductive Reply
  /-- Bytes of the stream, no more than asked for.  None at all is the end of the stream. -/
  | bytes (chunk : Bytes)
  /-- No answer this time, and the request may be made again. -/
  | interrupted
  /-- No answer, for the given reason. -/
  | failed (reason : String)
  deriving DecidableEq, Repr

/-! ## Failures -/

/-- The part of a scan that a failure comes from. -/
inductive Origin
  | stream
  | index
  | source
  deriving DecidableEq, Repr

/-- The words for a failure whose details are given. -/
def Origin.describe (origin : Origin) (detail : String) : String :=
  match origin with
  | stream => "Stream error: " ++ detail
  | index => "Index error: " ++ detail
  | source => "I/O error: " ++ detail

/-- Why a scan yields no index. -/
inductive ScanError
  /-- Requests for no bytes lead nowhere. -/
  | zeroChunkSize
  /-- The stream does not start with the signature. -/
  | unrecognised
  /-- The session refused the scan's own buffer. -/
  | refused (outcome : Outcome)
  /-- A header that no further bytes can mend, after so many bytes were taken in. -/
  | malformedHeader (consumed : Nat)
  /-- As many bytes have been read as the options allow. -/
  | limitReached (limit : Nat)
  /-- The stream ends first. -/
  | endOfStream (bytesRead : Nat)
  /-- The source cannot be read. -/
  | unreadable (reason : String)
  deriving DecidableEq, Repr

namespace ScanError

def origin : ScanError → Origin
  | zeroChunkSize | limitReached _ | endOfStream _ => .stream
  | unrecognised | refused _ | malformedHeader _ => .index
  | unreadable _ => .source

def detail : ScanError → String
  | zeroChunkSize => "chunk size must be non-zero"
  | unrecognised => "input is not an EBML/Matroska stream"
  | refused outcome => s!"parser failed with {outcome.label}"
  | malformedHeader consumed => s!"malformed element header after {consumed} consumed bytes"
  | limitReached limit => s!"no cluster or end of cues within the first {limit} bytes"
  | endOfStream bytesRead =>
    s!"input ended after {bytesRead} bytes before the first cluster or end of cues"
  | unreadable reason => reason

def message (error : ScanError) : String := error.origin.describe error.detail

end ScanError

/-! ## Verdicts -/

/-- What a scan ends with. -/
inductive Verdict
  | ok (index : SeekIndex)
  | error (error : ScanError)
  /-- The program is broken off, as there cannot be a buffer for a request. -/
  | panicked
  deriving DecidableEq, Repr

namespace ScanOptions

/-- The most bytes that a request may ask for.  They are buffered, and the size of a buffer is a
signed number of 64 bits. -/
def largestChunk : Nat := 0x7FFFFFFFFFFFFFFF

/-- The verdict on options that no scan is begun with. -/
def refusal? (options : ScanOptions) : Option Verdict :=
  if options.chunkSize = 0 then some (.error .zeroChunkSize)
  else if largestChunk < options.chunkSize then some .panicked
  else none

end ScanOptions

/-! ## The machine -/

/-- A scan between two requests. -/
structure Scan where
  feed : Feed := {}
  /-- Bytes received. -/
  bytesRead : Nat := 0
  /-- Requests made, those without an answer included. -/
  requests : Nat := 0
  deriving DecidableEq, Repr, Inhabited

/-- What a scan does between two requests.  Without a verdict it goes on to the next request. -/
structure Turn where
  scan : Scan
  verdict : Option Verdict
  events : List Event

namespace Scan

/-- Let go of the bytes that have been taken in once they fill a request. -/
def compact (options : ScanOptions) (scan : Scan) : Scan × List Event :=
  let behind := scan.feed.session.resume
  if options.chunkSize ≤ behind then
    ({ scan with feed := scan.feed.compact behind }, [.flushed behind])
  else (scan, [])

/-- The limit of the options, once as many bytes have been received. -/
def limit? (options : ScanOptions) (scan : Scan) : Option Nat :=
  options.maxBytes.filter (· ≤ scan.bytesRead)

/-- Take the index out of a scan whose session is complete. -/
def complete (scan : Scan) : Turn :=
  let (index, rest) := scan.feed.session.takeIndex
  let (fresh, lost) := rest.release
  { scan := { scan with feed.session := fresh }
    verdict := some (.ok index)
    events := lost ++ [.indexComplete index.cues.length scan.bytesRead scan.feed.buffer.chunks] }

/-- What happens before the next request: the session reads what is there, and then, unless that
settles the scan, bytes that are no longer needed are let go and the limit is looked at. -/
def turn (options : ScanOptions) (scan : Scan) : Turn :=
  let (feed, stepped) := scan.feed.step
  let scan := { scan with feed := feed }
  match stepped.outcome with
  | .complete =>
    let completed := scan.complete
    { completed with events := stepped.events ++ completed.events }
  | .unrecognised => ⟨scan, some (.error .unrecognised), stepped.events⟩
  | .resumeBeyondEnd | .bytesHidden =>
    ⟨scan, some (.error (.refused stepped.outcome)), stepped.events⟩
  | .suspended | .signaturePending =>
    if feed.session.stalled then
      ⟨scan, some (.error (.malformedHeader feed.session.consumed)), stepped.events⟩
    else
      let (compacted, flushed) := scan.compact options
      { scan := compacted
        verdict := (compacted.limit? options).map fun limit => .error (.limitReached limit)
        events := stepped.events ++ flushed }

/-- What the reply to a request changes, or why it ends the scan. -/
def receive (scan : Scan) (reply : Reply) : Scan × Option ScanError :=
  let asked := { scan with requests := scan.requests + 1 }
  match reply with
  | .bytes [] => (asked, some (.endOfStream scan.bytesRead))
  | .bytes (b :: rest) =>
    ({ asked with
        feed := scan.feed.push (b :: rest)
        bytesRead := scan.bytesRead + (b :: rest).length }, none)
  | .interrupted => (asked, none)
  | .failed reason => (asked, some (.unreadable reason))

end Scan

/-! ## Whole scans -/

/-- What a whole scan amounts to. -/
structure Conclusion where
  verdict : Verdict
  /-- Requests made. -/
  requests : Nat
  /-- Bytes received. -/
  bytesRead : Nat
  events : List Event

namespace Scan

/-- The conclusion of a scan that ends here. -/
def conclude (scan : Scan) (verdict : Verdict) (events : List Event) : Conclusion :=
  ⟨verdict, scan.requests, scan.bytesRead, events⟩

/-- Run a scan over the replies that a source gives.  Past the last of them the source has no more
bytes. -/
def run (options : ScanOptions) (scan : Scan) (replies : List Reply) : Conclusion :=
  let turned := scan.turn options
  match turned.verdict, replies with
  | some verdict, _ => turned.scan.conclude verdict turned.events
  | none, [] =>
    let ended := { turned.scan with requests := turned.scan.requests + 1 }
    ended.conclude (.error (.endOfStream ended.bytesRead)) turned.events
  | none, reply :: replies =>
    match turned.scan.receive reply with
    | (ended, some error) => ended.conclude (.error error) turned.events
    | (next, none) =>
      let later := next.run options replies
      { later with events := turned.events ++ later.events }
termination_by structural replies

end Scan

/-- Scan a source that gives these replies. -/
def scan (options : ScanOptions) (replies : List Reply) : Conclusion :=
  match options.refusal? with
  | some verdict => Scan.conclude {} verdict []
  | none => Scan.run options {} replies

end CueIndex
