import CueIndex.Bytes.Basic
import CueIndex.Bytes.BigEndian
import CueIndex.Bytes.Chunks
import CueIndex.Bytes.Cursor
import CueIndex.Bytes.Hex
import CueIndex.Bytes.Value
import CueIndex.Element.Width
import CueIndex.Element.Id
import CueIndex.Element.Size
import CueIndex.Element.Fields
import CueIndex.Element.Header
import CueIndex.Element.Kind
import CueIndex.Cue
import CueIndex.Saturation
import CueIndex.SeekIndex.Basic
import CueIndex.SeekIndex.Json
import CueIndex.Buffer
import CueIndex.Session.Basic
import CueIndex.Session.Event
import CueIndex.Session.Move
import CueIndex.Session.Reading
import CueIndex.Session.Step
import CueIndex.Session.Feed
import CueIndex.Scan.Basic
import CueIndex.Scan.Replies
import CueIndex.Decimal.Fixed
import CueIndex.Command
import CueIndex.Main
import CueIndex.Proofs.Element.Extension
import CueIndex.Proofs.Element.Failures
import CueIndex.Proofs.Element.SizeFields
import CueIndex.Proofs.Element.Readers
import CueIndex.Proofs.Element.Written
import CueIndex.Proofs.Element.RoundTrip
import CueIndex.Proofs.Buffer.Queue
import CueIndex.Proofs.Session.Path
import CueIndex.Proofs.Session.Resumption
import CueIndex.Proofs.Session.Shift
import CueIndex.Proofs.Session.Course
import CueIndex.Proofs.Session.Calls
import CueIndex.Proofs.Session.Lifecycle
import CueIndex.Proofs.Session.Refusals
import CueIndex.Proofs.Session.Stalling
import CueIndex.Proofs.Session.Reports
import CueIndex.Proofs.Session.Meetings
import CueIndex.Proofs.Session.Growth
import CueIndex.Proofs.Session.Taking
import CueIndex.Proofs.Session.Unseen
import CueIndex.Proofs.Feed.Following
import CueIndex.Proofs.Feed.Containment
import CueIndex.Proofs.Feed.Stalling
import CueIndex.Proofs.Feed.Deliveries
import CueIndex.Proofs.Feed.Reports
import CueIndex.Proofs.Feed.Taking
import CueIndex.Proofs.Feed.History
import CueIndex.Proofs.Feed.Accounting
import CueIndex.Proofs.Feed.CuesEnd
import CueIndex.Proofs.SeekIndex.Choice
import CueIndex.Proofs.Scan.Verdicts
import CueIndex.Proofs.Scan.Requests
import CueIndex.Proofs.Scan.Limits
import CueIndex.Proofs.Document.Grammar
import CueIndex.Proofs.Document.Pieces
import CueIndex.Proofs.Document.Meaning
import CueIndex.Proofs.Document.Parts
import CueIndex.Proofs.Document.Reading
import CueIndex.Proofs.Document.Taking
