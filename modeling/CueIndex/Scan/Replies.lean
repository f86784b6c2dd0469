import CueIndex.Bytes.Chunks
import CueIndex.Scan.Basic

/-!
# Replies of stored bytes

What a source replies that holds its whole stream.

* `Treatment` — how one request is treated.
* `replies` — the replies under a list of treatments, each later request being answered in full.
-/

namespace CueIndex

/-- How a source treats one request. -/
inductive Treatment
  /-- It is answered with no more than `count` bytes. -/
  | atMost (count : Nat)
  | interrupt
  | fail (reason : String)
  deriving DecidableEq, Repr

/-- The replies of a source that holds the given bytes, to requests for `chunkSize` bytes each. -/
def replies (chunkSize : Nat) : List Treatment → Bytes → List Reply
  | [], bytes => (Bytes.chunks chunkSize bytes).map .bytes
  | .atMost count :: later, bytes =>
    let given := min count chunkSize
    .bytes (bytes.take given) :: replies chunkSize later (bytes.drop given)
  | .interrupt :: later, bytes => .interrupted :: replies chunkSize later bytes
  | .fail reason :: later, bytes => .failed reason :: replies chunkSize later bytes

end CueIndex
