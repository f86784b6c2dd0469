import CueIndex.Element.Id
import CueIndex.Element.Size

/-!
# Element headers

An element is an id field, a size field and as many payload bytes as the size says.  The two fields
are its header.

* `Header` — what the two fields say; `Header.payload` finds the payload in the bytes that the
  header was read from.
* `decodeHeader` — the header at the front of a byte string.
* `HeaderError` — why there is none, and whether more bytes could change that.
* `Header.encode?`, `writeHeader` — the bytes of a header with the narrowest size field.
-/

namespace CueIndex

/-! ## The header -/

/-- The header of an element. -/
structure Header where
  /-- The id, of which the low four bytes are kept. -/
  id : ElementId
  /-- The declared size of the payload. -/
  size : Size
  /-- How many bytes the two fields take, which is where the payload starts. -/
  length : Nat
  deriving DecidableEq, Repr

namespace Header

/-- The bytes from the start of the element to the end of its declared payload. -/
def span (h : Header) : Nat := h.length + h.size.extent

/-- The payload bytes present in the byte string that the header was read from. -/
def payload (h : Header) (bytes : Bytes) : Bytes := (bytes.drop h.length).take h.size.extent

/-- Whether the whole declared payload is present. -/
def isComplete (h : Header) (bytes : Bytes) : Bool := (h.payload bytes).length = h.size.extent

theorem length_payload (h : Header) (bytes : Bytes) :
    (h.payload bytes).length = min h.size.extent (bytes.length - h.length) := by
  simp [payload]

end Header

/-! ## Reading -/

/-- Why a byte string does not start with a header. -/
inductive HeaderError
  /-- There are no bytes at all. -/
  | empty
  /-- A field goes on past the last byte: `needed` bytes would show all of it. -/
  | truncated (needed available : Nat)
  /-- A lead byte announces a width that does not exist. -/
  | invalidWidth (width : Nat)
  deriving DecidableEq, Repr

namespace HeaderError

/-- Whether more bytes could turn the failure into a header. -/
def isRecoverable : HeaderError → Bool
  | empty | truncated .. => true
  | invalidWidth _ => false

def message : HeaderError → String
  | empty => "no bytes available"
  | truncated needed available =>
    s!"truncated element: need {needed} bytes, {available} available"
  | invalidWidth width => s!"length prefix of {width} bytes exceeds 8"

end HeaderError

/-- The width of the field that starts `start` bytes into a byte string, once all of it is there. -/
def fieldWidthAt (bytes : Bytes) (start : Nat) : Except HeaderError Nat :=
  match bytes.drop start with
  | [] => .error (.truncated (start + 1) bytes.length)
  | lead :: _ =>
    let width := fieldWidth lead
    if 8 < width then .error (.invalidWidth width)
    else if Bytes.reaches bytes (start + width) then .ok width
    else .error (.truncated (start + width) bytes.length)

/-- The header at the front of a byte string.  The declared payload need not be there. -/
def decodeHeader (bytes : Bytes) : Except HeaderError Header :=
  match bytes with
  | [] => .error .empty
  | _ :: _ => do
    let idWidth ← fieldWidthAt bytes 0
    let sizeWidth ← fieldWidthAt bytes idWidth
    match idField? bytes idWidth, Size.decode? (bytes.drop idWidth) sizeWidth with
    | some id, some size =>
      return { id := id.toUInt32, size := size, length := idWidth + sizeWidth }
    | none, _ => throw (.invalidWidth idWidth)
    | some _, none => throw (.invalidWidth sizeWidth)

/-- A field whose width is known has at least one byte and is all there. -/
theorem le_of_fieldWidthAt {bytes : Bytes} {start width : Nat}
    (read : fieldWidthAt bytes start = .ok width) : 1 ≤ width ∧ start + width ≤ bytes.length := by
  unfold fieldWidthAt at read
  split at read
  · cases read
  · next lead rest _ =>
    dsimp only at read
    split at read
    · cases read
    · split at read
      · next fits =>
        cases read
        exact ⟨fieldWidth_pos lead, Bytes.reaches_iff.1 fits⟩
      · cases read

/-- A header takes at least two bytes, one for each field, and no more than there are. -/
theorem le_of_decodeHeader {bytes : Bytes} {header : Header}
    (read : decodeHeader bytes = .ok header) :
    2 ≤ header.length ∧ header.length ≤ bytes.length := by
  unfold decodeHeader at read
  split at read
  · cases read
  · cases first : fieldWidthAt _ 0 with
    | error e => rw [first] at read; cases read
    | ok idWidth =>
      rw [first] at read
      simp only [bind, Except.bind] at read
      cases second : fieldWidthAt _ idWidth with
      | error e => rw [second] at read; cases read
      | ok sizeWidth =>
        rw [second] at read
        have := le_of_fieldWidthAt first
        have := le_of_fieldWidthAt second
        dsimp only at read
        split at read
        · cases read
          dsimp only
          omega
        · cases read
        · cases read

/-! ## Writing -/

/-- The bytes of a header with the narrowest size field, if the size has one. -/
def Header.encode? (id : ElementId) (size : Size) : Option Bytes :=
  (size.encode? size.width).map (ElementId.toBytes id ++ ·)

/-- An output after one more header was asked for. -/
structure Written where
  /-- All bytes of the output. -/
  output : Bytes
  /-- How many of them are new; `none` if the header could not be written. -/
  count : Option Nat
  deriving DecidableEq, Repr

/-- The output with a header at its end.  A size without a field leaves the output as it was. -/
def writeHeader (output : Bytes) (id : ElementId) (size : Size) : Written :=
  match Header.encode? id size with
  | some header => ⟨output ++ header, some header.length⟩
  | none => ⟨output, none⟩

end CueIndex
