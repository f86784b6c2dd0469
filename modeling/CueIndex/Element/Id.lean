import CueIndex.Bytes.BigEndian
import CueIndex.Element.Width

/-!
# Element ids

An id field is kept whole, announcing bits included, so an id compares directly with the bytes of
the stream.

* `ElementId` — an id, at most four bytes wide.
* `idField?` — the content of an id field of a given width, which may be wider than an id.
* `ElementId.toBytes` — the bytes that write an id.
-/

namespace CueIndex

/-- The id of an element, announcing bits included. -/
abbrev ElementId := UInt32

/-- The content of an id field `width` bytes wide at the front of a byte string; `none` if there is
no such width or the byte string is shorter. -/
def idField? (bytes : Bytes) (width : Nat) : Option UInt64 :=
  if Bytes.reaches bytes width then Bytes.uint? (bytes.take width) else none

/-- An id field can be read exactly when its width exists and its bytes are there. -/
theorem isSome_idField? {bytes : Bytes} {width : Nat} :
    (idField? bytes width).isSome ↔ IsWidth width ∧ width ≤ bytes.length := by
  unfold idField? Bytes.uint?
  split
  · next h =>
    have := Bytes.reaches_iff.1 h
    simp [this]
  · next h =>
    have := mt Bytes.reaches_iff.2 h
    simp [this]

/-- The bytes of an id, without leading zero bytes.  The id zero still takes one byte. -/
def ElementId.toBytes (id : ElementId) : Bytes :=
  match (Bytes.lowBytes 4 id.toUInt64).dropWhile (· = 0) with
  | [] => [0]
  | bytes => bytes

end CueIndex
