import CueIndex.Bytes.BigEndian
import CueIndex.Element.Width

/-!
# Element sizes

A size field says how many payload bytes follow.  Of its bits the first set one announces the width
and the others are data, seven for each byte.  Data bits that are all set are reserved: the size is
then unknown, and where the element ends follows from what comes next.

* `Size` — a known number of bytes, or unknown; `Size.extent` turns it into a number.
* `Size.decode?` — the size that a field of a given width holds.
* `Size.encode?` — the field of a given width that holds a size.
* `Size.shortestWidth` — the narrowest field for a number of bytes.
-/

namespace CueIndex

/-- How many payload bytes an element declares. -/
inductive Size
  | known (bytes : UInt64)
  | unknown
  deriving DecidableEq, Repr

namespace Size

/-- The declared number of bytes.  An unknown size counts as the largest number that any consumer of
a stream can hold, so that such an element never ends by its size. -/
def extent : Size → Nat
  | known bytes => bytes.toNat
  | unknown => 0x7FFFFFFFFFFFFFFF

/-! ## The reserved pattern -/

/-- The data bits of a field `width` bytes wide, all set. -/
def marker (width : Nat) : UInt64 := UInt64.ofNat ((1 <<< (7 * width)) - 1)

/-- The reserved pattern of a width, if there is such a width. -/
def marker? (width : Nat) : Option UInt64 :=
  if IsWidth width then some (marker width) else none

/-! ## Reading -/

/-- The size that the data bits of a field `width` bytes wide spell. -/
def ofData (width : Nat) (data : UInt64) : Size :=
  if data = marker width then unknown else known data

/-- The size held by a field `width` bytes wide at the front of a byte string.  The announcing bit
is subtracted from the lead byte; there is no size if the lead byte is smaller than that bit, if the
byte string is shorter than the field, or if there is no such width. -/
def decode? (bytes : Bytes) (width : Nat) : Option Size :=
  match bytes with
  | [] => none
  | lead :: rest =>
    if IsWidth width ∧ Bytes.reaches rest (width - 1) ∧ widthMark width ≤ lead then
      let data := Bytes.shiftInAll (lead - widthMark width).toUInt64 (rest.take (width - 1))
      some (ofData width data)
    else none

/-- A size is read exactly if the width exists, the bytes of the field are there, and its lead byte
is large enough for the announcing bit to be taken off. -/
theorem decode?_cons_eq_some_iff {lead : UInt8} {rest : Bytes} {width : Nat} {size : Size} :
    decode? (lead :: rest) width = some size ↔
      (IsWidth width ∧ width - 1 ≤ rest.length ∧ widthMark width ≤ lead) ∧
        ofData width
          (Bytes.shiftInAll (lead - widthMark width).toUInt64 (rest.take (width - 1))) = size := by
  rw [decode?, ← Bytes.reaches_iff]
  split
  · next shape => exact ⟨fun same => ⟨shape, Option.some.inj same⟩, fun all => congrArg some all.2⟩
  · next shape => exact ⟨nofun, fun all => absurd all.1 shape⟩

/-! ## Writing -/

/-- The lead byte of a field with the bit that announces `width` set in it. -/
def announce (width : Nat) : Bytes → Bytes
  | [] => []
  | lead :: rest => (lead ||| widthMark width) :: rest

/-- The field `width` bytes wide with the given data bits; `none` if they do not fit. -/
def dataField? (width : Nat) (data : UInt64) : Option Bytes :=
  if IsWidth width ∧ data ≤ marker width then
    some (announce width (Bytes.lowBytes width data))
  else none

/-- The field `width` bytes wide that holds a size.  A known size fits below the reserved pattern
only, and an unknown size is the reserved pattern. -/
def encode? (width : Nat) : Size → Option Bytes
  | known bytes => if bytes < marker width then dataField? width bytes else none
  | unknown => dataField? width (marker width)

/-- The narrowest width whose reserved pattern is above `data`, and eight if none is. -/
def shortestWidth (data : UInt64) : Nat :=
  ((List.range' 1 7).find? fun width => data < marker width).getD 8

/-- The narrowest width that writes a size. -/
def width : Size → Nat
  | known bytes => shortestWidth bytes
  | unknown => 1

theorem isWidth_shortestWidth (data : UInt64) : IsWidth (shortestWidth data) := by
  unfold shortestWidth
  cases found : (List.range' 1 7).find? fun width => data < marker width with
  | none => simp [IsWidth]
  | some width =>
    have := List.mem_range'_1.1 (List.mem_of_find?_eq_some found)
    simp only [Option.getD_some]
    omega

@[simp] theorem length_announce (width : Nat) (bytes : Bytes) :
    (announce width bytes).length = bytes.length := by
  cases bytes <;> rfl

/-- A written field has the width it was asked for. -/
theorem length_of_dataField? {width : Nat} {data : UInt64} {field : Bytes}
    (written : dataField? width data = some field) : field.length = width := by
  unfold dataField? at written
  split at written
  · cases written; simp
  · cases written

end Size

end CueIndex
