import Mathlib
import CueIndex.Proofs.Element.Failures
import CueIndex.Proofs.Element.Written

/-!
# Headers that are written and read back

A writer strips the zero bytes of an id and chooses the width of the size field; a reader goes by
what the first bytes of the two fields announce.  Whatever stands in front of a header when it is
written, and whatever follows it when it is read, both mean the same header.

* `ElementId.IsField`, `IdField.ofId` — the ids whose bytes are an id field, and this field.
* `Header.ReadsBack` — what a written header has to be read as.
* `readsBack_of_encode?` — every written header is read so.
* **`writeHeader_readsBack`** — which headers are written, where, in how many bytes, and that they
  are read back.
-/

namespace CueIndex

/-! ## Ids -/

namespace ElementId

/-- The bytes of an id are an id field: the first of them announces how many there are. -/
abbrev IsField (id : ElementId) : Prop :=
  (toBytes id).head?.map fieldWidth = some (toBytes id).length

lemma length_toBytes_le (id : ElementId) : (toBytes id).length ≤ 4 := by
  have most : ((Bytes.lowBytes 4 id.toUInt64).dropWhile (· = 0)).length ≤ _ :=
    (List.dropWhile_sublist _).length_le
  rw [Bytes.length_lowBytes] at most
  unfold toBytes
  split
  · simp
  · exact most

/-- The bytes of an id spell it. -/
lemma value_toBytes (id : ElementId) : Bytes.value (toBytes id) = id.toNat := by
  have spelled : Bytes.value ((Bytes.lowBytes 4 id.toUInt64).dropWhile (· = 0)) = id.toNat := by
    rw [Bytes.value_dropWhile_zero, Bytes.value_lowBytes, UInt32.toNat_toUInt64]
    exact Nat.mod_eq_of_lt id.toNat_lt
  unfold toBytes
  split
  · next none =>
    rw [none] at spelled
    simpa using spelled
  · exact spelled

end ElementId

/-- The field of an id whose bytes are one. -/
def IdField.ofId (id : ElementId) (isField : ElementId.IsField id) : IdField where
  bytes := ElementId.toBytes id
  announced := isField
  short := (ElementId.length_toBytes_le id).trans (by decide)

@[simp] lemma IdField.id_ofId (id : ElementId) (isField : ElementId.IsField id) :
    (IdField.ofId id isField).id = id := by
  rw [IdField.id, IdField.ofId, ElementId.value_toBytes, UInt32.ofNat_toNat]

/-! ## Headers -/

/-- **What a written header has to be read as** in front of `tail`: itself, with as much of the
payload that it declares as is there, and with the end of this payload as the end of the element. -/
structure Header.ReadsBack (header : Header) (written tail : Bytes) : Prop where
  decoded : decodeHeader (written ++ tail) = .ok header
  payload : header.payload (written ++ tail) = tail.take (min header.size.extent tail.length)
  span : saturate header.span = written.length + header.size.extent

variable {id : ElementId} {size : Size} {written : Bytes}

/-- **A written header is read back**, whatever follows it. -/
theorem readsBack_of_encode? (isField : ElementId.IsField id)
    (encoded : Header.encode? id size = some written) (tail : Bytes) :
    Header.ReadsBack ⟨id, size, written.length⟩ written tail := by
  obtain ⟨field, sizeWritten, rfl⟩ := Option.map_eq_some_iff.1 encoded
  let front : Front := ⟨.ofId id isField, ⟨size, size.width, field, sizeWritten⟩⟩
  have header : front.header = ⟨id, size, (ElementId.toBytes id ++ field).length⟩ := by
    rw [Front.header, IdField.id_ofId]
    rfl
  have decoded := decodeHeader_written front tail
  rw [header] at decoded
  refine ⟨decoded, ?_, saturate_eq_self (bounds_of_decodeHeader decoded).2⟩
  show ((ElementId.toBytes id ++ field ++ tail).drop _).take size.extent
    = tail.take (min size.extent tail.length)
  rw [List.drop_left, List.take_eq_take_iff]
  omega

lemma writeHeader_of_encode? (encoded : Header.encode? id size = some written) (output : Bytes) :
    writeHeader output id size = ⟨output ++ written, some written.length⟩ := by
  rw [writeHeader, encoded]

/-- A known size has a narrowest field exactly if it is below the reserved pattern of eight bytes,
and this field is as wide as it has to be. -/
lemma Size.encode?_known (bytes : UInt64) :
    (2 ^ 56 - 1 ≤ bytes.toNat → (known bytes).encode? (known bytes).width = none) ∧
      (bytes.toNat < 2 ^ 56 - 1 → ∃ field, (known bytes).encode? (known bytes).width = some field ∧
        field.length = shortestWidth bytes) := by
  constructor
  · intro large
    exact if_neg fun below => Nat.not_lt_of_le large (lt_marker_shortestWidth_iff.1 below)
  · intro room
    have below := lt_marker_shortestWidth_iff.2 room
    have valid := isWidth_shortestWidth bytes
    have written := dataField?_eq_some_iff.2 ⟨valid, UInt64.le_of_lt below, rfl⟩
    exact ⟨_, (if_pos below).trans written, length_of_dataField? written⟩

/-- **Headers are written so that they are read back.**  A header of known size is refused exactly
from the reserved pattern of eight bytes on, and then nothing is written.  Otherwise its bytes are
put behind the output, which stays, and are counted; they are the bytes of the id and the narrowest
size field whose reserved pattern is above the size.  A header of unknown size is always written,
with a size field of one byte.  If the bytes of the id are an id field, the header is read back,
whatever follows it. -/
theorem writeHeader_readsBack (output : Bytes) (id : ElementId) :
    (∀ bytes : UInt64,
      ((writeHeader output id (.known bytes)).count = none ↔ 2 ^ 56 - 1 ≤ bytes.toNat) ∧
      (2 ^ 56 - 1 ≤ bytes.toNat → (writeHeader output id (.known bytes)).output = output) ∧
      (bytes.toNat < 2 ^ 56 - 1 → ∃ field,
        let written := ElementId.toBytes id ++ field
        writeHeader output id (.known bytes) = ⟨output ++ written, some written.length⟩ ∧
        IsLeast {width | IsWidth width ∧ bytes.toNat < 2 ^ (7 * width) - 1} field.length ∧
        (ElementId.IsField id → ∀ tail,
          Header.ReadsBack ⟨id, .known bytes, written.length⟩ written tail))) ∧
    let written := ElementId.toBytes id ++ [0xFF]
    writeHeader output id .unknown = ⟨output ++ written, some written.length⟩ ∧
      (ElementId.IsField id → ∀ tail,
        Header.ReadsBack ⟨id, .unknown, written.length⟩ written tail) := by
  constructor
  · intro bytes
    obtain ⟨refused, fits⟩ := Size.encode?_known bytes
    have nothing : 2 ^ 56 - 1 ≤ bytes.toNat →
        writeHeader output id (.known bytes) = ⟨output, none⟩ := by
      intro large
      rw [writeHeader, Header.encode?, refused large, Option.map_none]
    have something : bytes.toNat < 2 ^ 56 - 1 → ∃ field,
        Header.encode? id (.known bytes) = some (ElementId.toBytes id ++ field) ∧
          field.length = Size.shortestWidth bytes := by
      intro room
      obtain ⟨field, encoded, length⟩ := fits room
      exact ⟨field, by rw [Header.encode?, encoded, Option.map_some], length⟩
    refine ⟨⟨fun none => ?_, fun large => by rw [nothing large]⟩,
      fun large => by rw [nothing large], fun room => ?_⟩
    · by_contra small
      obtain ⟨field, encoded, -⟩ := something (Nat.lt_of_not_le small)
      rw [writeHeader_of_encode? encoded] at none
      cases none
    · obtain ⟨field, encoded, length⟩ := something room
      refine ⟨field, writeHeader_of_encode? encoded output, ?_,
        fun isField => readsBack_of_encode? isField encoded⟩
      rw [length]
      exact Size.isLeast_shortestWidth room
  · have encoded : Header.encode? id .unknown = some (ElementId.toBytes id ++ [0xFF]) := by
      have field : Size.unknown.encode? Size.unknown.width = some [0xFF] := by decide
      rw [Header.encode?, field, Option.map_some]
    exact ⟨writeHeader_of_encode? encoded output,
      fun isField => readsBack_of_encode? isField encoded⟩

/-- A cue point behind another element: its id is one byte, its size needs two, and of its payload
only one byte is there.  A segment of unknown size, and a size that has no field. -/
theorem writeHeader_readsBack_cuePoint :
    let point : Header := ⟨Kind.cuePoint.id, .known 200, 3⟩
    (writeHeader [0xEC, 0x80] Kind.cuePoint.id (.known 200)
        = ⟨[0xEC, 0x80, 0xBB, 0x40, 0xC8], some 3⟩ ∧
      Header.ReadsBack point [0xBB, 0x40, 0xC8] [0xB3]) ∧
    (writeHeader [] Kind.segment.id .unknown = ⟨[0x18, 0x53, 0x80, 0x67, 0xFF], some 5⟩ ∧
      Header.ReadsBack ⟨Kind.segment.id, .unknown, 5⟩ [0x18, 0x53, 0x80, 0x67, 0xFF] [0xEC]) ∧
    (writeHeader [0xEC] Kind.cuePoint.id (.known 72057594037927935)).output = [0xEC] := by
  intro point
  obtain ⟨known, -⟩ := writeHeader_readsBack [0xEC, 0x80] Kind.cuePoint.id
  obtain ⟨-, opened, segment⟩ := writeHeader_readsBack [] Kind.segment.id
  obtain ⟨refused, -⟩ := writeHeader_readsBack [0xEC] Kind.cuePoint.id
  obtain ⟨field, wrote, -, back⟩ := (known 200).2.2 (by decide)
  have computed : writeHeader [0xEC, 0x80] Kind.cuePoint.id (.known 200)
      = ⟨[0xEC, 0x80, 0xBB, 0x40, 0xC8], some 3⟩ := by decide
  have bytes : ElementId.toBytes Kind.cuePoint.id = [0xBB] := by decide
  obtain rfl : field = [0x40, 0xC8] := by
    have output := congrArg Written.output (wrote.symm.trans computed)
    simpa [bytes] using output
  exact ⟨⟨computed, back (by decide) [0xB3]⟩, ⟨opened, segment (by decide) [0xEC]⟩,
    (refused 72057594037927935).2.1 (by decide)⟩

end CueIndex
