import Mathlib
import CueIndex.Proofs.Element.Extension
import CueIndex.Proofs.Element.Readers
import CueIndex.Proofs.Element.SizeFields

/-!
# Written headers

What a writer of elements puts in front of a payload, and that reading it finds the same again.

* `IdField`, `SizeField` — the two fields, each with the proof that it is one.  A size field may be
  of any width that holds its size.
* `fieldWidthAt_written` — the first byte of a field announces its width wherever it stands.
* **`decodeHeader_written`** — two fields in front of any bytes are read as the header they write.
-/

namespace CueIndex

/-! ## Fields -/

/-- The bytes of an id field: the first of them announces how many there are. -/
structure IdField where
  bytes : Bytes
  announced : bytes.head?.map fieldWidth = some bytes.length
  short : bytes.length ≤ 8

/-- The id that a field writes.  Of a wide field only the low four bytes are kept. -/
def IdField.id (field : IdField) : ElementId := UInt32.ofNat (Bytes.value field.bytes)

/-- The field that writes the id of a named element. -/
def IdField.ofKind (kind : Kind) : IdField where
  bytes := ElementId.toBytes kind.id
  announced := by cases kind <;> decide
  short := by cases kind <;> decide

@[simp] lemma IdField.id_ofKind (kind : Kind) : (IdField.ofKind kind).id = kind.id := by
  cases kind <;> decide

/-- A size and a field that writes it. -/
structure SizeField where
  size : Size
  width : ℕ
  bytes : Bytes
  written : size.encode? width = some bytes

/-! ## What the first byte announces -/

/-- The first byte of a field announces its width wherever the field stands. -/
lemma fieldWidthAt_written {field : Bytes}
    (announced : field.head?.map fieldWidth = some field.length) (short : field.length ≤ 8)
    (front rest : Bytes) :
    fieldWidthAt (front ++ (field ++ rest)) front.length = .ok field.length := by
  cases field with
  | nil => cases announced
  | cons lead tail =>
      have width : fieldWidth lead = (lead :: tail).length := by simpa using announced
      have there : Bytes.reaches (front ++ (lead :: tail ++ rest))
          (front.length + (lead :: tail).length) = true := by
        rw [Bytes.reaches_iff]
        simp only [List.length_append, List.length_cons]
        omega
      rw [fieldWidthAt, List.drop_left, List.cons_append]
      dsimp only
      rw [width, if_neg (by omega), ← List.cons_append, if_pos there]

lemma idField?_written (field : IdField) (rest : Bytes) :
    ∃ id, idField? (field.bytes ++ rest) field.bytes.length = some id ∧
      id.toUInt32 = field.id := by
  have nonempty : 1 ≤ field.bytes.length := by
    have := field.announced
    cases found : field.bytes with
    | nil => rw [found] at this; cases this
    | cons lead tail => simp
  have inside : field.bytes.length ≤ (field.bytes ++ rest).length := by
    rw [List.length_append]
    exact Nat.le_add_right _ _
  obtain ⟨word, -, held, value⟩ := exists_word_of_isWidth ⟨nonempty, field.short⟩ inside
  refine ⟨word, held, ?_⟩
  rw [← UInt32.toNat_inj, UInt64.toNat_toUInt32, value, List.take_left, IdField.id,
    UInt32.toNat_ofNat']

/-! ## Headers -/

/-- The two fields of an element, in front of its payload. -/
structure Front where
  id : IdField
  size : SizeField

namespace Front

/-- The bytes of the two fields. -/
def bytes (front : Front) : Bytes := front.id.bytes ++ front.size.bytes

/-- The header that the two fields write. -/
def header (front : Front) : Header :=
  { id := front.id.id, size := front.size.size, length := front.bytes.length }

end Front

/-- **Two fields in front of any bytes are read as the header that they write.** -/
theorem decodeHeader_written (front : Front) (rest : Bytes) :
    decodeHeader (front.bytes ++ rest) = .ok front.header := by
  obtain ⟨valid, length, announced⟩ := Size.announced_of_encode? front.size.written
  have first := fieldWidthAt_written front.id.announced front.id.short []
    (front.size.bytes ++ rest)
  have second := fieldWidthAt_written (length ▸ announced) (by omega) front.id.bytes rest
  obtain ⟨id, idRead, low⟩ := idField?_written front.id (front.size.bytes ++ rest)
  have sizeRead := Size.decode?_written front.size.written rest
  rw [Front.bytes, List.append_assoc]
  refine decodeHeader_eq_ok_iff.2
    ⟨front.id.bytes.length, front.size.width, id, front.size.size, first, ?_, idRead, ?_, ?_⟩
  · rw [second, length]
  · rw [List.drop_left, sizeRead]
  · rw [Front.header, Front.bytes, List.length_append, length, low]

end CueIndex
