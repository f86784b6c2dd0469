import Mathlib
import CueIndex.Proofs.Element.Extension
import CueIndex.Proofs.Element.SizeFields
import CueIndex.Saturation

/-!
# Headers that are missed

A byte string that starts with no header either ends too early or starts with bytes that no header
starts with.  Which of the two it is decides whether a reading waits or gives up, so the answer has
to be right for every byte string that the given one may grow into.

**One field.**  A field is missed because its first byte is not there, because that byte announces
more bytes than there are, or because it announces no width (`fieldWidthAt_eq_error`).  In the first
two cases the failure names a number of bytes, and it stays the same until as many are there
(`fieldWidthAt_append_truncated`).

**A header.**  The same for both fields together (`truncated_of_decodeHeader`,
`decodeHeader_append_truncated`, `invalidWidth_of_decodeHeader`), and bytes behind a header that is
cut off can always complete it (`exists_decodeHeader_append`).

**All of it.**  `decodeHeader_append_classified` says what each answer means for every byte string
that starts with the given one.
-/

namespace CueIndex

variable {bytes more : Bytes} {start width needed available : ℕ} {error : HeaderError}
  {header : Header}

/-! ## One field -/

/-- No byte announces more than nine bytes, and nine are no width. -/
lemma fieldWidth_le (lead : UInt8) : fieldWidth lead ≤ 9 := by
  unfold fieldWidth
  split <;> omega

/-- **Why the width of a field is missed**: its first byte is not there, announces no width, or
announces more bytes than there are. -/
theorem fieldWidthAt_eq_error (missed : fieldWidthAt bytes start = .error error) :
    (bytes.length ≤ start ∧ error = .truncated (start + 1) bytes.length) ∨
      ∃ lead rest, bytes.drop start = lead :: rest ∧
        (fieldWidth lead = 9 ∧ error = .invalidWidth 9 ∨
          fieldWidth lead ≤ 8 ∧ bytes.length < start + fieldWidth lead ∧
            error = .truncated (start + fieldWidth lead) bytes.length) := by
  unfold fieldWidthAt at missed
  split at missed
  · next behind =>
    cases missed
    exact Or.inl ⟨List.drop_eq_nil_iff.1 behind, rfl⟩
  · next lead rest ahead =>
    refine Or.inr ⟨lead, rest, ahead, ?_⟩
    dsimp only at missed
    split at missed
    · next wide =>
      have nine : fieldWidth lead = 9 := Nat.le_antisymm (fieldWidth_le lead) wide
      rw [nine] at missed
      cases missed
      exact Or.inl ⟨nine, rfl⟩
    · next valid =>
      split at missed
      · cases missed
      · next short =>
        cases missed
        have short := Bytes.reaches_eq_false_iff.1 (Bool.eq_false_iff.2 short)
        exact Or.inr ⟨Nat.le_of_not_lt valid, short, rfl⟩

/-- A field that is cut off goes on past the last byte, and not by more than a field is wide. -/
lemma truncated_of_fieldWidthAt
    (missed : fieldWidthAt bytes start = .error (.truncated needed available)) :
    available = bytes.length ∧ bytes.length < needed ∧ needed ≤ start + 8 := by
  rcases fieldWidthAt_eq_error missed with
    ⟨behind, cut⟩ | ⟨lead, rest, -, ⟨-, other⟩ | ⟨valid, short, cut⟩⟩
  · cases cut
    exact ⟨rfl, by omega, by omega⟩
  · cases other
  · cases cut
    exact ⟨rfl, short, by omega⟩

lemma invalidWidth_of_fieldWidthAt
    (missed : fieldWidthAt bytes start = .error (.invalidWidth width)) : width = 9 := by
  rcases fieldWidthAt_eq_error missed with
    ⟨-, other⟩ | ⟨lead, rest, -, ⟨-, nine⟩ | ⟨-, -, other⟩⟩
  · cases other
  · cases nine
    rfl
  · cases other

/-- **A field that is cut off is missed in the same way** until as many bytes are there as were
missing. -/
theorem fieldWidthAt_append_truncated
    (missed : fieldWidthAt bytes start = .error (.truncated needed available))
    (short : (bytes ++ more).length < needed) :
    fieldWidthAt (bytes ++ more) start = .error (.truncated needed (bytes ++ more).length) := by
  rcases fieldWidthAt_eq_error missed with
    ⟨-, cut⟩ | ⟨lead, rest, ahead, ⟨-, other⟩ | ⟨valid, -, cut⟩⟩
  · cases cut
    have behind : (bytes ++ more).drop start = [] := List.drop_eq_nil_of_le (by omega)
    simp only [fieldWidthAt, behind]
  · cases other
  · cases cut
    have unreached := Bytes.reaches_eq_false_iff.2 short
    simp only [fieldWidthAt, drop_append_of_drop_eq_cons ahead more, unreached,
      if_neg (Nat.not_lt.2 valid), Bool.false_eq_true, if_false]

/-! ### Completing a field

A byte with its first bit set is a field of its own, so enough of them behind a field that is cut
off complete it, and each that is left over is another field. -/

/-- Bytes that are a field each. -/
def shortFields (n : ℕ) : Bytes := List.replicate n 0x80

lemma fieldWidthAt_shortFields {n : ℕ} (behind : bytes.length ≤ start)
    (inside : start < bytes.length + n) : fieldWidthAt (bytes ++ shortFields n) start = .ok 1 := by
  obtain ⟨m, later⟩ : ∃ m, n - (start - bytes.length) = m + 1 :=
    ⟨n - (start - bytes.length) - 1, by omega⟩
  have ahead : (bytes ++ shortFields n).drop start = 0x80 :: shortFields m := by
    rw [List.drop_append, List.drop_eq_nil_of_le behind, List.nil_append, shortFields,
      List.drop_replicate, later, List.replicate_succ, shortFields]
  have reached : Bytes.reaches (bytes ++ shortFields n) (start + 1) = true := by
    rw [Bytes.reaches_iff, List.length_append, shortFields, List.length_replicate]
    omega
  have one : fieldWidth 0x80 = 1 := by decide
  simp only [fieldWidthAt, ahead, one, reached, if_true]
  rfl

/-- Sixteen bytes complete every field that is cut off. -/
lemma exists_fieldWidthAt_shortFields (early : start ≤ 8)
    (missed : fieldWidthAt bytes start = .error error) (recoverable : error.isRecoverable = true) :
    ∃ width, fieldWidthAt (bytes ++ shortFields 16) start = .ok width ∧ width ≤ 8 ∧
      bytes.length ≤ start + width := by
  rcases fieldWidthAt_eq_error missed with
    ⟨behind, -⟩ | ⟨lead, rest, ahead, ⟨-, other⟩ | ⟨valid, short, -⟩⟩
  · exact ⟨1, fieldWidthAt_shortFields behind (by omega), by omega, by omega⟩
  · rw [other] at recoverable
    cases recoverable
  · refine ⟨fieldWidth lead, ?_, valid, by omega⟩
    have reached : Bytes.reaches (bytes ++ shortFields 16) (start + fieldWidth lead) = true := by
      rw [Bytes.reaches_iff, List.length_append, shortFields, List.length_replicate]
      omega
    simp only [fieldWidthAt, drop_append_of_drop_eq_cons ahead (shortFields 16), reached,
      if_neg (Nat.not_lt.2 valid), if_true]

/-! ## A whole header -/

/-- **A header that is cut off goes on past the last byte**, and not past its sixteenth. -/
theorem truncated_of_decodeHeader
    (missed : decodeHeader bytes = .error (.truncated needed available)) :
    available = bytes.length ∧ bytes.length < needed ∧ needed ≤ 16 := by
  rcases decodeHeader_eq_error missed with ⟨-, other⟩ | first | ⟨idWidth, first, second⟩
  · cases other
  · obtain ⟨same, short, bound⟩ := truncated_of_fieldWidthAt first
    exact ⟨same, short, by omega⟩
  · obtain ⟨same, short, bound⟩ := truncated_of_fieldWidthAt second
    obtain ⟨valid, -⟩ := lead_of_fieldWidthAt first
    exact ⟨same, short, by omega⟩

theorem invalidWidth_of_decodeHeader (missed : decodeHeader bytes = .error (.invalidWidth width)) :
    width = 9 := by
  rcases decodeHeader_eq_error missed with ⟨-, other⟩ | first | ⟨idWidth, -, second⟩
  · cases other
  · exact invalidWidth_of_fieldWidthAt first
  · exact invalidWidth_of_fieldWidthAt second

/-- **A header that is cut off is missed in the same way** until as many bytes are there as were
missing. -/
theorem decodeHeader_append_truncated
    (missed : decodeHeader bytes = .error (.truncated needed available))
    (short : (bytes ++ more).length < needed) :
    decodeHeader (bytes ++ more) = .error (.truncated needed (bytes ++ more).length) := by
  rcases decodeHeader_eq_error missed with ⟨-, other⟩ | first | ⟨idWidth, first, second⟩
  · cases other
  · refine decodeHeader_of_first_error ?_ (fieldWidthAt_append_truncated first short)
    rintro nothing
    obtain ⟨rfl, -⟩ := List.append_eq_nil_iff.1 nothing
    cases missed
  · exact decodeHeader_of_second_error (fieldWidthAt_append first (by rintro e ⟨⟩) more)
      (fieldWidthAt_append_truncated second short)

/-- **Bytes can complete every header that is cut off.** -/
theorem exists_decodeHeader_append (missed : decodeHeader bytes = .error error)
    (recoverable : error.isRecoverable = true) :
    ∃ more header, decodeHeader (bytes ++ more) = .ok header := by
  refine ⟨shortFields 16, ?_⟩
  suffices widths : ∃ idWidth sizeWidth, fieldWidthAt (bytes ++ shortFields 16) 0 = .ok idWidth ∧
      fieldWidthAt (bytes ++ shortFields 16) idWidth = .ok sizeWidth by
    obtain ⟨idWidth, sizeWidth, first, second⟩ := widths
    obtain ⟨id, size, -, -, read⟩ := decodeHeader_of_widths first second
    exact ⟨_, read⟩
  rcases decodeHeader_eq_error missed with ⟨rfl, -⟩ | first | ⟨idWidth, first, second⟩
  · exact ⟨1, 1, fieldWidthAt_shortFields (Nat.le_refl _) (by simp),
      fieldWidthAt_shortFields (by simp) (by simp)⟩
  · obtain ⟨idWidth, complete, valid, behind⟩ :=
      exists_fieldWidthAt_shortFields (Nat.zero_le _) first recoverable
    exact ⟨idWidth, 1, complete, fieldWidthAt_shortFields (by omega) (by omega)⟩
  · obtain ⟨valid, -⟩ := lead_of_fieldWidthAt first
    obtain ⟨sizeWidth, complete, -, -⟩ :=
      exists_fieldWidthAt_shortFields valid.2 second recoverable
    exact ⟨idWidth, sizeWidth, fieldWidthAt_append first (by rintro e ⟨⟩) _, complete⟩

/-! ## How far a header and its payload reach -/

/-- A size whose field announces its width has at most seven data bits for each byte. -/
lemma Size.extent_lt_of_decode? {lead : UInt8} {rest : Bytes} {size : Size}
    (valid : IsWidth width) (announced : fieldWidth lead = width)
    (read : Size.decode? (lead :: rest) width = some size) : size.extent < 2 ^ 63 := by
  obtain ⟨⟨-, long, -⟩, -⟩ := decode?_cons_eq_some_iff.1 read
  obtain ⟨data, decoded, written⟩ := exists_data_of_announced valid announced long
  rw [read] at decoded
  cases decoded
  exact extent_ofData_lt valid (dataField?_eq_some_iff.1 written).2.1

/-- A header takes at most sixteen bytes, and the end of its payload is a number of 64 bits. -/
lemma bounds_of_decodeHeader (read : decodeHeader bytes = .ok header) :
    header.length ≤ 16 ∧ header.span < UInt64.size := by
  obtain ⟨idWidth, sizeWidth, id, size, first, second, -, sizeRead, rfl⟩ :=
    decodeHeader_eq_ok_iff.1 read
  obtain ⟨idValid, -⟩ := lead_of_fieldWidthAt first
  obtain ⟨sizeValid, lead, rest, ahead, announced⟩ := lead_of_fieldWidthAt second
  rw [ahead] at sizeRead
  have small := Size.extent_lt_of_decode? sizeValid announced sizeRead
  have room : 16 + 2 ^ 63 ≤ UInt64.size := by decide
  refine ⟨by dsimp only; omega, ?_⟩
  rw [Header.span]
  dsimp only
  omega

lemma Header.payload_eq_take_min (header : Header) (bytes : Bytes) :
    header.payload bytes
      = (bytes.drop header.length).take
          (min header.size.extent (bytes.length - header.length)) := by
  rw [Header.payload, List.take_eq_take_iff, List.length_drop]
  omega

/-- The payload bytes that are there stay, and a payload that is there whole gets no more. -/
lemma Header.payload_append (inside : header.length ≤ bytes.length) (more : Bytes) :
    header.payload bytes <+: header.payload (bytes ++ more) ∧
      (header.span ≤ bytes.length → header.payload (bytes ++ more) = header.payload bytes) := by
  rw [Header.payload, Header.payload, List.drop_append_of_le_length inside]
  constructor
  · exact (List.prefix_append _ _).take _
  · intro whole
    rw [Header.span] at whole
    exact List.take_append_of_le_length (by rw [List.length_drop]; omega)

/-! ## All of it together -/

/-- **What each answer means for every byte string that starts with the given one.**  A header that
is read takes two to sixteen bytes, its payload is as much of the declared one as is there, its end
needs no saturation, and it is read the same way when more bytes are there, which only extend its
payload.  A header is missed recoverably exactly if some bytes complete it; if it is cut off, the
failure names how many bytes there are and how many would show the field that is cut off, is the
same as long as there are fewer, and is another one, or none, as soon as there are as many.  A width
that does not exist is nine, and no more bytes change it. -/
theorem decodeHeader_append_classified (bytes more : Bytes) :
    (∀ header, decodeHeader bytes = .ok header →
      (2 ≤ header.length ∧ header.length ≤ min 16 bytes.length) ∧
      header.payload bytes = (bytes.drop header.length).take
        (min header.size.extent (bytes.length - header.length)) ∧
      saturate header.span = header.length + header.size.extent ∧
      decodeHeader (bytes ++ more) = .ok header ∧
      header.payload bytes <+: header.payload (bytes ++ more) ∧
      (header.span ≤ bytes.length → header.payload (bytes ++ more) = header.payload bytes)) ∧
    (∀ error, decodeHeader bytes = .error error →
      (error.isRecoverable = true ↔
        ∃ completing header, decodeHeader (bytes ++ completing) = .ok header)) ∧
    (∀ needed available, decodeHeader bytes = .error (.truncated needed available) →
      (available = bytes.length ∧ bytes.length < needed ∧ needed ≤ 16) ∧
      ((bytes ++ more).length < needed →
        decodeHeader (bytes ++ more) = .error (.truncated needed (bytes ++ more).length)) ∧
      (needed ≤ (bytes ++ more).length →
        ∀ later, decodeHeader (bytes ++ more) ≠ .error (.truncated needed later))) ∧
    ∀ width, decodeHeader bytes = .error (.invalidWidth width) →
      width = 9 ∧ decodeHeader (bytes ++ more) = .error (.invalidWidth width) := by
  refine ⟨fun header read => ?_, fun error missed => ?_, fun needed available missed => ?_,
    fun width missed => ?_⟩
  · obtain ⟨least, inside⟩ := le_of_decodeHeader read
    obtain ⟨most, room⟩ := bounds_of_decodeHeader read
    exact ⟨⟨least, Nat.le_min.2 ⟨most, inside⟩⟩, header.payload_eq_take_min bytes,
      saturate_eq_self room, decodeHeader_append read more, Header.payload_append inside more⟩
  · refine ⟨exists_decodeHeader_append missed, fun ⟨completing, header, read⟩ => ?_⟩
    by_contra hopeless
    rw [decodeHeader_append_error missed (Bool.eq_false_iff.2 hopeless) completing] at read
    cases read
  · refine ⟨truncated_of_decodeHeader missed, decodeHeader_append_truncated missed, ?_⟩
    intro enough later missed'
    obtain ⟨-, short, -⟩ := truncated_of_decodeHeader missed'
    omega
  · exact ⟨invalidWidth_of_decodeHeader missed, decodeHeader_append_error missed rfl more⟩

/-- A header whose payload is half there, one that is cut off in its id, and one that can never be
read. -/
theorem decodeHeader_append_classified_cue_time :
    let time : Header := ⟨Kind.cueTime.id, .known 4, 2⟩
    (decodeHeader [0xB3, 0x84, 0x00, 0x01] = .ok time ∧ saturate time.span = 6 ∧
      time.payload [0xB3, 0x84, 0x00, 0x01]
        <+: time.payload ([0xB3, 0x84, 0x00, 0x01] ++ [0x02, 0x03, 0xB7])) ∧
    (decodeHeader [0x1A, 0x45] = .error (.truncated 4 2) ∧
      (∃ completing header, decodeHeader ([0x1A, 0x45] ++ completing) = .ok header) ∧
      decodeHeader ([0x1A, 0x45] ++ [0xDF]) = .error (.truncated 4 3) ∧
      ∀ later, decodeHeader ([0x1A, 0x45] ++ [0xDF, 0xA3]) ≠ .error (.truncated 4 later)) ∧
    decodeHeader [0xBB, 0x00] = .error (.invalidWidth 9) ∧
      decodeHeader ([0xBB, 0x00] ++ [0x81]) = .error (.invalidWidth 9) := by
  intro time
  have read : decodeHeader [0xB3, 0x84, 0x00, 0x01] = .ok time := rfl
  have cut : decodeHeader [0x1A, 0x45] = .error (.truncated 4 2) := rfl
  have hopeless : decodeHeader [0xBB, 0x00] = .error (.invalidWidth 9) := rfl
  obtain ⟨whole, -, -, -⟩ :=
    decodeHeader_append_classified [0xB3, 0x84, 0x00, 0x01] [0x02, 0x03, 0xB7]
  obtain ⟨-, -, span, -, payload, -⟩ := whole time read
  obtain ⟨-, mends, short, -⟩ := decodeHeader_append_classified [0x1A, 0x45] [0xDF]
  obtain ⟨-, -, long, -⟩ := decodeHeader_append_classified [0x1A, 0x45] [0xDF, 0xA3]
  obtain ⟨-, -, -, never⟩ := decodeHeader_append_classified [0xBB, 0x00] [0x81]
  exact ⟨⟨read, span, payload⟩,
    ⟨cut, (mends _ cut).1 rfl, (short 4 2 cut).2.1 (by decide), (long 4 2 cut).2.2 (by decide)⟩,
    hopeless, (never 9 hopeless).2⟩

end CueIndex
