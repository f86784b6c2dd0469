import Mathlib
import CueIndex.Bytes.Value
import CueIndex.Element.Fields

/-!
# Size fields

A size field is written by setting the announcing bit among the data bits and read by taking it away
again, and of every width one pattern of data bits is kept for the unknown size.  Both directions
are settled here: what is written is read, and what is read was written, byte for byte.

**Writing, then reading.**  The data bits leave room for the announcing bit (`lowBytes_eq_cons`), so
a field announces its width (`announced_of_dataField?`) and is read as its data says
(`decode?_dataField?`).  `announced_of_encode?` and `decode?_written` are the same for the field of
a size.

**Reading, then writing.**  Every byte string whose first byte announces a width is such a field
(`exists_data_of_announced`).

**The narrowest field.**  `isLeast_shortestWidth`.

**All of it.**  `sizeField_roundTrip`.
-/

namespace CueIndex.Size

variable {width : ℕ} {data : UInt64} {size : Size} {field rest : Bytes} {lead : UInt8}

/-! ## What fits -/

lemma le_marker_iff (valid : IsWidth width) :
    data ≤ marker width ↔ data.toNat < 2 ^ (7 * width) := by
  have := Nat.two_pow_pos (7 * width)
  rw [UInt64.le_iff_toNat_le, toNat_marker valid]
  omega

lemma lt_marker_iff (valid : IsWidth width) :
    data < marker width ↔ data.toNat < 2 ^ (7 * width) - 1 := by
  rw [UInt64.lt_iff_toNat_lt, toNat_marker valid]

/-- What fits in a field is far from the number that stands for the unknown size. -/
lemma toNat_lt_of_le_marker (valid : IsWidth width) (fits : data ≤ marker width) :
    data.toNat < 2 ^ 56 := by
  have bound := (le_marker_iff valid).1 fits
  exact bound.trans_le (Nat.pow_le_pow_right (by decide) (by omega))

/-! ## Writing, then reading -/

/-- The data bits of a field leave the announcing bit of its first byte free.  Written out, the
first byte is the announcing bit plus the high data bits. -/
lemma lowBytes_eq_cons (valid : IsWidth width) (fits : data ≤ marker width) :
    ∃ high low, Bytes.lowBytes width data = high :: low ∧ low.length = width - 1 ∧
      high.toNat < 2 ^ (8 - width) ∧ Bytes.value (high :: low) = data.toNat := by
  have bound := (le_marker_iff valid).1 fits
  have spelled : Bytes.value (Bytes.lowBytes width data) = data.toNat := by
    rw [Bytes.value_lowBytes]
    refine Nat.mod_eq_of_lt (bound.trans_le ?_)
    rw [show 256 = 2 ^ 8 from rfl, ← Nat.pow_mul]
    exact Nat.pow_le_pow_right (by decide) (by omega)
  have length := Bytes.length_lowBytes width data
  cases split : Bytes.lowBytes width data with
  | nil => rw [split, List.length_nil] at length; omega
  | cons high low =>
      rw [split] at spelled length
      have length : low.length = width - 1 := by rw [← length, List.length_cons, Nat.add_sub_cancel]
      have back := Bytes.value_lt low
      rw [length] at back
      rw [← spelled, Bytes.value_cons, length] at bound
      exact ⟨high, low, rfl, length, (data_lt_iff valid back).1 bound, spelled⟩

lemma toNat_or_widthMark {high : UInt8} (valid : IsWidth width)
    (free : high.toNat < 2 ^ (8 - width)) :
    (high ||| widthMark width).toNat = 2 ^ (8 - width) + high.toNat := by
  have split := Nat.two_pow_add_eq_or_of_lt free 1
  rw [Nat.mul_one] at split
  rw [UInt8.toNat_or, toNat_widthMark valid, Nat.or_comm, ← split]

lemma dataField?_eq_some_iff : dataField? width data = some field ↔
    IsWidth width ∧ data ≤ marker width ∧ announce width (Bytes.lowBytes width data) = field := by
  rw [dataField?]
  split
  · next shape =>
    exact ⟨fun same => ⟨shape.1, shape.2, Option.some.inj same⟩, fun all => congrArg some all.2.2⟩
  · next shape => exact ⟨by rintro ⟨⟩, fun all => absurd ⟨all.1, all.2.1⟩ shape⟩

/-- A written field starts with a byte that announces its width. -/
lemma announced_of_dataField? (written : dataField? width data = some field) :
    field.head?.map fieldWidth = some width := by
  obtain ⟨valid, fits, rfl⟩ := dataField?_eq_some_iff.1 written
  obtain ⟨high, low, split, length, free, -⟩ := lowBytes_eq_cons valid fits
  rw [split, announce, List.head?_cons, Option.map_some, Option.some.injEq,
    fieldWidth_eq_iff valid, toNat_or_widthMark valid free]
  have : 2 ^ (9 - width) = 2 ^ (8 - width) + 2 ^ (8 - width) := by
    rw [show 9 - width = 8 - width + 1 by omega, Nat.pow_succ, Nat.mul_two]
  omega

/-- **A written field is read as its data says**, whatever follows it. -/
theorem decode?_dataField? (written : dataField? width data = some field) (rest : Bytes) :
    decode? (field ++ rest) width = some (ofData width data) := by
  obtain ⟨valid, fits, rfl⟩ := dataField?_eq_some_iff.1 written
  obtain ⟨high, low, split, length, free, spelled⟩ := lowBytes_eq_cons valid fits
  have lead := toNat_or_widthMark valid free
  have mark := toNat_widthMark valid
  have marked : widthMark width ≤ high ||| widthMark width := by
    rw [UInt8.le_iff_toNat_le, lead, mark]
    omega
  have unmarked : (high ||| widthMark width) - widthMark width = high := by
    rw [← UInt8.toNat_inj, UInt8.toNat_sub_of_le _ _ marked, lead, mark]
    omega
  have data_eq : Bytes.shiftInAll high.toUInt64 low = data := by
    have short : (high :: low).length ≤ 8 := by
      rw [List.length_cons, length]
      omega
    rw [← UInt64.toNat_inj, Bytes.toNat_shiftInAll_lead short, spelled]
  rw [split, announce, List.cons_append, decode?_cons_eq_some_iff]
  refine ⟨⟨valid, by rw [List.length_append]; omega, marked⟩, ?_⟩
  rw [unmarked, ← length, List.take_left, data_eq]

/-- A field that writes a size holds data bits that spell it. -/
lemma exists_data_of_encode? (written : size.encode? width = some field) :
    ∃ data, dataField? width data = some field ∧ ofData width data = size := by
  cases size with
  | known bytes =>
      rw [encode?] at written
      split at written
      · next below => exact ⟨bytes, written, if_neg (UInt64.ne_of_lt below)⟩
      · cases written
  | unknown => exact ⟨marker width, written, if_pos rfl⟩

/-- A written size field starts with a byte that announces its width. -/
lemma announced_of_encode? (written : size.encode? width = some field) :
    IsWidth width ∧ field.length = width ∧ field.head?.map fieldWidth = some width := by
  obtain ⟨data, written, -⟩ := exists_data_of_encode? written
  exact ⟨(dataField?_eq_some_iff.1 written).1, length_of_dataField? written,
    announced_of_dataField? written⟩

/-- **The data bits of a size field spell its size.** -/
theorem decode?_written (written : size.encode? width = some field) (rest : Bytes) :
    decode? (field ++ rest) width = some size := by
  obtain ⟨data, spelled, rfl⟩ := exists_data_of_encode? written
  exact decode?_dataField? spelled rest

/-! ## Reading, then writing -/

/-- A byte that announces a width is the announcing bit and data bits. -/
lemma exists_high_of_announced (valid : IsWidth width) (announced : fieldWidth lead = width) :
    ∃ high : UInt8, high.toNat < 2 ^ (8 - width) ∧ high ||| widthMark width = lead := by
  obtain ⟨least, most⟩ := (fieldWidth_eq_iff valid).1 announced
  have mark := toNat_widthMark valid
  have marked : widthMark width ≤ lead := by
    rw [UInt8.le_iff_toNat_le, mark]
    exact least
  have rest := UInt8.toNat_sub_of_le _ _ marked
  rw [mark] at rest
  have free : (lead - widthMark width).toNat < 2 ^ (8 - width) := by
    rw [show 9 - width = 8 - width + 1 by omega, Nat.pow_succ] at most
    omega
  refine ⟨lead - widthMark width, free, ?_⟩
  rw [← UInt8.toNat_inj, toNat_or_widthMark valid free, rest]
  omega

/-- The announcing bit, data bits and further bytes are a written field. -/
lemma exists_data_of_high {high : UInt8} {low : Bytes} (valid : IsWidth width)
    (free : high.toNat < 2 ^ (8 - width)) (length : low.length = width - 1) :
    ∃ data, dataField? width data = some ((high ||| widthMark width) :: low) := by
  have back := Bytes.value_lt low
  rw [length] at back
  have fits : Bytes.value (high :: low) < 2 ^ (7 * width) := by
    rw [Bytes.value_cons, length]
    exact (data_lt_iff valid back).2 free
  have small : 2 ^ (7 * width) ≤ 2 ^ 56 := Nat.pow_le_pow_right (by decide) (by omega)
  have room : Bytes.value (high :: low) < UInt64.size := fits.trans_le (small.trans (by decide))
  obtain ⟨data, data_eq⟩ : ∃ data : UInt64, data.toNat = Bytes.value (high :: low) :=
    ⟨UInt64.ofNat _, UInt64.toNat_ofNat_of_lt' room⟩
  have whole : (high :: low).length = width := by
    rw [List.length_cons, length]
    omega
  have spelled : Bytes.lowBytes width data = high :: low := by
    refine Bytes.value_injective (by rw [Bytes.length_lowBytes, whole]) ?_
    have bound := Bytes.value_lt (high :: low)
    rw [whole] at bound
    rw [Bytes.value_lowBytes, data_eq, Nat.mod_eq_of_lt bound]
  refine ⟨data, dataField?_eq_some_iff.2 ⟨valid, (le_marker_iff valid).2 ?_, ?_⟩⟩
  · rwa [data_eq]
  · rw [spelled, announce]

/-- **Every byte string whose first byte announces a width starts with a written field**, and is
read as the data of this field says. -/
theorem exists_data_of_announced (valid : IsWidth width) (announced : fieldWidth lead = width)
    (long : width - 1 ≤ rest.length) :
    ∃ data, decode? (lead :: rest) width = some (ofData width data) ∧
      dataField? width data = some (lead :: rest.take (width - 1)) := by
  obtain ⟨high, free, rfl⟩ := exists_high_of_announced valid announced
  have length : (rest.take (width - 1)).length = width - 1 := by
    rw [List.length_take, Nat.min_eq_left long]
  obtain ⟨data, written⟩ := exists_data_of_high valid free length
  have read := decode?_dataField? written (rest.drop (width - 1))
  rw [List.cons_append, List.take_append_drop] at read
  exact ⟨data, read, written⟩

/-- A size that is read from a field is far below `2 ^ 63`, or stands for the unknown size. -/
lemma extent_ofData_lt (valid : IsWidth width) (fits : data ≤ marker width) :
    (ofData width data).extent < 2 ^ 63 := by
  have small := toNat_lt_of_le_marker valid fits
  unfold ofData
  split
  · simp [extent]
  · rw [extent]
    omega

/-- The data of a field from the size that is read from it. -/
lemma data_of_extent (valid : IsWidth width) (fits : data ≤ marker width) :
    (if (ofData width data).extent = 2 ^ 63 - 1 then marker width
      else UInt64.ofNat (ofData width data).extent) = data := by
  have small := toNat_lt_of_le_marker valid fits
  unfold ofData
  split
  · next reserved =>
    rw [reserved]
    exact if_pos (by decide)
  · rw [extent, if_neg (by omega), UInt64.ofNat_toNat]

/-! ## The narrowest field -/

/-- No narrower width has its reserved pattern above the data, and the width itself does unless none
has. -/
lemma shortestWidth_spec (data : UInt64) :
    (∀ width, 1 ≤ width → width < shortestWidth data → ¬ data < marker width) ∧
      (data < marker 8 → data < marker (shortestWidth data)) := by
  unfold shortestWidth
  cases found : (List.range' 1 7).find? fun width => data < marker width with
  | none =>
      refine ⟨fun width least narrower => ?_, id⟩
      simpa using List.find?_range'_eq_none.1 found width least narrower
  | some width =>
      obtain ⟨fits, -, first⟩ := List.find?_range'_eq_some.1 found
      exact ⟨fun other least narrower => by simpa using first other least narrower,
        fun _ => by simpa using fits⟩

/-- The narrowest field holds the number exactly if eight bytes do. -/
lemma lt_marker_shortestWidth_iff :
    data < marker (shortestWidth data) ↔ data.toNat < 2 ^ 56 - 1 := by
  have valid := isWidth_shortestWidth data
  constructor
  · intro below
    have most : 2 ^ (7 * shortestWidth data) ≤ 2 ^ 56 :=
      Nat.pow_le_pow_right (by decide) (by omega)
    exact ((lt_marker_iff valid).1 below).trans_le (Nat.sub_le_sub_right most 1)
  · intro room
    exact (shortestWidth_spec data).2 ((lt_marker_iff (by decide)).2 room)

/-- **The narrowest field for a number of bytes** is the narrowest whose reserved pattern is above
it. -/
theorem isLeast_shortestWidth (room : data.toNat < 2 ^ 56 - 1) :
    IsLeast {width | IsWidth width ∧ data.toNat < 2 ^ (7 * width) - 1} (shortestWidth data) := by
  have valid := isWidth_shortestWidth data
  have here := lt_marker_shortestWidth_iff.2 room
  refine ⟨⟨valid, (lt_marker_iff valid).1 here⟩, fun width ⟨other, fits⟩ => ?_⟩
  by_contra shorter
  have narrower := (shortestWidth_spec data).1 width other.1 (Nat.lt_of_not_le shorter)
  exact narrower ((lt_marker_iff other).2 fits)

/-- A number of bytes is read back from a field exactly if it is below the reserved pattern. -/
lemma known_of_dataField?_iff :
    (∃ field, dataField? width data = some field ∧ decode? field width = some (.known data)) ↔
      IsWidth width ∧ data.toNat < 2 ^ (7 * width) - 1 := by
  constructor
  · rintro ⟨field, written, read⟩
    obtain ⟨valid, fits, -⟩ := dataField?_eq_some_iff.1 written
    have decoded := decode?_dataField? written []
    rw [List.append_nil, read, ofData] at decoded
    split at decoded
    · cases decoded
    · next free =>
      refine ⟨valid, (lt_marker_iff valid).1 (UInt64.lt_of_le_of_ne fits free)⟩
  · rintro ⟨valid, fits⟩
    have below := (lt_marker_iff valid).2 fits
    have written := dataField?_eq_some_iff.2 ⟨valid, UInt64.le_of_lt below, rfl⟩
    have decoded := decode?_dataField? written []
    rw [List.append_nil, ofData, if_neg (UInt64.ne_of_lt below)] at decoded
    exact ⟨_, written, decoded⟩

/-! ## All of it together -/

/-- **Size fields are written and read without loss, at every width.**  Data is written exactly if
there is such a width and its data bits hold it; the field then has this width and announces it, and
in front of any bytes it is read as the data, or as unknown if all data bits are set.  Every byte
string whose first byte announces a width that is all there is read, and writing what was read gives
its first bytes again.  The narrowest width for a number of bytes is the least at which it is
read back. -/
theorem sizeField_roundTrip :
    (∀ (width : ℕ) (data : UInt64),
      ((dataField? width data).isSome ↔ IsWidth width ∧ data.toNat ≤ 2 ^ (7 * width) - 1) ∧
      ∀ field, dataField? width data = some field →
        field.length = width ∧ field.head?.map fieldWidth = some width ∧
        ∀ tail,
          (data.toNat < 2 ^ (7 * width) - 1 →
            decode? (field ++ tail) width = some (.known data)) ∧
          (data.toNat = 2 ^ (7 * width) - 1 →
            decode? (field ++ tail) width = some .unknown)) ∧
    (∀ (lead : UInt8) (rest : Bytes),
      fieldWidth lead ≤ 8 → fieldWidth lead ≤ (lead :: rest).length →
      ∃ size, decode? (lead :: rest) (fieldWidth lead) = some size ∧
        dataField? (fieldWidth lead)
            (if size.extent = 2 ^ 63 - 1 then marker (fieldWidth lead)
              else UInt64.ofNat size.extent)
          = some ((lead :: rest).take (fieldWidth lead))) ∧
    ∀ data : UInt64, data.toNat < 2 ^ 56 - 1 →
      IsLeast {width | ∃ field, dataField? width data = some field ∧
        decode? field width = some (.known data)} (shortestWidth data) := by
  refine ⟨fun width data => ⟨?_, fun field written => ⟨length_of_dataField? written,
    announced_of_dataField? written, fun tail => ?_⟩⟩, fun lead rest narrow long => ?_,
    fun data room => ?_⟩
  · have below := Nat.two_pow_pos (7 * width)
    rw [Option.isSome_iff_exists]
    constructor
    · rintro ⟨field, written⟩
      obtain ⟨valid, fits, -⟩ := dataField?_eq_some_iff.1 written
      have := (le_marker_iff valid).1 fits
      exact ⟨valid, by omega⟩
    · rintro ⟨valid, fits⟩
      exact ⟨_, dataField?_eq_some_iff.2 ⟨valid, (le_marker_iff valid).2 (by omega), rfl⟩⟩
  · obtain ⟨valid, -, -⟩ := dataField?_eq_some_iff.1 written
    have read := decode?_dataField? written tail
    constructor
    · intro below
      rw [read, ofData, if_neg (UInt64.ne_of_lt ((lt_marker_iff valid).2 below))]
    · intro reserved
      have : data = marker width := by rw [← UInt64.toNat_inj, toNat_marker valid, reserved]
      rw [read, ofData, if_pos this]
  · have valid : IsWidth (fieldWidth lead) := ⟨fieldWidth_pos lead, narrow⟩
    rw [List.length_cons] at long
    have rest_long : fieldWidth lead - 1 ≤ rest.length := by omega
    obtain ⟨data, read, written⟩ := exists_data_of_announced valid rfl rest_long
    refine ⟨_, read, ?_⟩
    rw [data_of_extent valid (dataField?_eq_some_iff.1 written).2.1, written,
      List.take_cons valid.1]
  · simp only [known_of_dataField?_iff]
    exact isLeast_shortestWidth room

/-- Two bytes with all data bits set, two bytes for a number that one would hold, and a number that
needs two. -/
theorem sizeField_roundTrip_twoBytes :
    (dataField? 2 16383 = some [0x7F, 0xFF] ∧
      decode? ([0x7F, 0xFF] ++ [0xEC]) 2 = some .unknown) ∧
    (∃ size, decode? [0x40, 0x02, 0xEC] (fieldWidth 0x40) = some size ∧ size.extent ≠ 2 ^ 63 - 1 ∧
      dataField? (fieldWidth 0x40) (UInt64.ofNat size.extent) = some [0x40, 0x02]) ∧
    IsLeast {width | ∃ field, dataField? width 127 = some field ∧
      decode? field width = some (.known 127)} 2 := by
  obtain ⟨writes, reads, narrowest⟩ := sizeField_roundTrip
  have written : dataField? 2 16383 = some [0x7F, 0xFF] := by decide
  obtain ⟨-, -, read⟩ := (writes 2 16383).2 _ written
  obtain ⟨size, decoded, again⟩ := reads 0x40 [0x02, 0xEC] (by decide) (by decide)
  have two : decode? [0x40, 0x02, 0xEC] (fieldWidth 0x40) = some (.known 2) := by decide
  rw [two] at decoded
  cases decoded
  have known : (known 2).extent ≠ 2 ^ 63 - 1 := by decide
  rw [if_neg known] at again
  exact ⟨⟨written, (read [0xEC]).2 rfl⟩, ⟨_, two, known, again⟩, narrowest 127 (by decide)⟩

end CueIndex.Size
