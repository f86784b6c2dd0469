import Mathlib
import CueIndex.Bytes.Value
import CueIndex.Element.Fields
import CueIndex.Element.Id
import CueIndex.Element.Size

/-!
# Two readers of integers

Payloads and ids are read as they are.  Of a size the announcing bit is taken off, and this is done
in the lead byte, before the other bytes are shifted in behind it.  Both readers fill one word, up
to its last bit, and both are compared here with the positional value of the same bytes: the
announcing bit is worth the same power of two in the lead byte as in the whole number, also where
the lead byte has bits above it and announces another width than the one that is asked for.

* `exists_word_of_isWidth` — an id field holds the positional value of its bytes.
* `isSome_decode?` — which sizes can be read.
* `value_cons_sub_widthMark` — the positional value without the announcing bit.
* `exists_word_of_decode?` — a size from the word that the other reader makes of its bytes.
* **`readers_agree`** — both readers.
-/

namespace CueIndex

variable {width : ℕ} {lead : UInt8} {bytes low : Bytes} {size : Size}

/-- **An id field holds the positional value of its bytes**, as the word that these spell. -/
theorem exists_word_of_isWidth (valid : IsWidth width) (inside : width ≤ bytes.length) :
    ∃ word, Bytes.uint? (bytes.take width) = some word ∧ idField? bytes width = some word ∧
      word.toNat = Bytes.value (bytes.take width) := by
  have length : (bytes.take width).length = width := List.length_take_of_le inside
  have spelled : Bytes.uint? (bytes.take width) = some (Bytes.shiftInAll 0 (bytes.take width)) := by
    rw [Bytes.uint?, length, if_pos valid]
  refine ⟨_, spelled, ?_, Bytes.toNat_shiftInAll_zero (length.trans_le valid.2)⟩
  rw [idField?, if_pos (Bytes.reaches_iff.2 inside), spelled]

namespace Size

/-- A size can be read exactly if there is such a width, the bytes of the field are there, and the
first of them is not below the announcing bit. -/
theorem isSome_decode? : (decode? bytes width).isSome ↔
    IsWidth width ∧ width ≤ bytes.length ∧ ∃ lead ∈ bytes.head?, 2 ^ (8 - width) ≤ lead.toNat := by
  rw [Option.isSome_iff_exists]
  cases bytes with
  | nil => simp [decode?]
  | cons lead rest =>
      simp only [decode?_cons_eq_some_iff, exists_and_left, exists_eq', and_true, List.head?_cons,
        Option.mem_some_iff, exists_eq_left', List.length_cons]
      constructor
      · rintro ⟨valid, long, marked⟩
        rw [UInt8.le_iff_toNat_le, toNat_widthMark valid] at marked
        exact ⟨valid, by omega, marked⟩
      · rintro ⟨valid, long, marked⟩
        rw [← toNat_widthMark valid, ← UInt8.le_iff_toNat_le] at marked
        exact ⟨valid, by omega, marked⟩

/-! ## The announcing bit -/

/-- **The announcing bit is worth `2 ^ (7 * width)`**, whatever other bits the lead byte has. -/
theorem value_cons_sub_widthMark (valid : IsWidth width) (length : low.length = width - 1)
    (marked : widthMark width ≤ lead) :
    Bytes.value ((lead - widthMark width) :: low) + 2 ^ (7 * width)
      = Bytes.value (lead :: low) := by
  have mark := toNat_widthMark valid
  have split : lead.toNat = (lead - widthMark width).toNat + 2 ^ (8 - width) := by
    have most := UInt8.le_iff_toNat_le.1 marked
    rw [UInt8.toNat_sub_of_le _ _ marked, ← mark, Nat.sub_add_cancel most]
  rw [Bytes.value_cons, Bytes.value_cons, length, split, two_pow_seven_mul valid, Nat.add_mul]
  omega

/-! ## A size from the word of its bytes -/

/-- The size that data bits spell, from the number that they make together with the announcing
bit. -/
lemma ofData_of_word {data word : UInt64} (valid : IsWidth width)
    (announced : data.toNat + 2 ^ (7 * width) = word.toNat) :
    (ofData width data = .unknown ↔ word.toNat = 2 ^ (7 * width + 1) - 1) ∧
      (ofData width data).extent =
        if word.toNat = 2 ^ (7 * width + 1) - 1 then 2 ^ 63 - 1
        else word.toNat - 2 ^ (7 * width) := by
  have positive := Nat.two_pow_pos (7 * width)
  have reserved : data = marker width ↔ word.toNat = 2 ^ (7 * width + 1) - 1 := by
    rw [← UInt64.toNat_inj, toNat_marker valid, Nat.pow_succ]
    omega
  by_cases full : word.toNat = 2 ^ (7 * width + 1) - 1
  · rw [ofData, if_pos (reserved.2 full), if_pos full]
    exact ⟨iff_of_true rfl full, rfl⟩
  · rw [ofData, if_neg (mt reserved.1 full), if_neg full]
    exact ⟨iff_of_false nofun full, by rw [extent, ← announced, Nat.add_sub_cancel]⟩

/-- **A size is the word of its bytes less the announcing bit**, and the word is the one that an id
field of the same bytes holds. -/
theorem exists_word_of_decode? (read : decode? bytes width = some size) :
    ∃ word, Bytes.uint? (bytes.take width) = some word ∧ idField? bytes width = some word ∧
      2 ^ (7 * width) ≤ word.toNat ∧
      (size = .unknown ↔ word.toNat = 2 ^ (7 * width + 1) - 1) ∧
      size.extent = if word.toNat = 2 ^ (7 * width + 1) - 1 then 2 ^ 63 - 1
        else word.toNat - 2 ^ (7 * width) := by
  cases bytes with
  | nil => cases read
  | cons lead rest =>
      obtain ⟨⟨valid, long, marked⟩, rfl⟩ := decode?_cons_eq_some_iff.1 read
      have inside : width ≤ (lead :: rest).length := by
        rw [List.length_cons]
        omega
      obtain ⟨word, spelled, held, value⟩ := exists_word_of_isWidth valid inside
      have length : (rest.take (width - 1)).length = width - 1 := List.length_take_of_le long
      have short : ((lead - widthMark width) :: rest.take (width - 1)).length ≤ 8 := by
        rw [List.length_cons, length]
        omega
      have announced := value_cons_sub_widthMark valid length marked
      rw [← Bytes.toNat_shiftInAll_lead short, ← List.take_cons valid.1, ← value] at announced
      exact ⟨word, spelled, held, announced ▸ Nat.le_add_left _ _, ofData_of_word valid announced⟩

/-! ## Both readers -/

/-- **The two readers of integers agree, and lose no bits.**  One to eight bytes are read as their
positional value in base 256, and no other byte string is read.  A size is read exactly if there is
such a width, its bytes are there, and the first of them is not below the announcing bit.  The bytes
of the size, announcing bit included, are then an id field and a number `word`, from which
`2 ^ (7 * width)` can be subtracted; the size is the difference, or it is unknown, exactly if all
data bits are set and no bit is above the announcing one. -/
theorem readers_agree :
    (∀ bytes : Bytes, (Bytes.uint? bytes).map UInt64.toNat
      = if 1 ≤ bytes.length ∧ bytes.length ≤ 8 then some (Bytes.value bytes) else none) ∧
    ∀ (bytes : Bytes) (width : ℕ),
      ((decode? bytes width).isSome ↔
        (1 ≤ width ∧ width ≤ 8) ∧ width ≤ bytes.length ∧
          ∃ lead ∈ bytes.head?, 2 ^ (8 - width) ≤ lead.toNat) ∧
      ∀ size, decode? bytes width = some size →
        ∃ word, Bytes.uint? (bytes.take width) = some word ∧ idField? bytes width = some word ∧
          2 ^ (7 * width) ≤ word.toNat ∧
          (size = .unknown ↔ word.toNat = 2 ^ (7 * width + 1) - 1) ∧
          size.extent = if word.toNat = 2 ^ (7 * width + 1) - 1 then 2 ^ 63 - 1
            else word.toNat - 2 ^ (7 * width) :=
  ⟨Bytes.map_toNat_uint?, fun _ _ => ⟨isSome_decode?, fun _ => exists_word_of_decode?⟩⟩

/-- Two bytes whose lead byte announces a width of one, two bytes with all data bits set, and eight
bytes that fill a word. -/
theorem readers_agree_wide_lead :
    (decode? [0xFF, 0x02, 0xEC] 2 = some (.known 48898) ∧
      ∃ word, idField? [0xFF, 0x02, 0xEC] 2 = some word ∧ word.toNat = 48898 + 2 ^ 14) ∧
    (decode? [0x7F, 0xFF] 2 = some .unknown ∧
      ∃ word, Bytes.uint? [0x7F, 0xFF] = some word ∧ word.toNat = 2 ^ 15 - 1) ∧
    (decode? (List.replicate 8 0xFF) 8).isSome = true ∧
      (Bytes.uint? (List.replicate 8 0xFF)).map UInt64.toNat = some (2 ^ 64 - 1) := by
  obtain ⟨values, sizes⟩ := readers_agree
  have wide : decode? [0xFF, 0x02, 0xEC] 2 = some (.known 48898) := by decide
  have unknown : decode? [0x7F, 0xFF] 2 = some .unknown := by decide
  obtain ⟨word, -, id, most, -, extent⟩ := (sizes _ 2).2 _ wide
  obtain ⟨whole, spelled, -, -, reserved, -⟩ := (sizes _ 2).2 _ unknown
  have full := values (List.replicate 8 0xFF)
  have value : Bytes.value (List.replicate 8 0xFF) = 2 ^ 64 - 1 := by decide
  rw [List.length_replicate, if_pos (by decide), value] at full
  have known : (known 48898).extent = 48898 := rfl
  rw [known] at extent
  refine ⟨⟨wide, word, id, ?_⟩, ⟨unknown, whole, spelled, reserved.1 rfl⟩,
    (sizes _ 8).1.2 ⟨by decide, by decide, 0xFF, rfl, by decide⟩, full⟩
  split at extent <;> omega

end Size

end CueIndex
