import Mathlib
import CueIndex.Bytes.BigEndian

/-!
# Positional values

A byte string spells a number in base 256, most significant byte first, with no bound on its length.
Words are folds of shifts and positional values are sums of powers; this is where the two meet.

* `Bytes.value` — the number that a byte string spells.  `Bytes.value_injective` says that no other
  byte string of the same length spells it.
* `Bytes.toNat_shiftInAll` — shifting a byte string into a word that has room for it multiplies the
  word and adds the value.
* `Bytes.map_toNat_uint?` — the word that one to eight bytes spell is their positional value.
* `Bytes.value_lowBytes` — the low bytes of a word spell its remainder.
-/

namespace CueIndex.Bytes

/-! ## Positional value -/

/-- The number that a byte string spells in base 256, most significant byte first. -/
def value : Bytes → Nat
  | [] => 0
  | b :: rest => b.toNat * 256 ^ rest.length + value rest

@[simp] lemma value_nil : value [] = 0 := rfl

@[simp] lemma value_cons (b : UInt8) (rest : Bytes) :
    value (b :: rest) = b.toNat * 256 ^ rest.length + value rest := rfl

/-- Bytes appended at the low end push the earlier ones up by one power of 256 each. -/
lemma value_append (front back : Bytes) :
    value (front ++ back) = value front * 256 ^ back.length + value back := by
  induction front with
  | nil => simp
  | cons b rest ih =>
    simp only [List.cons_append, value_cons, ih, List.length_append, Nat.pow_add]
    rw [Nat.add_mul, Nat.mul_assoc, Nat.add_assoc]

/-- A byte string of length `n` spells a number below `256 ^ n`. -/
lemma value_lt (bytes : Bytes) : value bytes < 256 ^ bytes.length := by
  induction bytes with
  | nil => simp
  | cons b rest ih =>
    have top : b.toNat + 1 ≤ 256 := b.toNat_lt
    calc value (b :: rest) < b.toNat * 256 ^ rest.length + 256 ^ rest.length := by
          simpa using ih
      _ = (b.toNat + 1) * 256 ^ rest.length := by rw [Nat.add_mul, Nat.one_mul]
      _ ≤ 256 * 256 ^ rest.length := Nat.mul_le_mul_right _ top
      _ = 256 ^ (b :: rest).length := by rw [List.length_cons, Nat.pow_succ, Nat.mul_comm]

/-- Byte strings of one length that spell the same number are equal. -/
lemma value_injective {one other : Bytes} (length : one.length = other.length)
    (same : value one = value other) : one = other := by
  induction one generalizing other with
  | nil => exact (List.length_eq_zero_iff.1 length.symm).symm
  | cons b rest ih =>
    cases other with
    | nil => cases length
    | cons c others =>
      have length : rest.length = others.length := by simpa using length
      have low := value_lt rest
      have low' := value_lt others
      rw [← length] at low'
      rw [value_cons, value_cons, ← length] at same
      have pos : 0 < 256 ^ rest.length := Nat.pow_pos (by decide)
      have high : b.toNat = c.toNat := by
        have := congrArg (· / 256 ^ rest.length) same
        simpa [Nat.mul_add_div, Nat.mul_comm, Nat.div_eq_of_lt, low, low', pos] using this
      rw [high] at same
      rw [UInt8.toNat_inj.1 high, ih length (Nat.add_left_cancel same)]

/-- Zero bytes in front do not count. -/
lemma value_dropWhile_zero (bytes : Bytes) : value (bytes.dropWhile (· = 0)) = value bytes := by
  induction bytes with
  | nil => rfl
  | cons b rest ih =>
    by_cases zero : b = 0
    · rw [List.dropWhile_cons_of_pos (by simpa using zero), ih, value_cons, zero]
      simp
    · rw [List.dropWhile_cons_of_neg (by simpa using zero)]

/-! ## Words -/

/-- Shifting a byte in multiplies by 256 and adds, as long as nothing leaves the word. -/
lemma toNat_shiftIn {acc : UInt64} (b : UInt8) (room : acc.toNat < 2 ^ 56) :
    (shiftIn acc b).toNat = acc.toNat * 256 + b.toNat := by
  have low : b.toNat < 2 ^ 8 := b.toNat_lt
  have split := Nat.two_pow_add_eq_or_of_lt low acc.toNat
  rw [shiftIn, UInt64.toNat_or, UInt64.toNat_shiftLeft, UInt8.toNat_toUInt64,
    show (8 : UInt64).toNat % 64 = 8 from rfl, Nat.shiftLeft_eq,
    Nat.mod_eq_of_lt (by omega), Nat.mul_comm acc.toNat (2 ^ 8), ← split]

/-- Shifting in a whole string agrees with the positional value, as long as the word has room. -/
lemma toNat_shiftInAll {acc : UInt64} (bytes : Bytes)
    (room : acc.toNat * 256 ^ bytes.length + value bytes < 2 ^ 64) :
    (shiftInAll acc bytes).toNat = acc.toNat * 256 ^ bytes.length + value bytes := by
  induction bytes generalizing acc with
  | nil => simp [shiftInAll]
  | cons b rest ih =>
    have pos : 0 < 256 ^ rest.length := Nat.pow_pos (by decide)
    have regroup : (acc.toNat * 256 + b.toNat) * 256 ^ rest.length + value rest
        = acc.toNat * 256 ^ (b :: rest).length + value (b :: rest) := by
      rw [List.length_cons, value_cons, Nat.pow_succ, Nat.add_mul, Nat.mul_assoc,
        Nat.mul_comm 256, Nat.add_assoc]
    have small : acc.toNat < 2 ^ 56 := by
      have := Nat.le_mul_of_pos_right (acc.toNat * 256 + b.toNat) pos
      omega
    have step := toNat_shiftIn b small
    have := @ih (shiftIn acc b) (by rw [step, regroup]; exact room)
    rw [shiftInAll, List.foldl_cons]
    rw [shiftInAll] at this
    rw [this, step, regroup]

/-- Eight bytes fit in a word. -/
lemma value_lt_of_length_le {bytes : Bytes} (short : bytes.length ≤ 8) :
    value bytes < 2 ^ 64 := by
  calc value bytes < 256 ^ bytes.length := value_lt bytes
    _ ≤ 256 ^ 8 := Nat.pow_le_pow_right (by decide) short
    _ = 2 ^ 64 := by decide

/-- Up to eight bytes are shifted into an empty word without loss. -/
lemma toNat_shiftInAll_zero {bytes : Bytes} (short : bytes.length ≤ 8) :
    (shiftInAll 0 bytes).toNat = value bytes := by
  have room : (0 : UInt64).toNat * 256 ^ bytes.length + value bytes < 2 ^ 64 := by
    rw [UInt64.toNat_zero, Nat.zero_mul, Nat.zero_add]
    exact value_lt_of_length_le short
  rw [toNat_shiftInAll bytes room, UInt64.toNat_zero, Nat.zero_mul, Nat.zero_add]

/-- Shifting further bytes in behind a lead byte fills the word with what all of them spell. -/
lemma toNat_shiftInAll_lead {lead : UInt8} {rest : Bytes} (short : (lead :: rest).length ≤ 8) :
    (shiftInAll lead.toUInt64 rest).toNat = value (lead :: rest) := by
  have room := value_lt_of_length_le short
  rw [value_cons, ← UInt8.toNat_toUInt64] at room
  rw [toNat_shiftInAll rest room, UInt8.toNat_toUInt64, value_cons]

/-- **The word that bytes spell is their positional value**, and one to eight bytes spell one. -/
theorem map_toNat_uint? (bytes : Bytes) :
    (uint? bytes).map UInt64.toNat
      = if 1 ≤ bytes.length ∧ bytes.length ≤ 8 then some (value bytes) else none := by
  rw [uint?]
  split
  · next shape => rw [Option.map_some, toNat_shiftInAll_zero shape.2]
  · rfl

/-- The low `n` bytes of a word spell its remainder modulo `256 ^ n`. -/
lemma value_lowBytes (n : Nat) (word : UInt64) :
    value (lowBytes n word) = word.toNat % 256 ^ n := by
  induction n generalizing word with
  | zero => simp [lowBytes, Nat.mod_one]
  | succ n ih =>
    have shifted : (word >>> 8).toNat = word.toNat / 256 := by
      rw [UInt64.toNat_shiftRight, show (8 : UInt64).toNat % 64 = 8 from rfl,
        Nat.shiftRight_eq_div_pow]
    have split : word.toNat % 256 ^ (n + 1)
        = word.toNat % 256 + 256 * (word.toNat / 256 % 256 ^ n) := by
      rw [Nat.pow_succ', Nat.mod_mul]
    rw [lowBytes, value_append, ih, shifted, split]
    simp only [List.length_singleton, Nat.pow_one, value_cons, List.length_nil, Nat.pow_zero,
      Nat.mul_one, value_nil, Nat.add_zero, UInt64.toNat_toUInt8]
    omega

end CueIndex.Bytes
