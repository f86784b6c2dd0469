import Mathlib
import CueIndex.Element.Size

/-!
# Field widths and patterns as powers of two

* `fieldWidth_eq_iff` — a lead byte announces a width exactly if it lies between the mark of that
  width and twice it.
* `toNat_widthMark`, `Size.toNat_marker` — the marks and the reserved patterns.
* `two_pow_seven_mul`, `data_lt_iff` — what fits in the data bits of a field: seven for each byte.
-/

namespace CueIndex

/-- A lead byte announces `width` exactly if it lies between the mark of that width and twice it. -/
lemma fieldWidth_eq_iff {lead : UInt8} {width : Nat} (valid : IsWidth width) :
    fieldWidth lead = width ↔ 2 ^ (8 - width) ≤ lead.toNat ∧ lead.toNat < 2 ^ (9 - width) := by
  unfold fieldWidth
  split
  · next zero =>
    subst zero
    have : 0 < 2 ^ (8 - width) := Nat.two_pow_pos _
    constructor
    · intro h; omega
    · intro h; exact absurd h.1 (by simp)
  · next nonzero =>
    have nonzero : lead.toNat ≠ 0 := fun h => nonzero (UInt8.toNat_inj.1 h)
    have short := (Nat.log2_lt nonzero).2 (show lead.toNat < 2 ^ 8 from lead.toNat_lt)
    rw [← Nat.le_log2 nonzero, ← Nat.log2_lt nonzero]
    omega

lemma toNat_widthMark {width : Nat} (valid : IsWidth width) :
    (widthMark width).toNat = 2 ^ (8 - width) := by
  have : 2 ^ (8 - width) ≤ 2 ^ 7 := Nat.pow_le_pow_right (by decide) (by omega)
  rw [widthMark, UInt8.toNat_ofNat', Nat.one_shiftLeft]
  exact Nat.mod_eq_of_lt (by omega)

lemma Size.toNat_marker {width : Nat} (valid : IsWidth width) :
    (marker width).toNat = 2 ^ (7 * width) - 1 := by
  have : 2 ^ (7 * width) ≤ 2 ^ 56 := Nat.pow_le_pow_right (by decide) (by omega)
  rw [marker, UInt64.toNat_ofNat', Nat.one_shiftLeft]
  exact Nat.mod_eq_of_lt (by omega)

/-- The announcing bit of a field stands right above its data bits, of which there are `8 - width`
in the first byte and eight in every other: seven for each byte. -/
lemma two_pow_seven_mul {width : ℕ} (valid : IsWidth width) :
    2 ^ (7 * width) = 2 ^ (8 - width) * 256 ^ (width - 1) := by
  rw [show 256 = 2 ^ 8 from rfl, ← Nat.pow_mul, ← Nat.pow_add]
  congr 1
  omega

/-- Data fits in a field exactly if its part in the first byte leaves the announcing bit free. -/
lemma data_lt_iff {width high low : ℕ} (valid : IsWidth width) (back : low < 256 ^ (width - 1)) :
    high * 256 ^ (width - 1) + low < 2 ^ (7 * width) ↔ high < 2 ^ (8 - width) := by
  rw [two_pow_seven_mul valid]
  constructor
  · intro fits
    exact Nat.lt_of_mul_lt_mul_right ((Nat.le_add_right _ _).trans_lt fits)
  · intro front
    calc high * 256 ^ (width - 1) + low
        < high * 256 ^ (width - 1) + 256 ^ (width - 1) := Nat.add_lt_add_left back _
      _ = (high + 1) * 256 ^ (width - 1) := (Nat.succ_mul _ _).symm
      _ ≤ 2 ^ (8 - width) * 256 ^ (width - 1) := Nat.mul_le_mul_right _ front

end CueIndex
