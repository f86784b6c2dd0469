import CueIndex.Bytes.Basic

/-!
# Field widths

An element starts with two fields, its id and its size.  Each announces its own width by the first
set bit of its lead byte: `1xxxxxxx` is one byte wide, `01xxxxxx` two, and so on down to `00000001`,
which is eight.

* `fieldWidth` — the width that a lead byte announces; nine for the zero byte, which announces none.
* `IsWidth` — the widths that exist.
* `widthMark` — the bit that announces a width.
-/

namespace CueIndex

/-- The width that a lead byte announces: one more than the number of zero bits before its first set
bit.  The zero byte has no set bit, so it gives nine, and that is no width. -/
def fieldWidth (lead : UInt8) : Nat :=
  if lead = 0 then 9 else 8 - lead.toNat.log2

/-- A field is one to eight bytes wide. -/
abbrev IsWidth (width : Nat) : Prop := 1 ≤ width ∧ width ≤ 8

/-- The bit of the lead byte that announces `width`. -/
def widthMark (width : Nat) : UInt8 := UInt8.ofNat (1 <<< (8 - width))

theorem fieldWidth_pos (lead : UInt8) : 1 ≤ fieldWidth lead := by
  unfold fieldWidth
  split
  · decide
  · next nonzero =>
    have : lead.toNat ≠ 0 := fun h => nonzero (UInt8.toNat_inj.1 h)
    have := (Nat.log2_lt this).2 (show lead.toNat < 2 ^ 8 from lead.toNat_lt)
    omega

/-- Only the zero byte announces no width. -/
theorem isWidth_fieldWidth_iff {lead : UInt8} : IsWidth (fieldWidth lead) ↔ lead ≠ 0 := by
  unfold fieldWidth
  split
  · next zero => simp [zero, IsWidth]
  · next nonzero =>
    have := fieldWidth_pos lead
    rw [fieldWidth, if_neg nonzero] at this
    simp only [ne_eq, nonzero, not_false_eq_true, iff_true]
    omega

end CueIndex
