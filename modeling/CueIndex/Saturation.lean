/-!
# Saturation

Times and positions that are computed from numbers of the stream have no bound of their own.  They
are reported in 64 bits, and those that do not fit as the largest number that does.

* `saturate` — the number reported for a computed one.
-/

namespace CueIndex

/-- The largest 64-bit number that is not above `n`. -/
def saturate (n : Nat) : Nat := min n (UInt64.size - 1)

theorem saturate_eq_self {n : Nat} (small : n < UInt64.size) : saturate n = n :=
  Nat.min_eq_left (by omega)

theorem saturate_le (n : Nat) : saturate n ≤ n := Nat.min_le_left _ _

theorem saturate_lt (n : Nat) : saturate n < UInt64.size := by
  unfold saturate UInt64.size
  omega

/-- Saturation keeps the order of numbers, though it may make them equal. -/
theorem saturate_le_saturate {m n : Nat} (le : m ≤ n) : saturate m ≤ saturate n := by
  unfold saturate
  omega

end CueIndex
