/-!
# Decimals with a fixed number of places

* `Decimal.roundDiv` — a quotient rounded to the nearest whole number, a half to the even one.
* `Decimal.fraction` — a nonnegative finite `Float` as an exact quotient.
* `Decimal.fixed` — the text of a `Float` with a fixed number of places, rounded from its exact
  value.
* `Decimal.padLeft`, `Decimal.padRight` — text in a column.
-/

namespace CueIndex.Decimal

/-- The whole number nearest to `num / den`.  A half goes to the even neighbour. -/
def roundDiv (num den : Nat) : Nat :=
  let quotient := num / den
  let twice := 2 * (num % den)
  if twice < den then quotient
  else if den < twice then quotient + 1
  else quotient + quotient % 2

/-- The result is within half a unit of the quotient. -/
theorem roundDiv_near {num den : Nat} (pos : 0 < den) :
    2 * (roundDiv num den * den) ≤ 2 * num + den
      ∧ 2 * num ≤ 2 * (roundDiv num den * den) + den := by
  have split := Nat.div_add_mod num den
  have small := Nat.mod_lt num pos
  have exact : num / den * den = num - num % den := by rw [Nat.mul_comm]; omega
  have next : (num / den + 1) * den = num - num % den + den := by rw [Nat.add_mul, exact]; omega
  unfold roundDiv
  dsimp only
  split
  · rw [exact]; omega
  · split
    · rw [next]; omega
    · rcases Nat.mod_two_eq_zero_or_one (num / den) with even | odd
      · rw [even, Nat.add_zero, exact]; omega
      · rw [odd, next]; omega

/-- Of two equally near whole numbers the even one is taken. -/
theorem even_roundDiv_of_half {num den : Nat} (half : 2 * (num % den) = den) :
    roundDiv num den % 2 = 0 := by
  unfold roundDiv
  dsimp only
  rw [if_neg (by omega), if_neg (by omega)]
  omega

/-- A nonnegative finite `Float` as a quotient of whole numbers: its significand, and a power of two
from its exponent on one of the two sides. -/
def fraction (x : Float) : Nat × Nat :=
  let bits := x.toBits.toNat
  let hidden := 1 <<< 52
  let exponent := bits / hidden % 2048
  let trailing := bits % hidden
  if exponent = 0 then (trailing, 1 <<< 1074)
  else
    let significand := hidden + trailing
    if exponent < 1075 then (significand, 1 <<< (1075 - exponent))
    else (significand <<< (exponent - 1075), 1)

/-- Text in a column of the given width, at its right end, after copies of a character. -/
def padLeft (fill : Char) (width : Nat) (text : String) : String :=
  String.ofList (List.replicate (width - text.length) fill) ++ text

/-- Text in a column of the given width, at its left end, before blanks. -/
def padRight (width : Nat) (text : String) : String :=
  text ++ String.ofList (List.replicate (width - text.length) ' ')

/-- The text of a number of units, of which a power of ten makes up one whole. -/
def pointText (places units : Nat) : String :=
  let scale := Nat.pow 10 places
  toString (units / scale) ++ "." ++ padLeft '0' places (toString (units % scale))

/-- The text of a nonnegative finite `Float` with a fixed number of places, rounded from its exact
binary value. -/
def fixed (places : Nat) (x : Float) : String :=
  let (num, den) := fraction x
  pointText places (roundDiv (num * Nat.pow 10 places) den)

end CueIndex.Decimal
