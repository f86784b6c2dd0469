import CueIndex.Bytes.Basic

/-!
# Hexadecimal text

Ids and bytes in messages, in capital digits.

* `Hex.ofNat` — a number without leading zeros.
* `Hex.ofByte`, `Hex.ofBytes` — a byte in two digits, and a byte string as a bracketed list.
-/

namespace CueIndex.Hex

/-- The capital digits of a number, without leading zeros. -/
def ofNat (n : Nat) : String := String.ofList ((Nat.toDigits 16 n).map Char.toUpper)

/-- The two digits of a byte. -/
def ofByte (b : UInt8) : String := if b < 16 then "0" ++ ofNat b.toNat else ofNat b.toNat

/-- A byte string as a list of bytes in brackets. -/
def ofBytes (bytes : Bytes) : String := "[" ++ ", ".intercalate (bytes.map ofByte) ++ "]"

end CueIndex.Hex
