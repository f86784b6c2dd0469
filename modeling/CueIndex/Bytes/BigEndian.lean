import CueIndex.Bytes.Basic

/-!
# Big-endian integers

Integers are spelled most significant byte first and are held in 64-bit words.

* `Bytes.uint?` — the word spelled by one to eight bytes.
* `Bytes.lowBytes` — the other direction: the low bytes of a word.
-/

namespace CueIndex.Bytes

/-- The word with one more byte shifted in at the low end. -/
def shiftIn (acc : UInt64) (b : UInt8) : UInt64 := acc <<< 8 ||| b.toUInt64

/-- The word with a byte string shifted in, first byte first.  Bits that leave the top of the word
are lost, so a caller keeps the string within the eight bytes of a word. -/
def shiftInAll (acc : UInt64) (bytes : Bytes) : UInt64 := bytes.foldl shiftIn acc

/-- The unsigned integer that one to eight bytes spell.  No bytes spell none, and neither do more
than a word holds. -/
def uint? (bytes : Bytes) : Option UInt64 :=
  if 1 ≤ bytes.length ∧ bytes.length ≤ 8 then some (shiftInAll 0 bytes) else none

/-- The low `n` bytes of a word, most significant first; above eight they are zero. -/
def lowBytes : Nat → UInt64 → Bytes
  | 0, _ => []
  | n + 1, word => lowBytes n (word >>> 8) ++ [word.toUInt8]

@[simp] theorem length_lowBytes (n : Nat) (word : UInt64) : (lowBytes n word).length = n := by
  induction n generalizing word with
  | zero => rfl
  | succ n ih => simp [lowBytes, ih]

end CueIndex.Bytes
