/-!
# Byte strings

Everything the library reads is a finite byte string, most recently received byte last.

* `Bytes` — a list of bytes.
* `Bytes.reaches` — whether a byte string has at least a given number of bytes, answered without
  measuring all of it.  `Bytes.reaches_iff` says that this is a comparison with the length.
-/

namespace CueIndex

/-- A finite byte string, in stream order. -/
abbrev Bytes := List UInt8

namespace Bytes

/-- Whether at least `n` bytes are present.  At most `n` bytes are looked at, so asking about a
short field costs the same on a short and on a long buffer. -/
def reaches : Bytes → Nat → Bool
  | _, 0 => true
  | [], _ + 1 => false
  | _ :: rest, n + 1 => reaches rest n

@[simp] theorem reaches_zero (bytes : Bytes) : reaches bytes 0 = true := by
  cases bytes <;> rfl

@[simp] theorem reaches_nil_succ (n : Nat) : reaches [] (n + 1) = false := rfl

@[simp] theorem reaches_cons_succ (b : UInt8) (rest : Bytes) (n : Nat) :
    reaches (b :: rest) (n + 1) = reaches rest n := rfl

/-- Reaching `n` bytes is having at least `n` of them. -/
theorem reaches_iff {bytes : Bytes} {n : Nat} : reaches bytes n = true ↔ n ≤ bytes.length := by
  induction bytes generalizing n with
  | nil => cases n <;> simp
  | cons b rest ih => cases n <;> simp [ih]

/-- Falling short of `n` bytes is having fewer of them. -/
theorem reaches_eq_false_iff {bytes : Bytes} {n : Nat} :
    reaches bytes n = false ↔ bytes.length < n := by
  rw [← Bool.not_eq_true, reaches_iff, Nat.not_le]

end Bytes

end CueIndex
