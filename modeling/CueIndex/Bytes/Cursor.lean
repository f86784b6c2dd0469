import CueIndex.Bytes.Basic

/-!
# Cursors

A cursor is a byte string being read from front to back: how far the reading has come and what is
left to read.  Only the offset has a meaning outside the byte string it was made for.

* `Cursor.ofBytes` — a cursor at a given offset, no further than the end.
* `Cursor.advance?` — forward by a number of bytes, or not at all.
-/

namespace CueIndex

/-- A place in a byte string: the bytes before it are counted, the bytes from it on are kept. -/
structure Cursor where
  /-- Bytes already behind the cursor. -/
  offset : Nat
  /-- Bytes still ahead of it. -/
  rest : Bytes
  deriving DecidableEq, Repr

namespace Cursor

/-- The cursor `start` bytes into a byte string, or at its end if it is shorter. -/
def ofBytes (bytes : Bytes) (start : Nat) : Cursor where
  offset := min start bytes.length
  rest := bytes.drop start

/-- How many bytes are still ahead. -/
def remaining (c : Cursor) : Nat := c.rest.length

/-- Forward by `n` bytes; `none` when fewer are left. -/
def advance? (c : Cursor) (n : Nat) : Option Cursor :=
  if Bytes.reaches c.rest n then some ⟨c.offset + n, c.rest.drop n⟩ else none

/-- Forward by `n` bytes if that many are left, and otherwise nowhere. -/
def advance (c : Cursor) (n : Nat) : Cursor := (c.advance? n).getD c

/-- Advancing fails exactly when it would pass the end. -/
theorem advance?_eq_none_iff {c : Cursor} {n : Nat} : c.advance? n = none ↔ c.remaining < n := by
  simp [advance?, remaining, Bytes.reaches_iff]

/-- A cursor and the bytes ahead of it always make up the byte string it was made for. -/
theorem offset_add_remaining_ofBytes (bytes : Bytes) (start : Nat) :
    (ofBytes bytes start).offset + (ofBytes bytes start).remaining = bytes.length := by
  simp only [ofBytes, remaining, List.length_drop]
  omega

/-- Advancing moves bytes from ahead of the cursor to behind it. -/
theorem offset_add_remaining_advance (c : Cursor) (n : Nat) :
    (c.advance n).offset + (c.advance n).remaining = c.offset + c.remaining := by
  unfold advance advance?
  split
  · next h =>
    have := Bytes.reaches_iff.1 h
    simp only [Option.getD_some, remaining, List.length_drop]
    omega
  · rfl

end Cursor

end CueIndex
