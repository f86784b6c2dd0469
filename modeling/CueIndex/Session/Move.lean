import CueIndex.Element.Kind

/-!
# Moves

What the bytes ahead allow is a function of these bytes alone, whatever has been read before.

* `Move`, `nextMove` — what the bytes ahead allow: to meet an element, to stop, or neither, for now
  or for good.
* `two_le_advance_of_nextMove`, `advance_le_of_nextMove` — an element that is met takes in at least
  two bytes and no more than there are, so that reading element after element ends.
-/

namespace CueIndex

/-- Why the next element cannot be met yet. -/
inductive Gap
  /-- Its header is not all there. -/
  | header (error : HeaderError)
  /-- It is not all there, and `required` bytes would be enough. -/
  | element (required : Nat)
  deriving DecidableEq, Repr

/-- What the bytes ahead allow. -/
inductive Move
  /-- Nothing before more bytes arrive. -/
  | wait (gap : Gap)
  /-- Nothing, whatever arrives. -/
  | malformed (error : HeaderError)
  /-- Stopping in front of a cluster. -/
  | stop (header : Header)
  /-- Meeting an element. -/
  | take (header : Header)
  deriving DecidableEq, Repr

/-- What the bytes ahead allow. -/
def nextMove (ahead : Bytes) : Move :=
  match decodeHeader ahead with
  | .error error => if error.isRecoverable then .wait (.header error) else .malformed error
  | .ok header =>
    if Bytes.reaches ahead header.required then
      if header.kind? = some .cluster then .stop header else .take header
    else .wait (.element header.required)

/-- Every element that is met takes in at least two bytes. -/
theorem two_le_advance_of_nextMove {ahead : Bytes} {header : Header}
    (move : nextMove ahead = .take header) : 2 ≤ header.advance := by
  unfold nextMove at move
  split at move
  · split at move <;> cases move
  · next found read =>
    split at move
    · split at move
      · cases move
      · cases move
        have := (le_of_decodeHeader read).1
        unfold Header.advance Header.span
        split <;> omega
    · cases move

/-- Every element that is met takes in no more bytes than there are. -/
theorem advance_le_of_nextMove {ahead : Bytes} {header : Header}
    (move : nextMove ahead = .take header) : header.advance ≤ ahead.length := by
  unfold nextMove at move
  split at move
  · split at move <;> cases move
  · next found read =>
    split at move
    · next fits =>
      split at move
      · cases move
      · next notCluster =>
        cases move
        have fits := Bytes.reaches_iff.1 fits
        have := (le_of_decodeHeader read).2
        unfold Header.advance
        split
        · exact this
        · next whole =>
          have : header.required = header.span := by
            unfold Header.required
            cases kind : header.kind? with
            | none => simp
            | some k => cases k <;> simp_all [Kind.isOpen, Kind.isEntered]
          omega
    · cases move

end CueIndex
