import Mathlib
import CueIndex.Element.Fields
import CueIndex.Session.Move

/-!
# Headers and moves when more bytes arrive

A stream is read while it arrives, so whatever is decided from the bytes ahead has to stand when
more of them are there.  Two kinds of answer stand: a header that has been read, and a header that
can never be read.

**What decides.**  Once the widths of the two fields are known their contents can be read as well
(`idField?_of_fieldWidthAt`, `decode?_of_fieldWidthAt`), so a header is read exactly if both widths
are (`decodeHeader_eq_ok_iff`), and there is no other way to fail (`decodeHeader_eq_error`).

**What stands.**  `fieldWidthAt_append` for a field, `decodeHeader_append` and
`decodeHeader_append_error` for a header, and `nextMove_append` for what a reading may do next.
`nextMove_take` is the other direction: the beginning of an element that has to be there whole
allows nothing yet.

**What is looked at.**  A header is read from its own bytes alone (`decodeHeader_of_take_eq`).
-/

namespace CueIndex

/-! ## One field -/

lemma Bytes.reaches_append {bytes : Bytes} {n : ℕ} (reached : Bytes.reaches bytes n = true)
    (more : Bytes) : Bytes.reaches (bytes ++ more) n = true := by
  rw [Bytes.reaches_iff] at reached ⊢
  simp only [List.length_append]
  omega

/-- The first byte of a field is the same when more bytes are there. -/
lemma drop_append_of_drop_eq_cons {bytes rest : Bytes} {lead : UInt8} {start : ℕ}
    (ahead : bytes.drop start = lead :: rest) (more : Bytes) :
    (bytes ++ more).drop start = lead :: (rest ++ more) := by
  have inside : start < bytes.length := by
    by_contra outside
    rw [List.drop_eq_nil_of_le (by omega)] at ahead
    cases ahead
  rw [List.drop_append_of_le_length (by omega), ahead, List.cons_append]

/-- **A known width stays known.**  So does a width that does not exist; only a field that goes on
past the last byte is answered differently later. -/
theorem fieldWidthAt_append {bytes : Bytes} {start : ℕ} {answer : Except HeaderError ℕ}
    (read : fieldWidthAt bytes start = answer)
    (settled : ∀ error, answer = .error error → error.isRecoverable = false) (more : Bytes) :
    fieldWidthAt (bytes ++ more) start = answer := by
  subst read
  unfold fieldWidthAt at settled ⊢
  cases ahead : bytes.drop start with
  | nil =>
      rw [ahead] at settled
      exact absurd (settled _ rfl) (by simp [HeaderError.isRecoverable])
  | cons lead rest =>
      rw [ahead] at settled
      rw [drop_append_of_drop_eq_cons ahead more]
      dsimp only at settled ⊢
      split
      · rfl
      · next wide =>
        rw [if_neg wide] at settled
        by_cases fits : Bytes.reaches bytes (start + fieldWidth lead) = true
        · rw [if_pos fits, if_pos (Bytes.reaches_append fits more)]
        · rw [if_neg fits] at settled
          exact absurd (settled _ rfl) (by simp [HeaderError.isRecoverable])

/-- A field whose width is known starts with a byte that announces this width. -/
lemma lead_of_fieldWidthAt {bytes : Bytes} {start width : ℕ}
    (read : fieldWidthAt bytes start = .ok width) :
    IsWidth width ∧ ∃ lead rest, bytes.drop start = lead :: rest ∧ fieldWidth lead = width := by
  have bounds := le_of_fieldWidthAt read
  unfold fieldWidthAt at read
  split at read
  · cases read
  · next lead rest ahead =>
    dsimp only at read
    split at read
    · cases read
    · next wide =>
      split at read
      · cases read
        exact ⟨⟨bounds.1, by omega⟩, lead, rest, ahead, rfl⟩
      · cases read

/-- The content of an id field of known width can be read. -/
lemma idField?_of_fieldWidthAt {bytes : Bytes} {width : ℕ}
    (read : fieldWidthAt bytes 0 = .ok width) : ∃ id, idField? bytes width = some id := by
  obtain ⟨valid, -⟩ := lead_of_fieldWidthAt read
  have inside := (le_of_fieldWidthAt read).2
  exact Option.isSome_iff_exists.1 (isSome_idField?.2 ⟨valid, by omega⟩)

/-- The content of a size field of known width can be read. -/
lemma decode?_of_fieldWidthAt {bytes : Bytes} {start width : ℕ}
    (read : fieldWidthAt bytes start = .ok width) :
    ∃ size, Size.decode? (bytes.drop start) width = some size := by
  obtain ⟨valid, lead, rest, ahead, announced⟩ := lead_of_fieldWidthAt read
  have inside := (le_of_fieldWidthAt read).2
  have long : width - 1 ≤ rest.length := by
    have := congrArg List.length ahead
    simp only [List.length_drop, List.length_cons] at this
    omega
  have marked : widthMark width ≤ lead := by
    rw [UInt8.le_iff_toNat_le, toNat_widthMark valid]
    exact ((fieldWidth_eq_iff valid).1 announced).1
  rw [ahead]
  exact ⟨_, Size.decode?_cons_eq_some_iff.2 ⟨⟨valid, long, marked⟩, rfl⟩⟩

/-! ## A whole header -/

section Widths

variable {bytes : Bytes} {idWidth sizeWidth : ℕ} {error : HeaderError}

lemma decodeHeader_of_first_error (nonempty : bytes ≠ [])
    (first : fieldWidthAt bytes 0 = .error error) : decodeHeader bytes = .error error := by
  cases bytes with
  | nil => exact absurd rfl nonempty
  | cons lead rest => simp only [decodeHeader, first, bind, Except.bind]

lemma decodeHeader_of_second_error (first : fieldWidthAt bytes 0 = .ok idWidth)
    (second : fieldWidthAt bytes idWidth = .error error) : decodeHeader bytes = .error error := by
  cases bytes with
  | nil => cases first
  | cons lead rest => simp only [decodeHeader, first, second, bind, Except.bind]

lemma decodeHeader_of_widths (first : fieldWidthAt bytes 0 = .ok idWidth)
    (second : fieldWidthAt bytes idWidth = .ok sizeWidth) :
    ∃ id size, idField? bytes idWidth = some id ∧
      Size.decode? (bytes.drop idWidth) sizeWidth = some size ∧
      decodeHeader bytes
        = .ok { id := id.toUInt32, size := size, length := idWidth + sizeWidth } := by
  obtain ⟨id, idRead⟩ := idField?_of_fieldWidthAt first
  obtain ⟨size, sizeRead⟩ := decode?_of_fieldWidthAt second
  refine ⟨id, size, idRead, sizeRead, ?_⟩
  cases bytes with
  | nil => cases first
  | cons lead rest =>
      simp only [decodeHeader, first, second, bind, Except.bind, idRead, sizeRead]
      rfl

end Widths

/-- **A header is read exactly if the widths of its two fields are known.** -/
theorem decodeHeader_eq_ok_iff {bytes : Bytes} {header : Header} :
    decodeHeader bytes = .ok header ↔ ∃ idWidth sizeWidth id size,
      fieldWidthAt bytes 0 = .ok idWidth ∧ fieldWidthAt bytes idWidth = .ok sizeWidth ∧
      idField? bytes idWidth = some id ∧ Size.decode? (bytes.drop idWidth) sizeWidth = some size ∧
      header = { id := id.toUInt32, size := size, length := idWidth + sizeWidth } := by
  constructor
  · intro read
    have nonempty : bytes ≠ [] := by rintro rfl; cases read
    cases first : fieldWidthAt bytes 0 with
    | error e => rw [decodeHeader_of_first_error nonempty first] at read; cases read
    | ok idWidth =>
        cases second : fieldWidthAt bytes idWidth with
        | error e => rw [decodeHeader_of_second_error first second] at read; cases read
        | ok sizeWidth =>
            obtain ⟨id, size, idRead, sizeRead, all⟩ := decodeHeader_of_widths first second
            rw [all] at read
            cases read
            exact ⟨idWidth, sizeWidth, id, size, rfl, second, idRead, sizeRead, rfl⟩
  · rintro ⟨idWidth, sizeWidth, id, size, first, second, idRead, sizeRead, rfl⟩
    obtain ⟨id', size', idRead', sizeRead', all⟩ := decodeHeader_of_widths first second
    rw [idRead] at idRead'
    rw [sizeRead] at sizeRead'
    cases idRead'
    cases sizeRead'
    exact all

/-- A header is missed for one of three reasons: there are no bytes, or the width of one of its two
fields is not known. -/
theorem decodeHeader_eq_error {bytes : Bytes} {error : HeaderError}
    (missed : decodeHeader bytes = .error error) :
    (bytes = [] ∧ error = .empty) ∨ fieldWidthAt bytes 0 = .error error ∨
      ∃ idWidth, fieldWidthAt bytes 0 = .ok idWidth ∧
        fieldWidthAt bytes idWidth = .error error := by
  by_cases nonempty : bytes = []
  · subst nonempty
    cases missed
    exact Or.inl ⟨rfl, rfl⟩
  · refine Or.inr ?_
    cases first : fieldWidthAt bytes 0 with
    | error e =>
        rw [decodeHeader_of_first_error nonempty first] at missed
        cases missed
        exact Or.inl rfl
    | ok idWidth =>
        refine Or.inr ⟨idWidth, rfl, ?_⟩
        cases second : fieldWidthAt bytes idWidth with
        | error e =>
            rw [decodeHeader_of_second_error first second] at missed
            cases missed
            rfl
        | ok sizeWidth =>
            -- both widths known: the contents can be read, so nothing was missed
            obtain ⟨id, size, -, -, all⟩ := decodeHeader_of_widths first second
            rw [all] at missed
            cases missed

lemma idField?_append {bytes : Bytes} {width : ℕ} (inside : width ≤ bytes.length)
    (more : Bytes) : idField? (bytes ++ more) width = idField? bytes width := by
  have here := Bytes.reaches_iff.2 inside
  rw [idField?, idField?, if_pos here, if_pos (Bytes.reaches_append here more),
    List.take_append_of_le_length inside]

lemma Size.decode?_append {bytes : Bytes} {width : ℕ} {size : Size}
    (read : Size.decode? bytes width = some size) (more : Bytes) :
    Size.decode? (bytes ++ more) width = some size := by
  cases bytes with
  | nil => cases read
  | cons lead rest =>
      obtain ⟨⟨valid, long, marked⟩, rfl⟩ := decode?_cons_eq_some_iff.1 read
      rw [List.cons_append, decode?_cons_eq_some_iff, List.take_append_of_le_length long]
      exact ⟨⟨valid, by rw [List.length_append]; omega, marked⟩, rfl⟩

/-- **A header that has been read is read the same way from every longer byte string.** -/
theorem decodeHeader_append {bytes : Bytes} {header : Header}
    (read : decodeHeader bytes = .ok header) (more : Bytes) :
    decodeHeader (bytes ++ more) = .ok header := by
  obtain ⟨idWidth, sizeWidth, id, size, first, second, idRead, sizeRead, rfl⟩ :=
    decodeHeader_eq_ok_iff.1 read
  have inside := le_of_fieldWidthAt first
  refine decodeHeader_eq_ok_iff.2 ⟨idWidth, sizeWidth, id, size, ?_, ?_, ?_, ?_, rfl⟩
  · exact fieldWidthAt_append first (by intro e h; cases h) more
  · exact fieldWidthAt_append second (by intro e h; cases h) more
  · rw [idField?_append (by omega), idRead]
  · rw [List.drop_append_of_le_length (by omega)]
    exact Size.decode?_append sizeRead more

/-- **A header that can never be read is missed for the same reason in every longer byte
string.** -/
theorem decodeHeader_append_error {bytes : Bytes} {error : HeaderError}
    (missed : decodeHeader bytes = .error error) (hopeless : error.isRecoverable = false)
    (more : Bytes) : decodeHeader (bytes ++ more) = .error error := by
  have settled : ∀ e, (.error error : Except HeaderError ℕ) = .error e →
      e.isRecoverable = false := by
    rintro e ⟨⟩
    exact hopeless
  rcases decodeHeader_eq_error missed with ⟨rfl, rfl⟩ | first | ⟨idWidth, first, second⟩
  · cases hopeless
  · refine decodeHeader_of_first_error ?_ (fieldWidthAt_append first settled more)
    rintro nothing
    obtain ⟨rfl, -⟩ := List.append_eq_nil_iff.1 nothing
    cases missed
    cases hopeless
  · exact decodeHeader_of_second_error (fieldWidthAt_append first (by intro e h; cases h) more)
      (fieldWidthAt_append second settled more)

/-! ## Only the bytes of the header matter -/

lemma fieldWidthAt_take {bytes : Bytes} {start width n : ℕ}
    (read : fieldWidthAt bytes start = .ok width) (inside : start + width ≤ n) :
    fieldWidthAt (bytes.take n) start = .ok width := by
  obtain ⟨valid, lead, rest, ahead, rfl⟩ := lead_of_fieldWidthAt read
  have long := (le_of_fieldWidthAt read).2
  have start_lt : 0 < n - start := by omega
  have front : (bytes.take n).drop start = lead :: rest.take (n - start - 1) := by
    rw [List.drop_take, ahead, List.take_cons start_lt]
  have reached : Bytes.reaches (bytes.take n) (start + fieldWidth lead) = true :=
    Bytes.reaches_iff.2 (by rw [List.length_take]; omega)
  simp only [fieldWidthAt, front, reached, if_neg (Nat.not_lt.2 valid.2), if_true]

/-- The bytes of a header are enough to read it. -/
lemma decodeHeader_take {bytes : Bytes} {header : Header}
    (read : decodeHeader bytes = .ok header) :
    decodeHeader (bytes.take header.length) = .ok header := by
  obtain ⟨idWidth, sizeWidth, id, size, first, second, -, -, rfl⟩ := decodeHeader_eq_ok_iff.1 read
  obtain ⟨_, _, -, -, all⟩ := decodeHeader_of_widths
    (fieldWidthAt_take first (n := idWidth + sizeWidth) (by omega))
    (fieldWidthAt_take second (n := idWidth + sizeWidth) (Nat.le_refl _))
  -- what is read from the first bytes is read from all of them, so it is the header
  have whole := decodeHeader_append all (bytes.drop (idWidth + sizeWidth))
  rw [List.take_append_drop, read] at whole
  rw [all, ← whole]

/-- **A header is read from its own bytes alone.** -/
theorem decodeHeader_of_take_eq {bytes other : Bytes} {header : Header}
    (read : decodeHeader bytes = .ok header)
    (same : other.take header.length = bytes.take header.length) :
    decodeHeader other = .ok header := by
  have front := decodeHeader_take read
  rw [← same] at front
  have whole := decodeHeader_append front (other.drop header.length)
  rwa [List.take_append_drop] at whole

/-! ## Moves -/

/-- An element whose header is read but that is not there as far as required is waited for. -/
lemma nextMove_of_short {ahead : Bytes} {header : Header}
    (read : decodeHeader ahead = .ok header) (short : ahead.length < header.required) :
    nextMove ahead = .wait (.element header.required) := by
  simp only [nextMove, read, Bytes.reaches_eq_false_iff.2 short, Bool.false_eq_true, if_false]

/-- An element is met, or stopped at, exactly if its header is read and as much of it is there as
is required. -/
lemma nextMove_of_decodeHeader {ahead : Bytes} {header : Header}
    (read : decodeHeader ahead = .ok header) (there : header.required ≤ ahead.length) :
    nextMove ahead = if header.kind? = some .cluster then .stop header else .take header := by
  simp only [nextMove, read, Bytes.reaches_iff.2 there, if_true]

/-- What a reading may do next, spelled out for each answer. -/
lemma decodeHeader_of_nextMove {ahead : Bytes} {header : Header}
    (move : nextMove ahead = .take header ∨ nextMove ahead = .stop header) :
    decodeHeader ahead = .ok header ∧ header.required ≤ ahead.length := by
  unfold nextMove at move
  split at move
  · split at move <;> rcases move with move | move <;> cases move
  · next found read =>
    split at move
    · next there =>
      have there := Bytes.reaches_iff.1 there
      split at move <;> rcases move with move | move <;> cases move <;> exact ⟨read, there⟩
    · rcases move with move | move <;> cases move

/-- **A move that more bytes cannot change.**  Only waiting can end. -/
theorem nextMove_append {ahead : Bytes} (settled : ∀ gap, nextMove ahead ≠ .wait gap)
    (more : Bytes) : nextMove (ahead ++ more) = nextMove ahead := by
  cases read : decodeHeader ahead with
  | error error =>
      cases recoverable : error.isRecoverable with
      | true =>
          refine absurd ?_ (settled (.header error))
          simp only [nextMove, read, recoverable, if_true]
      | false =>
          simp only [nextMove, read, decodeHeader_append_error read recoverable more, recoverable]
  | ok header =>
      by_cases there : header.required ≤ ahead.length
      · rw [nextMove_of_decodeHeader read there,
          nextMove_of_decodeHeader (decodeHeader_append read more)
            (by rw [List.length_append]; omega)]
      · exact absurd (nextMove_of_short read (Nat.lt_of_not_le there))
          (settled (.element header.required))

/-- **The beginning of an element that has to be there whole allows nothing yet.**  The bytes of
the element are `whole`, and fewer than all of them are there. -/
theorem nextMove_take {whole : Bytes} {header : Header} (read : decodeHeader whole = .ok header)
    {k : ℕ} (short : k < header.required) (inside : k ≤ whole.length) :
    ∃ gap, nextMove (whole.take k) = .wait gap := by
  have split : whole.take k ++ whole.drop k = whole := List.take_append_drop k whole
  cases start : decodeHeader (whole.take k) with
  | error error =>
      cases recoverable : error.isRecoverable with
      | true =>
          refine ⟨.header error, ?_⟩
          simp only [nextMove, start, recoverable, if_true]
      | false =>
          have := decodeHeader_append_error start recoverable (whole.drop k)
          rw [split, read] at this
          cases this
  | ok other =>
      have := decodeHeader_append start (whole.drop k)
      rw [split, read] at this
      cases this
      exact ⟨_, nextMove_of_short start (by rw [List.length_take]; omega)⟩

end CueIndex
