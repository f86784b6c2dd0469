import Mathlib
import CueIndex.Proofs.Document.Meaning

/-!
# Reading the parts of a document

A part is met as a whole or not at all: its first element has to be there with everything in it
before anything is taken in.  So what a reading has met of a list of parts are the parts that lie
wholly inside the bytes that are there.

* `path_of_parts` — parts that are there are met one after the other.
* `read_of_last_part` — a reading that ends with the part that reaches the end of the cues.
* **`read_of_cut`** — a reading of bytes that end inside a part stops in front of it.
* `within_of_split` — the parts that it has met are those that lie wholly inside.
-/

namespace CueIndex

namespace Session

lemma cuesReached?_eq_none_iff {s : Session} :
    s.cuesReached? = none ↔ ∀ cuesEnd, s.cuesEnd = some cuesEnd → s.consumed < cuesEnd := by
  rw [cuesReached?]
  cases s.cuesEnd <;> simp

lemma cuesReached?_eq_some {s : Session} {cuesEnd : ℕ} (known : s.cuesEnd = some cuesEnd)
    (reached : cuesEnd ≤ s.consumed) : s.cuesReached? = some cuesEnd := by
  rw [cuesReached?, known, Option.filter_some, if_pos (by simpa using reached)]

end Session

namespace Piece

lemma length_pos (piece : Piece) : 0 < piece.bytes.length := by
  have := piece.front.length_pos
  rw [bytes, List.length_append]
  omega

/-- A plain piece moves the count of bytes on, and leaves the end of the cues alone. -/
lemma Plain.visit {piece : Piece} (plain : piece.Plain) (s : Session) :
    (piece.visit s).consumed = s.consumed + piece.bytes.length ∧
      (piece.visit s).cuesEnd = s.cuesEnd := by
  have record : (s.record piece.front.header piece.payload).consumed = s.consumed ∧
      (s.record piece.front.header piece.payload).cuesEnd = s.cuesEnd := by
    have counted := plain.counted
    have ending := plain.ending
    unfold Session.record Session.store
    repeat' split
    all_goals first
      | exact ⟨rfl, rfl⟩
      | exact absurd (by assumption) counted
      | exact absurd (by assumption) ending
  rw [Piece.visit, Session.visit, piece.taken]
  exact ⟨congrArg (· + _) record.1, record.2⟩

end Piece

lemma visitAll_plain (s : Session) {pieces : List Piece}
    (plain : ∀ piece ∈ pieces, piece.Plain) :
    (visitAll s pieces).consumed = s.consumed + (encodePieces pieces).length ∧
      (visitAll s pieces).cuesEnd = s.cuesEnd := by
  induction pieces generalizing s with
  | nil => exact ⟨rfl, rfl⟩
  | cons piece pieces ih =>
      obtain ⟨consumed, cuesEnd⟩ := (plain piece (by simp)).visit s
      obtain ⟨consumed', cuesEnd'⟩ := ih (piece.visit s) fun p member => plain p (by simp [member])
      rw [visitAll, List.foldl_cons, ← visitAll, consumed', cuesEnd', consumed, cuesEnd,
        encodePieces_cons, List.length_append, Nat.add_assoc]
      exact ⟨rfl, rfl⟩

namespace Document

/-! ## One part -/

lemma written_opened {kind : Kind} {entered : kind.isEntered = true} (size : SizeField) :
    encodePieces [opened kind entered size] = (opening kind size).bytes := by
  rw [encodePieces, List.flatMap_singleton, Piece.bytes, opened, List.append_nil]

lemma ready_opened {kind : Kind} {entered : kind.isEntered = true} (isOpen : kind.isOpen = true)
    (size : SizeField) : Ready [opened kind entered size] [] := by
  refine ⟨(required_opening isOpen size).le.trans ?_, trivial⟩
  rw [Piece.bytes, List.length_append, List.length_append]
  exact (Nat.le_add_right _ _).trans (Nat.le_add_right _ _)

namespace Part

lemma written (part : Part) : encodePieces part.pieces = part.encode := by
  cases part with
  | segment size => exact written_opened size
  | item item => exact item.spells.written
  | cues size => exact written_opened size
  | child child => exact child.spells.written

lemma ready (part : Part) : Ready part.pieces [] := by
  cases part with
  | segment size => exact ready_opened rfl size
  | item item => exact item.spells.ready
  | cues size => exact ready_opened rfl size
  | child child => exact child.spells.ready

/-- A part is one piece that says where the cues end, or plain pieces. -/
lemma plain_or (part : Part) :
    (∀ piece ∈ part.pieces, piece.Plain) ∨ ∃ piece, part.pieces = [piece] := by
  cases part with
  | segment size => exact .inr ⟨_, rfl⟩
  | item item => exact .inl item.spells.plain
  | cues size => exact .inr ⟨_, rfl⟩
  | child child => exact .inl child.spells.plain

/-- What has to be there before anything of a part is taken in is all of it. -/
lemma undivided (part : Part) : Undivided part.encode := by
  cases part with
  | segment size => exact undivided_opening rfl size
  | cues size => exact undivided_opening rfl size
  | item item =>
      cases item with
      | seekHead payload frame => exact frame.undivided _ (closed_ofKind rfl)
      | info group => exact group.frame.undivided _ (closed_ofKind rfl)
      | skipped element => exact element.frame.undivided _ (closed_of_passed element.passed)
  | child child =>
      cases child with
      | point point => exact point.frame.undivided _ (closed_ofKind rfl)
      | skipped element => exact element.frame.undivided _ (closed_of_passed element.passed)

end Part

/-- If the end of the cues is not reached behind a part, then it is not reached inside of it. -/
lemma ongoing_part (s : Session) (part : Part)
    (ongoing : (visitAll s part.pieces).cuesReached? = none) {start : List Piece}
    (inside : start <+: part.pieces) (nonempty : start ≠ []) :
    (visitAll s start).cuesReached? = none := by
  rcases part.plain_or with plain | ⟨piece, single⟩
  · obtain ⟨rest, split⟩ := inside
    rw [← split] at plain ongoing
    obtain ⟨consumed, cuesEnd⟩ := visitAll_plain s fun p member =>
      plain p (List.mem_append_left rest member)
    obtain ⟨consumed', cuesEnd'⟩ := visitAll_plain s plain
    rw [Session.cuesReached?_eq_none_iff, consumed', cuesEnd', encodePieces_append,
      List.length_append] at ongoing
    rw [Session.cuesReached?_eq_none_iff, consumed, cuesEnd]
    intro cuesEnd known
    have := ongoing cuesEnd known
    omega
  · rw [single] at inside ongoing
    rw [eq_of_prefix_singleton inside nonempty]
    exact ongoing

/-! ## Lists of parts -/

/-- **Parts that are there are met one after the other**, as long as the end of the cues is not
reached. -/
theorem path_of_parts (s : Session) {parts : List Part}
    (ongoing : ∀ start, start <+: parts → start ≠ [] → (after s start).cuesReached? = none)
    (rest : Bytes) :
    ∃ events, s.Path (encodeParts parts ++ rest) events (after s parts) rest := by
  induction parts generalizing s with
  | nil => exact ⟨[], .here s rest⟩
  | cons part parts ih =>
      have first := ongoing [part] (by simp) (by simp)
      rw [after, List.flatMap_singleton] at first
      have ready := part.ready.behind (encodeParts parts ++ rest)
      obtain ⟨events, path⟩ := path_of_pieces s ready fun start => ongoing_part s part first
      obtain ⟨further, onward⟩ := ih (visitAll s part.pieces) (by
        intro start inside nonempty
        have := ongoing (part :: start) (by simpa using inside) (by simp)
        rwa [after, List.flatMap_cons, visitAll_append] at this)
      rw [part.written] at path
      rw [encodeParts_cons, List.append_assoc, after, List.flatMap_cons, visitAll_append]
      exact ⟨_, path.trans onward⟩

/-- **A reading that ends with the part that reaches the end of the cues.** -/
theorem read_of_last_part (s : Session) (part : Part) {cuesEnd : ℕ}
    (known : (visitAll s part.pieces).cuesEnd = some cuesEnd)
    (ends : (visitAll s part.pieces).consumed = cuesEnd) (rest : Bytes) :
    (s.read (part.encode ++ rest)).session = visitAll s part.pieces ∧
      (s.read (part.encode ++ rest)).outcome = .complete := by
  have reached := Session.cuesReached?_eq_some known ends.ge
  rcases List.eq_nil_or_concat part.pieces with none | ⟨pieces, last, split⟩
  · have := part.undivided.length_pos
    rw [← part.written, none] at this
    cases this
  · rw [List.concat_eq_append] at split
    have ready := part.ready.behind rest
    rw [List.nil_append, split] at ready
    rw [← part.written, split]
    rw [split] at known ends reached
    refine read_of_pieces s ready ?_ reached
    intro start inside nonempty
    rcases part.plain_or with plain | ⟨piece, single⟩
    · rw [split] at plain
      obtain ⟨more, whole⟩ := inside
      obtain ⟨consumed, cuesEnd⟩ := visitAll_plain s fun p member =>
        plain p (List.mem_append_left _ (whole ▸ List.mem_append_left more member))
      obtain ⟨consumed', cuesEnd'⟩ := visitAll_plain s plain
      rw [Session.cuesReached?_eq_none_iff, consumed, cuesEnd]
      rw [cuesEnd'] at known
      rw [consumed', ← whole, encodePieces_append, encodePieces_append, List.length_append,
        List.length_append, encodePieces_cons, List.length_append] at ends
      have := last.length_pos
      intro other same
      rw [known] at same
      cases same
      omega
    · rw [split] at single
      obtain ⟨rfl, -⟩ := List.append_eq_singleton_iff.1 single |>.resolve_right (by simp)
      exact absurd (List.prefix_nil.1 inside) nonempty

/-- Bytes that end inside the parts end in front of one that is not all there. -/
lemma exists_split {parts : List Part} {k : ℕ} (short : k < (encodeParts parts).length) :
    ∃ done next later, parts = done ++ next :: later ∧ (encodeParts done).length ≤ k ∧
      k < (encodeParts done).length + next.encode.length := by
  induction parts generalizing k with
  | nil => cases short
  | cons part parts ih =>
      by_cases first : k < part.encode.length
      · exact ⟨[], part, parts, rfl, Nat.zero_le k, by simpa [encodeParts] using first⟩
      · rw [encodeParts_cons, List.length_append] at short
        obtain ⟨done, next, later, rfl, fits, beyond⟩ :=
          ih (show k - part.encode.length < (encodeParts parts).length by omega)
        refine ⟨part :: done, next, later, rfl, ?_, ?_⟩
        all_goals
          rw [encodeParts_cons, List.length_append]
          omega

/-- **A reading of bytes that end inside a part stops in front of it.** -/
theorem read_of_cut (s : Session) {done : List Part} {next : Part} {k : ℕ}
    (ongoing : ∀ start, start <+: done → start ≠ [] → (after s start).cuesReached? = none)
    (fits : (encodeParts done).length ≤ k)
    (beyond : k < (encodeParts done).length + next.encode.length) (rest : Bytes) :
    (s.read ((encodeParts done ++ (next.encode ++ rest)).take k)).session = after s done ∧
      (s.read ((encodeParts done ++ (next.encode ++ rest)).take k)).outcome = .suspended := by
  obtain ⟨gap, wait⟩ := next.undivided.wait
    (show k - (encodeParts done).length < next.encode.length by omega) rest
  obtain ⟨events, path⟩ := path_of_parts s ongoing
    ((next.encode ++ rest).take (k - (encodeParts done).length))
  obtain ⟨later, stops⟩ := (after s done).read_of_wait wait
  rw [List.take_append, List.take_of_length_le fits, Session.read_of_path path, stops]
  exact ⟨rfl, rfl⟩

/-! ## What lies inside -/

lemma placed_append (start : ℕ) (one two : List Part) :
    placed start (one ++ two)
      = placed start one ++ placed (start + (encodeParts one).length) two := by
  induction one generalizing start with
  | nil => rfl
  | cons part one ih =>
      rw [List.cons_append, placed, placed, ih, encodeParts_cons, List.length_append,
        Nat.add_assoc, List.cons_append]

lemma map_placed (start : ℕ) (parts : List Part) : (placed start parts).map Prod.snd = parts := by
  induction parts generalizing start with
  | nil => rfl
  | cons part parts ih => rw [placed, List.map_cons, ih]

lemma bounds_of_mem_placed {start : ℕ} {parts : List Part} {place : ℕ × Part}
    (member : place ∈ placed start parts) :
    start ≤ place.1 ∧
      place.1 + place.2.encode.length ≤ start + (encodeParts parts).length := by
  induction parts generalizing start with
  | nil => cases member
  | cons part parts ih =>
      rw [encodeParts_cons, List.length_append]
      rcases List.mem_cons.1 member with rfl | member
      · exact ⟨le_rfl, by dsimp only; omega⟩
      · obtain ⟨behind, inside⟩ := ih member
        exact ⟨by omega, by omega⟩

/-- **The parts in front of the one that is not all there are those that lie wholly inside.** -/
theorem within_of_split {start k : ℕ} {done rest : List Part}
    (fits : start + (encodeParts done).length ≤ k)
    (beyond : ∀ next ∈ rest.head?, k < start + (encodeParts done).length + next.encode.length) :
    ((placed start (done ++ rest)).filter
      fun place => place.1 + place.2.encode.length ≤ k).map Prod.snd = done := by
  have inside : (placed start done).filter (fun place => place.1 + place.2.encode.length ≤ k)
      = placed start done := by
    refine List.filter_eq_self.2 ?_
    intro place member
    have := (bounds_of_mem_placed member).2
    exact decide_eq_true (by omega)
  have outside : (placed (start + (encodeParts done).length) rest).filter
      (fun place => place.1 + place.2.encode.length ≤ k) = [] := by
    refine List.filter_eq_nil_iff.2 ?_
    intro place member
    cases rest with
    | nil => cases member
    | cons next later =>
        have far := beyond next rfl
        rcases List.mem_cons.1 member with rfl | member
        · simpa using far
        · have := (bounds_of_mem_placed member).1
          simp only [decide_eq_true_eq, not_le]
          omega
  rw [placed_append, List.filter_append, inside, outside, List.append_nil, map_placed]

end Document

end CueIndex
