import Mathlib
import CueIndex.Proofs.Document.Grammar
import CueIndex.Proofs.Session.Path

/-!
# Reading documents piece by piece

A reading knows no trees.  It takes in one `Piece` after the other: an element with its payload, or
only the two fields of an element whose children come next.  Documents are flattened here into the
pieces that are taken in.

**What has to be there.**  Most elements with children have to be there whole before their fields
are taken in, so a list of pieces can be read only together with the bytes behind it (`Ready`).

* `path_of_pieces` — pieces that are there are met one after the other.
* `read_of_pieces` — a reading of them that ends with the piece that reaches the end of the cues.
* `Undivided.wait` — the beginning of what has to be there whole leads nowhere.
* `Part.pieces` — the pieces of a document's parts.
-/

namespace CueIndex

/-! ## Pieces -/

/-- What is taken in at once: the two fields of an element, and its payload unless its children are
met one by one. -/
structure Piece where
  front : Front
  payload : Bytes
  taken : front.header.advance = (front.bytes ++ payload).length
  onward : front.header.kind? ≠ some .cluster

namespace Piece

def bytes (piece : Piece) : Bytes := piece.front.bytes ++ piece.payload

/-- A piece that neither starts the count of bytes anew nor says where the cues end. -/
structure Plain (piece : Piece) : Prop where
  counted : piece.front.header.kind? ≠ some .signature
  ending : piece.front.header.kind? ≠ some .cues

/-- The session past a piece. -/
def visit (s : Session) (piece : Piece) : Session := s.visit piece.front.header piece.payload

end Piece

def encodePieces (pieces : List Piece) : Bytes := pieces.flatMap Piece.bytes

/-- The session past a list of pieces. -/
def visitAll (s : Session) (pieces : List Piece) : Session := pieces.foldl Piece.visit s

lemma eq_of_prefix_singleton {α : Type} {start : List α} {x : α} (inside : start <+: [x])
    (nonempty : start ≠ []) : start = [x] := by
  rcases List.prefix_cons_iff.1 inside with none | ⟨rest, rfl, nothing⟩
  · exact absurd none nonempty
  · rw [List.prefix_nil.1 nothing]

/-- As much of every element is there as has to be, when `rest` is behind the pieces. -/
def Ready : List Piece → Bytes → Prop
  | [], _ => True
  | piece :: later, rest =>
      piece.front.header.required ≤ (piece.bytes ++ (encodePieces later ++ rest)).length ∧
        Ready later rest

lemma encodePieces_cons (piece : Piece) (pieces : List Piece) :
    encodePieces (piece :: pieces) = piece.bytes ++ encodePieces pieces := rfl

lemma encodePieces_append (one two : List Piece) :
    encodePieces (one ++ two) = encodePieces one ++ encodePieces two := List.flatMap_append ..

lemma visitAll_append (s : Session) (one two : List Piece) :
    visitAll s (one ++ two) = visitAll (visitAll s one) two := List.foldl_append ..

lemma ready_append {one two : List Piece} {rest : Bytes} :
    Ready (one ++ two) rest ↔ Ready one (encodePieces two ++ rest) ∧ Ready two rest := by
  induction one with
  | nil => simp [Ready]
  | cons piece one ih =>
      rw [List.cons_append, Ready, Ready, ih, encodePieces_append, List.append_assoc, and_assoc]

lemma Ready.behind {pieces : List Piece} {rest : Bytes} (ready : Ready pieces rest)
    (more : Bytes) : Ready pieces (rest ++ more) := by
  induction pieces with
  | nil => trivial
  | cons piece pieces ih =>
      obtain ⟨there, later⟩ := ready
      refine ⟨there.trans ?_, ih later⟩
      simp only [List.length_append]
      omega

/-! ## Reading pieces -/

lemma nextMove_piece (piece : Piece) {rest : Bytes}
    (there : piece.front.header.required ≤ (piece.bytes ++ rest).length) :
    nextMove (piece.bytes ++ rest) = .take piece.front.header := by
  have read : decodeHeader (piece.bytes ++ rest) = .ok piece.front.header := by
    rw [Piece.bytes, List.append_assoc]
    exact decodeHeader_written piece.front _
  rw [nextMove_of_decodeHeader read there, if_neg piece.onward]

/-- What is taken in decides what a piece leaves: either it is the whole payload, or the payload
does not matter. -/
lemma meet_piece (s : Session) (piece : Piece) (rest : Bytes) :
    s.meet piece.front.header (piece.bytes ++ rest) = piece.visit s := by
  rw [Session.meet, Piece.visit, Session.visit, Session.visit]
  by_cases entered : piece.front.header.kind?.any Kind.isEntered = true
  · rw [s.record_congr]
    intro kind known
    rw [known] at entered
    cases kind <;> first | rfl | cases entered
  · have taken := piece.taken
    rw [Header.advance, if_neg entered, Header.span, List.length_append] at taken
    have whole : piece.front.header.length = piece.front.bytes.length := rfl
    rw [Header.payload, Piece.bytes, List.append_assoc, whole, List.drop_left,
      List.take_left' (by omega)]

lemma drop_piece (piece : Piece) (rest : Bytes) :
    (piece.bytes ++ rest).drop piece.front.header.advance = rest := by
  rw [piece.taken]
  exact List.drop_left ..

/-- **Pieces that are there are met one after the other**, as long as the end of the cues is not
reached. -/
theorem path_of_pieces (s : Session) {pieces : List Piece} {rest : Bytes}
    (ready : Ready pieces rest)
    (ongoing : ∀ start, start <+: pieces → start ≠ [] →
      (visitAll s start).cuesReached? = none) :
    ∃ events, s.Path (encodePieces pieces ++ rest) events (visitAll s pieces) rest := by
  induction pieces generalizing s with
  | nil => exact ⟨[], .here s rest⟩
  | cons piece pieces ih =>
      obtain ⟨there, later⟩ := ready
      obtain ⟨events, path⟩ := ih (piece.visit s) later (by
        intro start inside nonempty
        exact ongoing (piece :: start) (by simpa using inside) (by simp))
      have meet := meet_piece s piece (encodePieces pieces ++ rest)
      rw [encodePieces_cons, List.append_assoc]
      have here : (s.meet piece.front.header
          (piece.bytes ++ (encodePieces pieces ++ rest))).cuesReached? = none := by
        rw [meet]
        exact ongoing [piece] (by simp) (by simp)
      have onward : (s.meet piece.front.header (piece.bytes ++ (encodePieces pieces ++ rest))).Path
          ((piece.bytes ++ (encodePieces pieces ++ rest)).drop piece.front.header.advance) events
          (visitAll s (piece :: pieces)) rest := by
        rw [meet, drop_piece]
        exact path
      exact ⟨_, .meet (nextMove_piece piece there) here onward⟩

/-- **A reading that ends with the piece that reaches the end of the cues.** -/
theorem read_of_pieces (s : Session) {pieces : List Piece} {last : Piece} {rest : Bytes}
    (ready : Ready (pieces ++ [last]) rest)
    (ongoing : ∀ start, start <+: pieces → start ≠ [] →
      (visitAll s start).cuesReached? = none)
    {cuesEnd : ℕ} (reached : (visitAll s (pieces ++ [last])).cuesReached? = some cuesEnd) :
    (s.read (encodePieces (pieces ++ [last]) ++ rest)).session = visitAll s (pieces ++ [last]) ∧
      (s.read (encodePieces (pieces ++ [last]) ++ rest)).outcome = .complete := by
  obtain ⟨before, there, -⟩ := ready_append.1 ready
  change last.front.header.required ≤ (last.bytes ++ rest).length at there
  obtain ⟨events, path⟩ := path_of_pieces s before ongoing
  have single : encodePieces [last] = last.bytes := List.append_nil _
  rw [visitAll_append] at reached ⊢
  have meet := meet_piece (visitAll s pieces) last rest
  rw [single] at path
  rw [encodePieces_append, List.append_assoc, single, Session.read_of_path path,
    Session.read_of_take_last _ (nextMove_piece last there) (by rw [meet]; exact reached), meet]
  exact ⟨rfl, rfl⟩

/-- Bytes that start with an element, or with the two fields of one, and have to be there whole
before anything of them is taken in. -/
def Undivided (bytes : Bytes) : Prop :=
  ∃ (front : Front) (body : Bytes), bytes = front.bytes ++ body ∧
    front.header.required = bytes.length

/-- **The beginning of what has to be there whole leads nowhere.** -/
theorem Undivided.wait {bytes : Bytes} (undivided : Undivided bytes) {k : ℕ}
    (short : k < bytes.length) (rest : Bytes) :
    ∃ gap, nextMove ((bytes ++ rest).take k) = .wait gap := by
  obtain ⟨front, body, rfl, whole⟩ := undivided
  rw [List.take_append_of_le_length (by omega)]
  exact nextMove_take (decodeHeader_written front body) (by omega) (by omega)

/-- Every header takes at least one byte. -/
lemma Front.length_pos (front : Front) : 0 < front.bytes.length := by
  have bounds := le_of_decodeHeader (decodeHeader_written front [])
  have : front.header.length = front.bytes.length := rfl
  omega

lemma Undivided.length_pos {bytes : Bytes} (undivided : Undivided bytes) :
    0 < bytes.length := by
  obtain ⟨front, body, rfl, -⟩ := undivided
  have := front.length_pos
  rw [List.length_append]
  omega

/-! ## The pieces of a document -/

namespace Document

lemma kind?_opening (kind : Kind) (size : SizeField) :
    (opening kind size).header.kind? = some kind := by
  rw [Header.kind?, Front.header, opening, IdField.id_ofKind, Kind.ofId?_id]

lemma Frame.span_header {payload : Bytes} (frame : Frame payload) (id : IdField) :
    (frame.front id).header.span = (frame.encode id).length := by
  rw [Frame.encode, List.length_append, ← frame.exact]
  rfl

/-- The two fields of an element whose children come next. -/
def opened (kind : Kind) (entered : kind.isEntered = true) (size : SizeField) : Piece where
  front := opening kind size
  payload := []
  taken := by
    rw [Header.advance, kind?_opening, Option.any_some, if_pos entered, List.append_nil]
    rfl
  onward := by
    rw [kind?_opening]
    rintro ⟨⟩
    cases entered

/-- An element that is taken in with its payload. -/
def Frame.whole {payload : Bytes} (frame : Frame payload) (id : IdField)
    (passed : ∀ kind : Kind, kind.id = id.id → kind.isEntered = false ∧ kind ≠ .cluster) :
    Piece where
  front := frame.front id
  payload := payload
  taken := by
    rw [Header.advance, if_neg, frame.span_header]
    · rfl
    · cases known : (frame.front id).header.kind? with
      | none => simp
      | some kind => simp [(passed kind (Kind.ofId?_eq_some_iff.1 known)).1]
  onward := by
    intro known
    exact (passed .cluster (Kind.ofId?_eq_some_iff.1 known)).2 rfl

lemma Frame.required_header {payload : Bytes} (frame : Frame payload) (id : IdField)
    (closed : ∀ kind : Kind, kind.id = id.id → kind.isOpen = false) :
    (frame.front id).header.required = (frame.encode id).length := by
  rw [Header.required, if_neg, frame.span_header]
  cases known : (frame.front id).header.kind? with
  | none => simp
  | some kind => simp [closed kind (Kind.ofId?_eq_some_iff.1 known)]

lemma required_opening {kind : Kind} (isOpen : kind.isOpen = true) (size : SizeField) :
    (opening kind size).header.required = (opening kind size).bytes.length := by
  rw [Header.required, kind?_opening, Option.any_some, if_pos isOpen]
  rfl

lemma Frame.undivided {payload : Bytes} (frame : Frame payload) (id : IdField)
    (closed : ∀ kind : Kind, kind.id = id.id → kind.isOpen = false) :
    Undivided (frame.encode id) :=
  ⟨frame.front id, payload, rfl, frame.required_header id closed⟩

lemma undivided_opening {kind : Kind} (isOpen : kind.isOpen = true) (size : SizeField) :
    Undivided (opening kind size).bytes :=
  ⟨opening kind size, [], (List.append_nil _).symm, required_opening isOpen size⟩

lemma passed_ofKind {kind : Kind} (entered : kind.isEntered = false)
    (onward : kind ≠ .cluster) :
    ∀ other : Kind, other.id = (IdField.ofKind kind).id →
      other.isEntered = false ∧ other ≠ .cluster := by
  intro other same
  rw [IdField.id_ofKind] at same
  rw [Kind.id_injective same]
  exact ⟨entered, onward⟩

lemma Skipped.passed (element : Skipped) (kind : Kind) (same : kind.id = element.id.id) :
    kind.isEntered = false ∧ kind ≠ .cluster := by
  have foreign : kind ∉ dispatched := fun member => element.foreign kind member same
  cases kind <;> first | exact ⟨rfl, by decide⟩ | exact absurd (by decide) foreign

lemma closed_ofKind {kind : Kind} (closed : kind.isOpen = false) :
    ∀ other : Kind, other.id = (IdField.ofKind kind).id → other.isOpen = false := by
  intro other same
  rw [IdField.id_ofKind] at same
  rw [Kind.id_injective same]
  exact closed

lemma closed_of_passed {id : IdField}
    (passed : ∀ kind : Kind, kind.id = id.id → kind.isEntered = false ∧ kind ≠ .cluster) :
    ∀ kind : Kind, kind.id = id.id → kind.isOpen = false := by
  intro kind same
  obtain ⟨entered, onward⟩ := passed kind same
  cases kind <;> first | rfl | exact absurd rfl onward | cases entered

def Skipped.piece (element : Skipped) : Piece := element.frame.whole element.id element.passed

/-- The kinds of which a group may hold integers. -/
abbrev Integers (kinds : List Kind) : Prop := ∀ kind ∈ kinds, kind.isInteger = true

def Leaf.pieces {kinds : List Kind} (integers : Integers kinds) : Leaf kinds → List Piece
  | number kind belongs _ frame => [frame.whole (.ofKind kind) (by
      have integer := integers kind belongs
      refine passed_ofKind ?_ ?_
      · cases kind <;> first | rfl | cases integer
      · rintro rfl
        cases integer)]
  | skipped element => [element.piece]

def Group.pieces {kinds : List Kind} (integers : Integers kinds) (group : Group kinds)
    (kind : Kind) (entered : kind.isEntered = true) : List Piece :=
  opened kind entered group.frame.field :: group.children.flatMap (Leaf.pieces integers)

lemma integers_info : Integers [.timeScale, .duration] := by decide

lemma integers_point : Integers [.cueTime] := by decide

lemma integers_positions : Integers [.cueTrack, .cueClusterPosition] := by decide

def PointChild.pieces : PointChild → List Piece
  | leaf child => child.pieces integers_point
  | positions group => group.pieces integers_positions .cueTrackPositions (by decide)

def Point.pieces (point : Point) : List Piece :=
  opened .cuePoint (by decide) point.frame.field :: point.children.flatMap PointChild.pieces

def Item.pieces : Item → List Piece
  | seekHead _ frame => [frame.whole (.ofKind .seekHead) (passed_ofKind (by decide) (by decide))]
  | info group => group.pieces integers_info .info (by decide)
  | skipped element => [element.piece]

def CuesChild.pieces : CuesChild → List Piece
  | point cuePoint => cuePoint.pieces
  | skipped element => [element.piece]

/-- **The pieces of a part**, in the order in which they are taken in. -/
def Part.pieces : Part → List Piece
  | segment size => [opened .segment (by decide) size]
  | item element => element.pieces
  | cues size => [opened .cues (by decide) size]
  | child element => element.pieces

/-! ## What the pieces of a part spell

The pieces of every part but the opening of the cues spell the part, need nothing behind them, and
do not change where the cues end. -/

structure Spells (pieces : List Piece) (bytes : Bytes) : Prop where
  written : encodePieces pieces = bytes
  ready : Ready pieces []
  plain : ∀ piece ∈ pieces, piece.Plain

namespace Spells

lemma flatMap {α : Type} {pieces : α → List Piece} {bytes : α → Bytes}
    (spells : ∀ x, Spells (pieces x) (bytes x)) (xs : List α) :
    Spells (xs.flatMap pieces) (xs.flatMap bytes) := by
  induction xs with
  | nil => exact ⟨rfl, trivial, by simp⟩
  | cons x xs ih =>
      refine ⟨?_, ?_, ?_⟩
      · rw [List.flatMap_cons, encodePieces_append, (spells x).written, ih.written,
          List.flatMap_cons]
      · exact ready_append.2 ⟨(spells x).ready.behind _, ih.ready⟩
      · intro piece member
        rw [List.flatMap_cons, List.mem_append] at member
        rcases member with member | member
        · exact (spells x).plain piece member
        · exact ih.plain piece member

lemma opened {kind : Kind} {entered : kind.isEntered = true} {payload : Bytes}
    {inner : List Piece} (spells : Spells inner payload) (frame : Frame payload)
    (closed : kind.isOpen = false) :
    Spells (opened kind entered frame.field :: inner) (frame.encode (.ofKind kind)) := by
  have written : encodePieces (Document.opened kind entered frame.field :: inner)
      = frame.encode (.ofKind kind) := by
    rw [encodePieces_cons, spells.written, Piece.bytes, Document.opened, List.append_nil]
    rfl
  refine ⟨written, ⟨?_, spells.ready⟩, ?_⟩
  · have required := frame.required_header (.ofKind kind) (closed_ofKind closed)
    rw [List.append_nil, ← encodePieces_cons, written, ← required]
    rfl
  · intro piece member
    rcases List.mem_cons.1 member with rfl | member
    · refine ⟨?_, ?_⟩ <;> rw [Document.opened, kind?_opening] <;> rintro ⟨⟩
      · cases entered
      · cases closed
    · exact spells.plain piece member

lemma whole {payload : Bytes} (frame : Frame payload) (id : IdField)
    {passed : ∀ kind : Kind, kind.id = id.id → kind.isEntered = false ∧ kind ≠ .cluster}
    (counted : Kind.signature.id ≠ id.id) :
    Spells [frame.whole id passed] (frame.encode id) := by
  refine ⟨List.append_nil _, ⟨?_, trivial⟩, ?_⟩
  · have required := frame.required_header id (closed_of_passed passed)
    rw [encodePieces, List.flatMap_nil, List.append_nil, List.append_nil]
    exact required.le
  · intro piece member
    rw [List.mem_singleton.1 member]
    refine ⟨fun known => counted (Kind.ofId?_eq_some_iff.1 known), fun known => ?_⟩
    cases (passed .cues (Kind.ofId?_eq_some_iff.1 known)).1

end Spells

lemma Skipped.spells (element : Skipped) : Spells [element.piece] element.encode :=
  .whole element.frame element.id (element.foreign .signature (by decide))

lemma Leaf.spells {kinds : List Kind} (integers : Integers kinds) (leaf : Leaf kinds) :
    Spells (leaf.pieces integers) leaf.encode := by
  cases leaf with
  | number kind belongs number frame =>
      refine .whole frame (.ofKind kind) ?_
      rw [IdField.id_ofKind]
      intro same
      have := integers kind belongs
      rw [← Kind.id_injective same] at this
      cases this
  | skipped element => exact element.spells

lemma Group.spells {kinds : List Kind} (integers : Integers kinds) (group : Group kinds)
    {kind : Kind} {entered : kind.isEntered = true} (closed : kind.isOpen = false) :
    Spells (group.pieces integers kind entered) (group.encode kind) :=
  (Spells.flatMap (Leaf.spells integers) group.children).opened group.frame closed

lemma PointChild.spells (child : PointChild) : Spells child.pieces child.encode := by
  cases child with
  | leaf child => exact child.spells integers_point
  | positions group => exact group.spells integers_positions rfl

lemma Point.spells (point : Point) : Spells point.pieces point.encode :=
  (Spells.flatMap PointChild.spells point.children).opened point.frame rfl

lemma Item.spells (item : Item) : Spells item.pieces item.encode := by
  cases item with
  | seekHead payload frame => exact .whole frame (.ofKind .seekHead) (by decide)
  | info group => exact group.spells integers_info rfl
  | skipped element => exact element.spells

lemma CuesChild.spells (child : CuesChild) : Spells child.pieces child.encode := by
  cases child with
  | point point => exact point.spells
  | skipped element => exact element.spells

end Document

end CueIndex
