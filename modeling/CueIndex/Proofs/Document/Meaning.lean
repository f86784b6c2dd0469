import Mathlib
import CueIndex.Proofs.Document.Pieces
import CueIndex.Bytes.Value

/-!
# What documents leave in a session

The pieces of a document are visited one by one, and a session has no memory of the element that a
piece belongs to.  What is left in the end is nevertheless what the tree says.

**Integers.**  Within a group an integer only ever replaces an earlier one of its kind, so a list of
them leaves the `latest` of each kind.  Which cue an integer goes to is settled by the last cue
point that was opened, and the integers of a cue point directly follow its opening.

* `Tells` — pieces that leave integers and nothing else.
* `visitAll_point`, `visitAll_info` — a cue point leaves its cue, and a segment's info its integers.
* `Part.leave`, **`visitAll_part`** — what the pieces of a part leave.
* `after` and its projections — what a list of parts leaves.
-/

namespace CueIndex

/-! ## Sessions and cues -/

namespace CueList

/-- One more cue. -/
def add (list : CueList) (cue : CuePoint) : CueList := ⟨list.cues.push cue⟩

@[simp] lemma toList_add (list : CueList) (cue : CuePoint) :
    (list.add cue).toList = list.toList ++ [cue] := by
  simp [add, toList]

lemma updateNewest_add (list : CueList) (cue : CuePoint) (change : CuePoint → CuePoint) :
    (list.add cue).updateNewest change = list.add (change cue) := by
  ext1
  rw [toList_updateNewest (toList_add list cue), toList_add]

end CueList

namespace Session

/-- Store integers one after the other. -/
def assign (s : Session) (numbers : List (Kind × UInt64)) : Session :=
  numbers.foldl (fun s number => s.store number.1 number.2) s

lemma assign_append (s : Session) (one two : List (Kind × UInt64)) :
    s.assign (one ++ two) = (s.assign one).assign two := List.foldl_append ..

lemma store_advance (s : Session) (kind : Kind) (value : UInt64) (n : ℕ) :
    (s.advance n).store kind value = (s.store kind value).advance n := by
  cases kind <;> rfl

lemma assign_advance (s : Session) (numbers : List (Kind × UInt64)) (n : ℕ) :
    (s.advance n).assign numbers = (s.assign numbers).advance n := by
  induction numbers generalizing s with
  | nil => rfl
  | cons number numbers ih =>
      rw [assign, List.foldl_cons, store_advance]
      exact ih (s.store number.1 number.2)

lemma advance_advance (s : Session) (m n : ℕ) : (s.advance m).advance n = s.advance (m + n) := by
  simp only [advance, Nat.add_assoc]

end Session

namespace Document

open Session

/-! ## Integers -/

lemma latest_cons (kind : Kind) (number : Kind × UInt64) (numbers : List (Kind × UInt64))
    (before : UInt64) :
    latest kind (number :: numbers) before
      = latest kind numbers (if number.1 = kind then number.2 else before) := by
  unfold latest
  rw [List.filter_cons]
  by_cases same : number.1 = kind
  · rw [if_pos (by simpa using same), if_pos same, List.getLast?_cons]
    cases (numbers.filter (·.1 = kind)).getLast? <;> rfl
  · rw [if_neg (by simpa using same), if_neg same]

lemma latest_append (kind : Kind) (one two : List (Kind × UInt64)) (before : UInt64) :
    latest kind (one ++ two) before = latest kind two (latest kind one before) := by
  induction one generalizing before with
  | nil => rfl
  | cons number one ih => rw [List.cons_append, latest_cons, ih, latest_cons]

/-- An integer that is written is read back, and a payload that spells none is not read as one. -/
lemma Number.uint?_payload (number : Number) : Bytes.uint? number.payload = number.value? := by
  cases number with
  | spelled value width valid fits =>
      have length := Bytes.length_lowBytes width value
      rw [Number.payload, Bytes.uint?, length, if_pos valid, Number.value?, Option.some.injEq,
        ← UInt64.toNat_inj, Bytes.toNat_shiftInAll_zero (length.trans_le valid.2),
        Bytes.value_lowBytes, Nat.mod_eq_of_lt fits]
  | unspelled payload odd =>
      rw [Number.payload, Bytes.uint?, if_neg (by omega), Number.value?]

/-- The integers that a segment's info says replace those of the stream. -/
lemma assign_info (s : Session) {numbers : List (Kind × UInt64)}
    (kinds : ∀ number ∈ numbers, number.1 ∈ [Kind.timeScale, Kind.duration]) :
    s.assign numbers =
      { s with
        info.timeScale := latest .timeScale numbers s.info.timeScale
        info.duration := latest .duration numbers s.info.duration } := by
  induction numbers generalizing s with
  | nil => rfl
  | cons number numbers ih =>
      obtain ⟨kind, value⟩ := number
      have kind_eq := kinds (kind, value) (by simp)
      rw [assign, List.foldl_cons]
      rw [← assign, ih _ fun n member => kinds n (by simp [member]), latest_cons, latest_cons]
      simp only [List.mem_cons, List.not_mem_nil, or_false] at kind_eq
      rcases kind_eq with rfl | rfl <;> rfl

/-- A cue with integers filled in. -/
def fill (numbers : List (Kind × UInt64)) (cue : CuePoint) : CuePoint where
  time := latest .cueTime numbers cue.time
  track := latest .cueTrack numbers cue.track
  clusterPosition := latest .cueClusterPosition numbers cue.clusterPosition

/-- The integers that a cue point says replace those of the newest cue. -/
lemma assign_cue (s : Session) {older : CueList} {cue : CuePoint}
    (newest : s.cues = older.add cue) {numbers : List (Kind × UInt64)}
    (kinds : ∀ number ∈ numbers,
      number.1 ∈ [Kind.cueTime, Kind.cueTrack, Kind.cueClusterPosition]) :
    s.assign numbers = { s with cues := older.add (fill numbers cue) } := by
  induction numbers generalizing s cue with
  | nil =>
      obtain ⟨status, consumed, resume, info, cuesEnd, cues, stalled⟩ := s
      subst newest
      rfl
  | cons number numbers ih =>
      obtain ⟨kind, value⟩ := number
      have kind_eq := kinds (kind, value) (by simp)
      have later : ∀ n ∈ numbers,
          n.1 ∈ [Kind.cueTime, Kind.cueTrack, Kind.cueClusterPosition] :=
        fun n member => kinds n (by simp [member])
      rw [assign, List.foldl_cons, ← assign]
      simp only [List.mem_cons, List.not_mem_nil, or_false] at kind_eq
      rcases kind_eq with rfl | rfl | rfl
      all_goals
        rw [ih _ (by rw [store, newest, CueList.updateNewest_add]) later]
        simp only [store, fill, latest_cons]
        rfl

/-! ## Pieces -/

lemma visit_opened (s : Session) {kind : Kind} {entered : kind.isEntered = true}
    (size : SizeField) :
    (opened kind entered size).visit s
      = (s.record (opening kind size).header []).advance
          (opened kind entered size).bytes.length := by
  rw [Piece.visit, Session.visit, (opened kind entered size).taken]
  rfl

lemma visit_whole (s : Session) {payload : Bytes} (frame : Frame payload) (id : IdField)
    {passed : ∀ kind : Kind, kind.id = id.id → kind.isEntered = false ∧ kind ≠ .cluster} :
    (frame.whole id passed).visit s
      = (s.record (frame.front id).header payload).advance (frame.encode id).length := by
  rw [Piece.visit, Session.visit, (frame.whole id passed).taken]
  rfl

/-- An element that is passed over leaves nothing. -/
lemma record_skipped (s : Session) (element : Skipped) :
    s.record (element.frame.front element.id).header element.payload = s := by
  unfold record
  cases known : (element.frame.front element.id).header.kind? with
  | none => rfl
  | some kind =>
      have foreign : kind ∉ dispatched :=
        fun member => element.foreign kind member (Kind.ofId?_eq_some_iff.1 known)
      cases kind <;> first
        | exact absurd (by decide) foreign
        | (dsimp only; split <;> rfl)

/-- An element with an integer leaves it. -/
lemma record_number (s : Session) {kind : Kind} (integer : kind.isInteger = true)
    (number : Number) (frame : Frame number.payload) :
    s.record (frame.front (.ofKind kind)).header number.payload
      = s.assign (number.value?.toList.map (kind, ·)) := by
  have known : (frame.front (.ofKind kind)).header.kind? = some kind :=
    kind?_opening kind frame.field
  unfold record
  rw [known, number.uint?_payload]
  cases number.value? <;> cases kind <;> first | rfl | cases integer

/-- Pieces that leave integers and nothing else. -/
def Tells (pieces : List Piece) (numbers : List (Kind × UInt64)) : Prop :=
  ∀ s, visitAll s pieces = (s.assign numbers).advance (encodePieces pieces).length

namespace Tells

lemma append {one two : List Piece} {numbers further : List (Kind × UInt64)}
    (first : Tells one numbers) (second : Tells two further) :
    Tells (one ++ two) (numbers ++ further) := by
  intro s
  rw [visitAll_append, first, second, assign_advance, advance_advance, assign_append,
    encodePieces_append, List.length_append]

lemma flatMap {α : Type} {pieces : α → List Piece} {numbers : α → List (Kind × UInt64)}
    (tells : ∀ x, Tells (pieces x) (numbers x)) (xs : List α) :
    Tells (xs.flatMap pieces) (xs.flatMap numbers) := by
  induction xs with
  | nil => exact fun s => rfl
  | cons x xs ih => exact (tells x).append ih

/-- The opening of an element that leaves nothing itself. -/
lemma opened {kind : Kind} {entered : kind.isEntered = true} {inner : List Piece}
    {numbers : List (Kind × UInt64)} (tells : Tells inner numbers) (size : SizeField)
    (silent : ∀ s : Session, s.record (opening kind size).header [] = s) :
    Tells (opened kind entered size :: inner) numbers := by
  have front : Tells [Document.opened kind entered size] [] := by
    intro s
    rw [visitAll, List.foldl_cons, List.foldl_nil, visit_opened, silent, encodePieces,
      List.flatMap_cons, List.flatMap_nil, List.append_nil]
    rfl
  exact front.append tells

end Tells

lemma Skipped.tells (element : Skipped) : Tells [element.piece] [] := by
  intro s
  rw [element.spells.written]
  exact (visit_whole s element.frame element.id).trans (by rw [record_skipped]; rfl)

lemma Leaf.tells {kinds : List Kind} (integers : Integers kinds) (leaf : Leaf kinds) :
    Tells (leaf.pieces integers) leaf.numbers := by
  cases leaf with
  | number kind belongs number frame =>
      intro s
      rw [(Leaf.spells integers (.number kind belongs number frame)).written]
      refine (visit_whole s frame (.ofKind kind)).trans ?_
      rw [record_number s (integers kind belongs) number frame]
      rfl
  | skipped element => exact element.tells

lemma record_silent {kind : Kind} (silent : kind = .info ∨ kind = .cueTrackPositions)
    (size : SizeField) (s : Session) : s.record (opening kind size).header [] = s := by
  unfold record
  rw [kind?_opening]
  rcases silent with rfl | rfl <;> rfl

lemma Group.tells {kinds : List Kind} (integers : Integers kinds) (group : Group kinds)
    {kind : Kind} {entered : kind.isEntered = true}
    (silent : kind = .info ∨ kind = .cueTrackPositions) :
    Tells (group.pieces integers kind entered) group.numbers :=
  (Tells.flatMap (Leaf.tells integers) group.children).opened group.frame.field
    (record_silent silent group.frame.field)

lemma PointChild.tells (child : PointChild) : Tells child.pieces child.numbers := by
  cases child with
  | leaf child => exact child.tells integers_point
  | positions group => exact group.tells integers_positions (.inr rfl)

lemma Leaf.kind_mem {kinds : List Kind} (leaf : Leaf kinds) :
    ∀ number ∈ leaf.numbers, number.1 ∈ kinds := by
  intro number member
  cases leaf with
  | number kind belongs payload frame =>
      obtain ⟨value, -, rfl⟩ := List.mem_map.1 member
      exact belongs
  | skipped element => cases member

lemma Group.kind_mem {kinds : List Kind} (group : Group kinds) :
    ∀ number ∈ group.numbers, number.1 ∈ kinds := by
  intro number member
  obtain ⟨leaf, -, inside⟩ := List.mem_flatMap.1 member
  exact leaf.kind_mem number inside

lemma Point.kind_mem (point : Point) :
    ∀ number ∈ point.numbers,
      number.1 ∈ [Kind.cueTime, Kind.cueTrack, Kind.cueClusterPosition] := by
  intro number member
  obtain ⟨child, -, inside⟩ := List.mem_flatMap.1 member
  cases child with
  | leaf leaf => exact List.mem_append_left _ (leaf.kind_mem number inside)
  | positions group => exact List.mem_cons_of_mem _ (group.kind_mem number inside)

/-- **A cue point leaves the cue that it says**, behind those that were there. -/
theorem visitAll_point (s : Session) (point : Point) :
    visitAll s point.pieces
      = { s with cues := s.cues.add point.cue }.advance point.encode.length := by
  have inner : Tells (point.children.flatMap PointChild.pieces) point.numbers :=
    Tells.flatMap PointChild.tells point.children
  have outer : (opened .cuePoint (by decide) point.frame.field).visit s
      = { s with cues := s.cues.add .blank }.advance
        (opened .cuePoint (by decide) point.frame.field).bytes.length := by
    rw [visit_opened, record, kind?_opening]
    rfl
  rw [Point.pieces, visitAll, List.foldl_cons, ← visitAll, inner, outer, assign_advance,
    advance_advance, assign_cue _ rfl point.kind_mem, ← point.spells.written, Point.pieces,
    encodePieces_cons, List.length_append]
  rfl

/-- **A segment's info leaves the integers that it says.** -/
theorem visitAll_info (s : Session) (group : Group [.timeScale, .duration]) :
    visitAll s (group.pieces integers_info .info (by decide)) =
      { s with
        info.timeScale := latest .timeScale group.numbers s.info.timeScale
        info.duration := latest .duration group.numbers s.info.duration }.advance
          (group.encode .info).length := by
  rw [group.tells integers_info (.inl rfl), (group.spells integers_info rfl).written,
    assign_info s group.kind_mem]

/-! ## Parts -/

/-- What a part leaves, apart from the step past it. -/
def Part.leave (s : Session) : Part → Session
  | segment size =>
      { s with
        info.segmentOffset := s.consumed
        info.segmentDataOffset := s.consumed + (opening .segment size).bytes.length }
  | item (.seekHead ..) => { s with info.seekHeadOffset := s.consumed }
  | item (.info group) =>
      { s with
        info.timeScale := latest .timeScale group.numbers s.info.timeScale
        info.duration := latest .duration group.numbers s.info.duration }
  | cues size =>
      { s with cuesEnd := some (saturate (s.consumed + (opening .cues size).header.span)) }
  | child (.point cuePoint) => { s with cues := s.cues.add cuePoint.cue }
  | item (.skipped _) | child (.skipped _) => s

lemma visitAll_skipped (s : Session) (element : Skipped) :
    visitAll s [element.piece] = s.advance element.encode.length := by
  rw [element.tells, element.spells.written]
  rfl

/-- **The pieces of a part leave what the part leaves.** -/
theorem visitAll_part (s : Session) (part : Part) :
    visitAll s part.pieces = (part.leave s).advance part.encode.length := by
  cases part with
  | segment size =>
      refine (visit_opened s size).trans ?_
      rw [record, kind?_opening, Piece.bytes, opened, List.append_nil]
      rfl
  | cues size =>
      refine (visit_opened s size).trans ?_
      rw [record, kind?_opening, Piece.bytes, opened, List.append_nil]
      rfl
  | item item =>
      cases item with
      | seekHead payload frame =>
          refine (visit_whole s frame (.ofKind .seekHead)).trans ?_
          rw [record, show (frame.front (.ofKind .seekHead)).header.kind? = some .seekHead from
            kind?_opening .seekHead frame.field]
          rfl
      | info group => exact visitAll_info s group
      | skipped element => exact visitAll_skipped s element
  | child child =>
      cases child with
      | point point => exact visitAll_point s point
      | skipped element => exact visitAll_skipped s element

/-- The session past a list of parts. -/
def after (s : Session) (parts : List Part) : Session := visitAll s (parts.flatMap Part.pieces)

lemma after_cons (s : Session) (part : Part) (parts : List Part) :
    after s (part :: parts) = after ((part.leave s).advance part.encode.length) parts := by
  rw [after, List.flatMap_cons, visitAll_append, visitAll_part]
  rfl

lemma after_append (s : Session) (one two : List Part) :
    after s (one ++ two) = after (after s one) two := by
  rw [after, List.flatMap_append, visitAll_append]
  rfl

/-! ### What one part leaves, field by field -/

section Leave

variable (s : Session) (part : Part)

lemma leave_frame :
    (part.leave s).consumed = s.consumed ∧ (part.leave s).resume = s.resume ∧
      (part.leave s).status = s.status ∧ (part.leave s).stalled = s.stalled := by
  fun_cases Part.leave s part <;> exact ⟨rfl, rfl, rfl, rfl⟩

lemma leave_cues : (part.leave s).cues.toList = s.cues.toList ++ part.cue?.toList := by
  fun_cases Part.leave s part <;> simp [Part.cue?]

lemma leave_info :
    (part.leave s).info.timeScale = latest .timeScale part.infoNumbers s.info.timeScale ∧
      (part.leave s).info.duration = latest .duration part.infoNumbers s.info.duration := by
  fun_cases Part.leave s part <;> exact ⟨rfl, rfl⟩

lemma leave_seekHeadOffset :
    (part.leave s).info.seekHeadOffset
      = if part.isSeekHead then s.consumed else s.info.seekHeadOffset := by
  fun_cases Part.leave s part <;> rfl

lemma leave_segment (other : ∀ size, part ≠ .segment size) :
    (part.leave s).info.segmentOffset = s.info.segmentOffset ∧
      (part.leave s).info.segmentDataOffset = s.info.segmentDataOffset := by
  revert other
  fun_cases Part.leave s part <;> intro other <;>
    first | exact ⟨rfl, rfl⟩ | exact absurd rfl (other _)

lemma leave_cuesEnd (other : ∀ size, part ≠ .cues size) :
    (part.leave s).cuesEnd = s.cuesEnd := by
  revert other
  fun_cases Part.leave s part <;> intro other <;> first | rfl | exact absurd rfl (other _)

end Leave

/-! ### What a list of parts leaves -/

section After

variable (s : Session) (parts : List Part)

/-- **Parts move the two positions on by what they are written as**, and leave the phase alone. -/
theorem after_frame :
    (after s parts).consumed = s.consumed + (encodeParts parts).length ∧
      (after s parts).resume = s.resume + (encodeParts parts).length ∧
      (after s parts).status = s.status ∧ (after s parts).stalled = s.stalled := by
  induction parts generalizing s with
  | nil => exact ⟨rfl, rfl, rfl, rfl⟩
  | cons part parts ih =>
      obtain ⟨consumed, resume, status, stalled⟩ := leave_frame s part
      obtain ⟨consumed', resume', status', stalled'⟩ :=
        ih ((part.leave s).advance part.encode.length)
      rw [after_cons, encodeParts_cons, List.length_append, ← Nat.add_assoc, ← Nat.add_assoc,
        ← consumed, ← resume]
      exact ⟨consumed', resume', status'.trans status, stalled'.trans stalled⟩

/-- **The cues are those that the parts say.** -/
theorem cues_after : (after s parts).cues.toList = s.cues.toList ++ cuesOf parts := by
  induction parts generalizing s with
  | nil => exact (List.append_nil _).symm
  | cons part parts ih =>
      rw [after_cons, ih]
      show (part.leave s).cues.toList ++ _ = _
      rw [leave_cues, List.append_assoc, cuesOf, cuesOf, List.filterMap_cons]
      cases part.cue? <;> rfl

/-- **The integers about the stream are the last ones that the parts say.** -/
theorem info_after :
    (after s parts).info.timeScale
        = latest .timeScale (infoNumbersOf parts) s.info.timeScale ∧
      (after s parts).info.duration
        = latest .duration (infoNumbersOf parts) s.info.duration := by
  induction parts generalizing s with
  | nil => exact ⟨rfl, rfl⟩
  | cons part parts ih =>
      obtain ⟨timeScale, duration⟩ := leave_info s part
      obtain ⟨timeScale', duration'⟩ := ih ((part.leave s).advance part.encode.length)
      rw [after_cons, timeScale', duration']
      show latest _ _ (part.leave s).info.timeScale = _ ∧
        latest _ _ (part.leave s).info.duration = _
      rw [timeScale, duration, ← latest_append, ← latest_append]
      exact ⟨rfl, rfl⟩

/-- **The seek head is the last one**, and the position that is left is the one where it starts. -/
theorem seekHeadOffset_after :
    (after s parts).info.seekHeadOffset
      = (((placed s.consumed parts).filter (·.2.isSeekHead)).getLast?.map Prod.fst).getD
          s.info.seekHeadOffset := by
  induction parts generalizing s with
  | nil => rfl
  | cons part parts ih =>
      have kept : ((part.leave s).advance part.encode.length).consumed
          = s.consumed + part.encode.length := congrArg (· + _) (leave_frame s part).1
      rw [after_cons, ih, kept, placed, List.filter_cons]
      show Option.getD _ (part.leave s).info.seekHeadOffset = _
      rw [leave_seekHeadOffset]
      cases part.isSeekHead with
      | false => rfl
      | true =>
          rw [if_pos rfl, if_pos rfl, List.getLast?_cons]
          cases List.getLast? _ <;> rfl

/-- Where the segment starts is left by its opening alone. -/
theorem segment_after (none : ∀ size, Part.segment size ∉ parts) :
    (after s parts).info.segmentOffset = s.info.segmentOffset ∧
      (after s parts).info.segmentDataOffset = s.info.segmentDataOffset := by
  induction parts generalizing s with
  | nil => exact ⟨rfl, rfl⟩
  | cons part parts ih =>
      obtain ⟨start, data⟩ := leave_segment s part fun size same => none size (by simp [same])
      obtain ⟨start', data'⟩ := ih ((part.leave s).advance part.encode.length)
        fun size member => none size (by simp [member])
      rw [after_cons]
      exact ⟨start'.trans start, data'.trans data⟩

/-- Where the cues end is left by their opening alone. -/
theorem cuesEnd_after (none : ∀ size, Part.cues size ∉ parts) :
    (after s parts).cuesEnd = s.cuesEnd := by
  induction parts generalizing s with
  | nil => rfl
  | cons part parts ih =>
      rw [after_cons, ih _ fun size member => none size (by simp [member])]
      exact leave_cuesEnd s part fun size same => none size (by simp [same])

end After

end Document

end CueIndex
