import Mathlib
import CueIndex.Proofs.Document.Parts
import CueIndex.Proofs.Session.Resumption

/-!
# Reading whole documents

A document that is cut off anywhere is read exactly as far as it is there, and a document that is
there is read to the place where its index is complete.

**Where the cues end.**  Only the opening of the cues says it (`exists_cues`), and it says the place
where the last of the parts ends, or one that no stream is long enough to reach (`exists_stop`).

* `read_take` — what is read of the first `k` bytes.
* **`readWhole_take`** — nothing of an element that is only half there is visible.
* **`readWhole_encode`** — reading undoes writing.
-/

namespace CueIndex.Document

open Session

variable (doc : Document)

attribute [ext] StreamInfo Session

/-! ## The signature element -/

/-- The session past the signature element. -/
def begun : Session := ({ status := .reading } : Session).advance doc.head.length

lemma consumed_begun : doc.begun.consumed = doc.head.length := Nat.zero_add _

lemma resume_begun : doc.begun.resume = doc.head.length := Nat.zero_add _

/-- The signature element, which is taken in whole. -/
def headPiece : Piece :=
  doc.frame.whole (.ofKind .signature) (passed_ofKind (by decide) (by decide))

lemma bytes_headPiece : doc.headPiece.bytes = doc.head := rfl

lemma visit_headPiece : doc.headPiece.visit { status := .reading } = doc.begun := by
  have known : (doc.frame.front (.ofKind .signature)).header.kind? = some .signature :=
    kind?_opening .signature doc.frame.field
  rw [headPiece, visit_whole, record, known]
  rfl

lemma undivided_head : Undivided doc.head := doc.frame.undivided _ (closed_ofKind rfl)

lemma path_of_head (rest : Bytes) :
    ∃ events, Session.Path { status := .reading } (doc.head ++ rest) events doc.begun rest := by
  have required := doc.frame.required_header (.ofKind .signature) (closed_ofKind rfl)
  have ready : Ready [doc.headPiece] rest := by
    refine ⟨?_, trivial⟩
    rw [bytes_headPiece, List.length_append]
    exact required.le.trans (Nat.le_add_right _ _)
  have ongoing : ∀ start, start <+: [doc.headPiece] → start ≠ [] →
      (visitAll { status := .reading } start).cuesReached? = none := by
    intro start inside nonempty
    rw [eq_of_prefix_singleton inside nonempty]
    show (doc.headPiece.visit { status := .reading }).cuesReached? = none
    rw [visit_headPiece]
    rfl
  have path := path_of_pieces { status := .reading } ready ongoing
  rw [encodePieces, List.flatMap_singleton, bytes_headPiece] at path
  rw [← visit_headPiece]
  exact path

/-- A document starts with the signature. -/
lemma take_signature {k : ℕ} (enough : 4 ≤ k) :
    (doc.encode.take k).take 4 = Session.signature := by
  have starts : ∃ rest, doc.encode = Session.signature ++ rest := by
    rw [encode_eq, head, Frame.encode, Front.bytes]
    simp only [List.append_assoc]
    exact ⟨_, rfl⟩
  obtain ⟨rest, split⟩ := starts
  rw [List.take_take, Nat.min_eq_left enough, split, List.take_left' (by rw [signature_eq]; rfl)]

/-! ## Where the cues end -/

/-- The parts in front of the cues. -/
def before : List Part := .segment doc.segment :: doc.items.map .item

lemma parts_eq : doc.parts = doc.before ++ doc.ending.parts := rfl

lemma extent_eq : doc.extent = doc.head.length + (encodeParts doc.parts).length := by
  rw [extent, List.length_append]

lemma encode_length : doc.encode.length
    = doc.extent + doc.ending.stop.length + doc.ending.tail.length := by
  rw [encode_eq, extent, List.length_append, List.length_append]

lemma cues_not_mem_before (size : SizeField) : Part.cues size ∉ doc.before := by
  simp [before]

lemma cuesEnd_after_cues (s : Session) {before more : List Part} (size : SizeField)
    (none : ∀ size, Part.cues size ∉ more) :
    (after s (before ++ .cues size :: more)).cuesEnd
      = some (saturate
          (s.consumed + (encodeParts before).length + (opening .cues size).header.span)) := by
  rw [after_append, after_cons, cuesEnd_after _ _ none, ← (after_frame s before).1]
  rfl

/-- Only the opening of the cues says where they end. -/
lemma exists_cues (short : doc.encode.length < 2 ^ 63) :
    (doc.ending.parts = [] ∧ doc.cuesEnd = none) ∨
      ∃ size more, doc.ending.parts = .cues size :: more ∧ (∀ other, Part.cues other ∉ more) ∧
        doc.cuesEnd = some (saturate (doc.head.length + (encodeParts doc.before).length +
          (opening .cues size).header.span)) := by
  have total := doc.encode_length
  have extent := doc.extent_eq
  rw [parts_eq, encodeParts_append, List.length_append, ← Nat.add_assoc] at extent
  have before : (encodeParts doc.before).length
      = (opening .segment doc.segment).bytes.length + (doc.items.flatMap Item.encode).length := by
    rw [before, encodeParts_cons, encodeParts_items, List.length_append]
    rfl
  cases ending : doc.ending with
  | closed children frame tail =>
      refine .inr ⟨frame.field, children.map .child, rfl, by simp, ?_⟩
      have span : (opening .cues frame.field).header.span
          = (encodeParts (Ending.closed children frame tail).parts).length := by
        rw [Ending.parts, encodeParts_cons, encodeParts_children]
        exact frame.span_header (.ofKind .cues)
      rw [ending] at extent
      rw [cuesEnd, ending, span, ← extent, saturate_eq_self]
      exact lt_of_le_of_lt (by omega) (short.trans (by decide))
  | unclosed cues unknown children items cluster tail =>
      refine .inr ⟨cues, children.map .child ++ items.map .item, rfl, by simp, ?_⟩
      have span : (opening .cues cues).header.span
          = (opening .cues cues).bytes.length + Size.unknown.extent := by
        rw [← unknown]
        rfl
      have inside : (opening .cues cues).bytes.length ≤ (encodeParts doc.ending.parts).length := by
        rw [ending, Ending.parts, encodeParts_cons, List.length_append]
        exact Nat.le_add_right _ _
      have largest : Size.unknown.extent = 2 ^ 63 - 1 := rfl
      rw [cuesEnd, ending, span, before, saturate_eq_self]
      · simp only [Nat.add_assoc]
      · rw [largest, UInt64.size]
        omega
  | absent cluster tail => exact .inl ⟨rfl, by rw [cuesEnd, ending]⟩

/-- Either the index is complete where the last part ends, or a cluster follows and no part comes
near the end of the cues. -/
lemma exists_stop (short : doc.encode.length < 2 ^ 63) :
    (doc.ending.stop = [] ∧ doc.cuesEnd = some doc.extent) ∨
      ∃ cluster, doc.ending.stop = (opening .cluster cluster).bytes ∧
        ∀ cuesEnd, doc.cuesEnd = some cuesEnd → doc.extent < cuesEnd := by
  have total := doc.encode_length
  cases ending : doc.ending with
  | closed children frame tail => exact .inl ⟨rfl, by rw [cuesEnd, ending]⟩
  | unclosed cues unknown children items cluster tail =>
      refine .inr ⟨cluster, rfl, ?_⟩
      intro cuesEnd known
      have largest : Size.unknown.extent = 2 ^ 63 - 1 := rfl
      have := (opening .cues cues).length_pos
      rw [Document.cuesEnd, ending, Option.some.injEq] at known
      omega
  | absent cluster tail =>
      refine .inr ⟨cluster, rfl, ?_⟩
      intro cuesEnd known
      rw [Document.cuesEnd, ending] at known
      cases known

lemma cuesEnd_after_parts (short : doc.encode.length < 2 ^ 63) :
    (after doc.begun doc.parts).cuesEnd = doc.cuesEnd := by
  rw [parts_eq]
  rcases doc.exists_cues short with ⟨none, unknown⟩ | ⟨size, more, ending, single, known⟩
  · rw [none, List.append_nil, cuesEnd_after _ _ doc.cues_not_mem_before, unknown]
    rfl
  · rw [ending, cuesEnd_after_cues _ _ single, known, consumed_begun]

lemma cues_not_mem_tail (size : SizeField) : Part.cues size ∉ doc.ending.parts.tail := by
  cases doc.ending <;> simp [Ending.parts]

/-- Wherever a document is cut, its cues are opened on one side only. -/
lemma cues_once {start rest : List Part} (whole : start ++ rest = doc.parts) :
    (∀ size, Part.cues size ∉ start) ∨ ∀ size, Part.cues size ∉ rest := by
  rw [parts_eq] at whole
  rcases List.append_eq_append_iff.1 whole with ⟨more, front, -⟩ | ⟨later, rfl, split⟩
  · refine .inl ?_
    intro size member
    exact doc.cues_not_mem_before size (front ▸ List.mem_append_left more member)
  · cases later with
    | nil =>
        rw [List.append_nil]
        exact .inl doc.cues_not_mem_before
    | cons part later =>
        refine .inr ?_
        intro size member
        refine doc.cues_not_mem_tail size ?_
        rw [split]
        exact List.mem_append_right later member

/-- Before it has met the opening of the cues, a session does not know where they end, and from then
on it knows it. -/
lemma cuesEnd_after_start (short : doc.encode.length < 2 ^ 63) {start : List Part}
    (inside : start <+: doc.parts) :
    (after doc.begun start).cuesEnd = none ∨
      (after doc.begun start).cuesEnd = doc.cuesEnd := by
  obtain ⟨rest, whole⟩ := inside
  rcases doc.cues_once whole with early | late
  · refine .inl ?_
    rw [cuesEnd_after _ _ early]
    rfl
  · refine .inr ?_
    rw [← doc.cuesEnd_after_parts short, ← whole, after_append, cuesEnd_after _ _ late]

/-- No part but the last may reach the end of the cues. -/
lemma ongoing_parts (short : doc.encode.length < 2 ^ 63) {start : List Part}
    (inside : start <+: doc.parts)
    (early : start ≠ doc.parts ∨ doc.ending.stop ≠ []) :
    (after doc.begun start).cuesReached? = none := by
  rw [cuesReached?_eq_none_iff, (after_frame doc.begun start).1]
  intro cuesEnd known
  have place := doc.consumed_begun
  have known : doc.cuesEnd = some cuesEnd := by
    rcases doc.cuesEnd_after_start short inside with none | same
    · rw [none] at known
      cases known
    · rw [← same, known]
  obtain ⟨rest, whole⟩ := inside
  have extent : doc.extent
      = doc.head.length + (encodeParts start).length + (encodeParts rest).length := by
    rw [Document.extent, ← whole, encodeParts_append, List.length_append, List.length_append,
      Nat.add_assoc]
  rcases doc.exists_stop short with ⟨noStop, here⟩ | ⟨cluster, -, beyond⟩
  · rw [known, Option.some.injEq] at here
    cases rest with
    | nil =>
        rw [List.append_nil] at whole
        rcases early with other | stop
        · exact absurd whole other
        · exact absurd noStop stop
    | cons part rest =>
        have := part.undivided.length_pos
        rw [encodeParts_cons, List.length_append] at extent
        omega
  · have := beyond cuesEnd known
    omega

lemma ongoing_of_split (short : doc.encode.length < 2 ^ 63) {done later : List Part}
    {next : Part} (split : doc.parts = done ++ next :: later) {start : List Part}
    (inside : start <+: done) : (after doc.begun start).cuesReached? = none := by
  refine doc.ongoing_parts short (inside.trans ⟨next :: later, split.symm⟩) (.inl ?_)
  intro same
  have := inside.length_le
  rw [same, split, List.length_append, List.length_cons] at this
  omega

/-! ## Reading up to a place -/

/-- The session once the first `k` bytes of a document have been read, its phase apart. -/
def sessionWithin (k : ℕ) : Session :=
  if k < doc.head.length then { status := .reading } else after doc.begun (doc.partsWithin k)

lemma read_of_stop_opening (s : Session) (cluster : SizeField) (rest : Bytes) :
    (s.read ((opening .cluster cluster).bytes ++ rest)).session = s ∧
      (s.read ((opening .cluster cluster).bytes ++ rest)).outcome = .complete := by
  have required := required_opening (show Kind.cluster.isOpen = true from rfl) cluster
  have move := nextMove_of_decodeHeader (decodeHeader_written (opening .cluster cluster) rest)
    (required.le.trans (by rw [List.length_append]; exact Nat.le_add_right _ _))
  rw [if_pos (kind?_opening .cluster cluster)] at move
  rw [s.read_of_stop move]
  exact ⟨rfl, rfl⟩

/-- All parts lie inside bytes that reach the place where the last one ends. -/
lemma partsWithin_of_le {k : ℕ} (all : doc.extent ≤ k) : doc.partsWithin k = doc.parts := by
  rw [extent_eq] at all
  have nothing : ∀ next ∈ ([] : List Part).head?,
      k < doc.head.length + (encodeParts doc.parts).length + next.encode.length := by simp
  have within := within_of_split all nothing
  rwa [List.append_nil] at within

/-- With the end of the cues behind the last part, a reading of all parts is complete. -/
lemma read_of_closed (short : doc.encode.length < 2 ^ 63)
    (here : doc.cuesEnd = some doc.extent) (rest : Bytes) :
    (doc.begun.read (encodeParts doc.parts ++ rest)).session = after doc.begun doc.parts ∧
      (doc.begun.read (encodeParts doc.parts ++ rest)).outcome = .complete := by
  rcases List.eq_nil_or_concat doc.parts with none | ⟨done, last, split⟩
  · rw [parts_eq] at none
    cases none
  · rw [List.concat_eq_append] at split
    have whole : visitAll (after doc.begun done) last.pieces = after doc.begun doc.parts := by
      rw [split, after_append]
      exact congrArg _ (List.flatMap_singleton ..).symm
    have known : (after doc.begun doc.parts).cuesEnd = some doc.extent := by
      rw [doc.cuesEnd_after_parts short, here]
    have ends : (after doc.begun doc.parts).consumed = doc.extent := by
      rw [(after_frame doc.begun doc.parts).1, consumed_begun, extent_eq]
    obtain ⟨events, path⟩ := path_of_parts doc.begun
      (fun start inside _ => doc.ongoing_of_split short split inside) (last.encode ++ rest)
    rw [← whole] at known ends
    obtain ⟨session, outcome⟩ := read_of_last_part (after doc.begun done) last known ends rest
    have written : encodeParts doc.parts ++ rest = encodeParts done ++ (last.encode ++ rest) := by
      rw [split, encodeParts_append, encodeParts, encodeParts, List.flatMap_singleton,
        List.append_assoc]
    rw [written, read_of_path path, ← whole]
    exact ⟨session, outcome⟩

/-- A reading that has all parts in front of it. -/
lemma read_parts (short : doc.encode.length < 2 ^ 63) {k : ℕ} (all : doc.extent ≤ k) :
    (doc.begun.read ((encodeParts doc.parts ++ (doc.ending.stop ++ doc.ending.tail)).take
        (k - doc.head.length))).session = after doc.begun doc.parts ∧
      (doc.begun.read ((encodeParts doc.parts ++ (doc.ending.stop ++ doc.ending.tail)).take
        (k - doc.head.length))).outcome
          = if doc.finish ≤ k then .complete else .suspended := by
  have extent := doc.extent_eq
  have there : (encodeParts doc.parts).length ≤ k - doc.head.length := by omega
  have finish : doc.finish = doc.extent + doc.ending.stop.length := rfl
  rw [List.take_append, List.take_of_length_le there]
  rcases doc.exists_stop short with ⟨noStop, here⟩ | ⟨cluster, stop, -⟩
  · rw [noStop] at finish
    rw [if_pos (by rw [finish]; exact all)]
    exact doc.read_of_closed short here _
  · have follows : doc.ending.stop ≠ [] := by
      intro none
      have := (opening .cluster cluster).length_pos
      rw [← stop, none] at this
      cases this
    obtain ⟨events, path⟩ := path_of_parts doc.begun
      (fun start inside _ => doc.ongoing_parts short inside (.inr follows))
      ((doc.ending.stop ++ doc.ending.tail).take
        (k - doc.head.length - (encodeParts doc.parts).length))
    rw [read_of_path path]
    by_cases done : doc.finish ≤ k
    · rw [if_pos done, List.take_append, List.take_of_length_le (by omega), stop]
      exact read_of_stop_opening _ cluster _
    · rw [if_neg done]
      have undivided := undivided_opening (show Kind.cluster.isOpen = true from rfl) cluster
      rw [← stop] at undivided
      obtain ⟨gap, wait⟩ := undivided.wait (show k - doc.head.length
        - (encodeParts doc.parts).length < doc.ending.stop.length by omega) doc.ending.tail
      obtain ⟨later, stops⟩ := (after doc.begun doc.parts).read_of_wait wait
      rw [stops]
      exact ⟨rfl, rfl⟩

/-- **What is read of the first `k` bytes of a document.** -/
theorem read_take (short : doc.encode.length < 2 ^ 63) (k : ℕ) :
    (Session.read { status := .reading } (doc.encode.take k)).session = doc.sessionWithin k ∧
      (Session.read { status := .reading } (doc.encode.take k)).outcome
        = if doc.finish ≤ k then .complete else .suspended := by
  have extent := doc.extent_eq
  have finish : doc.finish = doc.extent + doc.ending.stop.length := rfl
  have split : doc.encode
      = doc.head ++ (encodeParts doc.parts ++ (doc.ending.stop ++ doc.ending.tail)) := by
    rw [encode_eq]
    simp only [List.append_assoc]
  rw [split, sessionWithin]
  by_cases early : k < doc.head.length
  · obtain ⟨gap, wait⟩ := doc.undivided_head.wait early _
    obtain ⟨events, stops⟩ := ({ status := .reading } : Session).read_of_wait wait
    rw [if_pos early, if_neg (by omega), stops]
    exact ⟨rfl, rfl⟩
  · rw [if_neg early, List.take_append, List.take_of_length_le (by omega)]
    obtain ⟨events, path⟩ := doc.path_of_head
      ((encodeParts doc.parts ++ (doc.ending.stop ++ doc.ending.tail)).take
        (k - doc.head.length))
    rw [read_of_path path]
    by_cases all : doc.extent ≤ k
    · rw [doc.partsWithin_of_le all]
      exact doc.read_parts short all
    · rw [if_neg (by omega)]
      obtain ⟨done, next, later, parts, fits, beyond⟩ := exists_split
        (show k - doc.head.length < (encodeParts doc.parts).length by omega)
      have within : doc.partsWithin k = done := by
        rw [partsWithin, placedParts, parts]
        refine within_of_split (by omega) ?_
        rintro other ⟨⟩
        omega
      have ongoing : ∀ start, start <+: done → start ≠ [] →
          (after doc.begun start).cuesReached? = none :=
        fun start inside _ => doc.ongoing_of_split short parts inside
      rw [within, parts, encodeParts_append, encodeParts_cons, List.append_assoc, List.append_assoc]
      exact read_of_cut doc.begun ongoing fits beyond _

/-! ## Calls -/

lemma four_le_head : 4 ≤ doc.head.length := by
  rw [head, Frame.encode, Front.bytes, List.length_append, List.length_append]
  exact (Nat.le_add_right _ _).trans (Nat.le_add_right _ _)

lemma partsWithin_of_lt {k : ℕ} (early : k < doc.head.length) : doc.partsWithin k = [] := by
  rw [partsWithin, List.map_eq_nil_iff, List.filter_eq_nil_iff]
  intro place member
  have := (bounds_of_mem_placed member).1
  simp only [decide_eq_true_eq, not_le]
  omega

/-- What a session holds once the first `k` bytes of a document have been read. -/
lemma within_sessionWithin (k : ℕ) :
    (doc.sessionWithin k).status = .reading ∧
      (doc.sessionWithin k).stalled = false ∧
      (doc.sessionWithin k).cues.toList = cuesOf (doc.partsWithin k) ∧
      (doc.sessionWithin k).info.timeScale
        = latest .timeScale (infoNumbersOf (doc.partsWithin k)) 0 ∧
      (doc.sessionWithin k).info.duration
        = latest .duration (infoNumbersOf (doc.partsWithin k)) 0 := by
  rw [sessionWithin]
  split
  · next early =>
    rw [doc.partsWithin_of_lt early]
    exact ⟨rfl, rfl, rfl, rfl, rfl⟩
  · obtain ⟨-, -, status, stalled⟩ := after_frame doc.begun (doc.partsWithin k)
    obtain ⟨timeScale, duration⟩ := info_after doc.begun (doc.partsWithin k)
    exact ⟨status, stalled, cues_after doc.begun (doc.partsWithin k), timeScale, duration⟩

/-- What a call makes of a reading that stops where this one does. -/
lemma readWhole_cut (short : doc.encode.length < 2 ^ 63) {k : ℕ} (enough : 4 ≤ k) :
    (readWhole (doc.encode.take k)).outcome
        = (if doc.finish ≤ k then .complete else .suspended) ∧
      (readWhole (doc.encode.take k)).session
        = { doc.sessionWithin k with
            status := if doc.finish ≤ k then .finished else .reading } := by
  have agree := readWhole_of_right (doc.take_signature enough)
  obtain ⟨session, outcome⟩ := doc.read_take short k
  rw [agree.session, agree.outcome, outcome_settle, outcome]
  refine ⟨rfl, ?_⟩
  by_cases done : doc.finish ≤ k
  · rw [if_pos done] at outcome ⊢
    rw [settle, outcome]
    exact congrArg (fun s : Session => { s with status := .finished }) session
  · rw [if_neg done] at outcome ⊢
    rw [settle_of_pending (by rw [outcome]; nofun), session, ← (doc.within_sessionWithin k).1]

/-- **Nothing of an element that is only half there is visible.**  However a document is cut off, a
call neither stalls nor fails, and the cues are exactly those of the cue points that lie wholly
inside the bytes that are there, in their order and with all that they say; so are the integers of
the segment's info.  The index is complete exactly if the bytes reach the end of cues that declare
one, and the end of the header of the first cluster otherwise. -/
theorem readWhole_take (short : doc.encode.length < 2 ^ 63) (k : ℕ) :
    let read := readWhole (doc.encode.take k)
    (read.outcome = if k < 4 then .signaturePending
      else if doc.finish ≤ k then .complete else .suspended) ∧
    read.session.stalled = false ∧
    read.session.cues.toList = cuesOf (doc.partsWithin k) ∧
    read.session.info.timeScale = latest .timeScale (infoNumbersOf (doc.partsWithin k)) 0 ∧
    read.session.info.duration = latest .duration (infoNumbersOf (doc.partsWithin k)) 0 := by
  intro read
  by_cases few : k < 4
  · have head := doc.four_le_head
    obtain ⟨session, outcome⟩ := readWhole_of_short
      (show (doc.encode.take k).length < 4 by rw [List.length_take]; omega)
    rw [if_pos few, doc.partsWithin_of_lt (by omega), session]
    exact ⟨outcome, rfl, rfl, rfl, rfl⟩
  · obtain ⟨outcome, session⟩ := doc.readWhole_cut short (Nat.le_of_not_lt few)
    obtain ⟨-, stalled, cues, timeScale, duration⟩ := doc.within_sessionWithin k
    rw [if_neg few, session]
    exact ⟨outcome, stalled, cues, timeScale, duration⟩

/-- A short document: a time scale, and closed cues with one cue point of three integers. -/
def specimen : Document where
  signature := []
  frame := ⟨0, rfl, 1, [0x80], by decide⟩
  segment := ⟨.unknown, 1, [0xFF], by decide⟩
  items :=
    [.info ⟨[.number .timeScale (by decide) (.spelled 1000000 3 (by decide) (by decide))
      ⟨3, rfl, 1, [0x83], by decide⟩], ⟨7, rfl, 1, [0x87], by decide⟩⟩]
  ending := .closed
    [.point ⟨[.leaf (.number .cueTime (by decide) (.spelled 1000 2 (by decide) (by decide))
        ⟨2, rfl, 1, [0x82], by decide⟩),
      .positions ⟨[.number .cueTrack (by decide) (.spelled 1 1 (by decide) (by decide))
          ⟨1, rfl, 1, [0x81], by decide⟩,
        .number .cueClusterPosition (by decide) (.spelled 4096 2 (by decide) (by decide))
          ⟨2, rfl, 1, [0x82], by decide⟩], ⟨7, rfl, 1, [0x87], by decide⟩⟩],
      ⟨13, rfl, 1, [0x8D], by decide⟩⟩]
    ⟨15, rfl, 2, [0x40, 0x0F], by decide⟩ [0x00]

/-- Cut off three bytes before the end of its cue point, the document shows its time scale and no
cue. -/
theorem readWhole_take_specimen :
    (readWhole (specimen.encode.take 40)).outcome = .suspended ∧
      (readWhole (specimen.encode.take 40)).session.cues.toList = [] ∧
      (readWhole (specimen.encode.take 40)).session.info.timeScale = 1000000 := by
  obtain ⟨outcome, -, cues, timeScale, -⟩ := specimen.readWhole_take (by decide) 40
  exact ⟨outcome.trans (by decide), cues.trans (by decide), timeScale.trans (by decide)⟩

/-! ## The whole document -/

/-- What the parts of a document leave in the end. -/
lemma after_parts (short : doc.encode.length < 2 ^ 63) :
    after doc.begun doc.parts =
      { status := .reading
        consumed := doc.extent
        resume := doc.extent
        info := doc.info
        cuesEnd := doc.cuesEnd
        cues := ⟨(cuesOf doc.parts).toArray⟩
        stalled := false } := by
  obtain ⟨consumed, resume, status, stalled⟩ := after_frame doc.begun doc.parts
  obtain ⟨timeScale, duration⟩ := info_after doc.begun doc.parts
  have seekHead := seekHeadOffset_after doc.begun doc.parts
  have cues : (after doc.begun doc.parts).cues = ⟨(cuesOf doc.parts).toArray⟩ := by
    ext1
    exact (cues_after doc.begun doc.parts).trans (by simp [CueList.toList]; rfl)
  obtain ⟨segment, data⟩ : (after doc.begun doc.parts).info.segmentOffset = doc.head.length ∧
      (after doc.begun doc.parts).info.segmentDataOffset
        = doc.head.length + (opening .segment doc.segment).bytes.length := by
    have single : ∀ size, Part.segment size ∉ doc.items.map .item ++ doc.ending.parts := by
      intro size
      cases doc.ending <;> simp [Ending.parts]
    rw [parts, after_cons]
    obtain ⟨start, data⟩ := segment_after _ _ single
    rw [start, data, ← consumed_begun]
    exact ⟨rfl, rfl⟩
  rw [consumed_begun, ← extent_eq] at consumed
  rw [resume_begun, ← extent_eq] at resume
  rw [consumed_begun] at seekHead
  have info : (after doc.begun doc.parts).info = doc.info :=
    StreamInfo.ext timeScale duration segment data seekHead
  exact Session.ext status consumed resume info (doc.cuesEnd_after_parts short) cues stalled

/-- **Reading undoes writing.**  One call over a whole document completes its index, with exactly
what the document says, and stops where the declared end of its cues or its first cluster is.  The
bound is that of a byte string in memory; cues of unknown size need it, since they count as one byte
shorter than that. -/
theorem readWhole_encode (short : doc.encode.length < 2 ^ 63) :
    (readWhole doc.encode).outcome = .complete ∧
      (readWhole doc.encode).session =
        { status := .finished
          consumed := doc.extent
          resume := doc.extent
          info := doc.info
          cuesEnd := doc.cuesEnd
          cues := ⟨(cuesOf doc.parts).toArray⟩
          stalled := false } ∧
      (readWhole doc.encode).session.takeIndex.1 = { doc.info with cues := cuesOf doc.parts } := by
  have head := doc.four_le_head
  have total := doc.encode_length
  have extent := doc.extent_eq
  have finish : doc.finish = doc.extent + doc.ending.stop.length := rfl
  obtain ⟨outcome, session⟩ :=
    doc.readWhole_cut short (show 4 ≤ doc.encode.length by omega)
  rw [List.take_length, if_pos (by omega), sessionWithin, if_neg (by omega),
    doc.partsWithin_of_le (by omega), doc.after_parts short] at session
  rw [List.take_length, if_pos (by omega)] at outcome
  refine ⟨outcome, session, ?_⟩
  rw [session]
  rfl

/-- The short document yields its cue. -/
theorem readWhole_encode_specimen :
    (readWhole specimen.encode).outcome = .complete ∧
      (readWhole specimen.encode).session.takeIndex.1.cues = [⟨1000, 1, 4096⟩] := by
  obtain ⟨outcome, -, index⟩ := specimen.readWhole_encode (by decide)
  refine ⟨outcome, ?_⟩
  rw [index]
  decide

end CueIndex.Document
