import Mathlib
import CueIndex.Cue
import CueIndex.Proofs.Element.Written
import CueIndex.SeekIndex.Basic

/-!
# Documents

The streams that an index can be read from, as trees, with what each part of them is written as and
what it says.  Nothing here mentions how they are read.

**Writing.**  A size field may have any width that holds its size, and a `Frame` is one that
declares exactly the payload behind it.  An integer may have any width that holds it, too.
Elements of no interest (`Skipped`) may stand anywhere between the others.

**Saying.**  An element may repeat, and then the last one counts: `latest` picks it out of the
integers in stream order.  A cue point says `Point.cue`, and a document as a whole says
`Document.info`, with the cues that `cuesOf` picks out of its parts.

* `Leaf`, `Group`, `Point`, `Item`, `CuesChild` — elements from the inside out.
* `Document`, `Ending` — whole streams, with the three ways in which an index can be complete.
* `Document.encode` — the bytes of a document.
* `Document.partsWithin` — what lies wholly inside a beginning of it.
-/

namespace CueIndex.Document

/-! ## Sizes and integers -/

/-- A size field that declares exactly the payload behind it. -/
structure Frame (payload : Bytes) where
  declared : UInt64
  exact : declared.toNat = payload.length
  width : ℕ
  bytes : Bytes
  written : (Size.known declared).encode? width = some bytes

namespace Frame

variable {payload : Bytes}

def field (frame : Frame payload) : SizeField :=
  ⟨.known frame.declared, frame.width, frame.bytes, frame.written⟩

/-- The two fields of an element with this frame. -/
def front (frame : Frame payload) (id : IdField) : Front := ⟨id, frame.field⟩

/-- The bytes of an element with this frame. -/
def encode (frame : Frame payload) (id : IdField) : Bytes := (frame.front id).bytes ++ payload

end Frame

/-- The payload of an element that is to hold an integer.  A payload of no bytes, or of more than
eight, spells none. -/
inductive Number
  | spelled (value : UInt64) (width : ℕ) (valid : IsWidth width) (fits : value.toNat < 256 ^ width)
  | unspelled (payload : Bytes) (odd : payload.length = 0 ∨ 8 < payload.length)

namespace Number

def payload : Number → Bytes
  | spelled value width _ _ => Bytes.lowBytes width value
  | unspelled payload _ => payload

def value? : Number → Option UInt64
  | spelled value _ _ _ => some value
  | unspelled _ _ => none

end Number

/-- The last integer of a kind, and `before` if there is none. -/
def latest (kind : Kind) (numbers : List (Kind × UInt64)) (before : UInt64) : UInt64 :=
  ((numbers.filter (·.1 = kind)).getLast?.map Prod.snd).getD before

/-! ## Elements -/

/-- The elements that are not passed over. -/
def dispatched : List Kind :=
  [.signature, .segment, .seekHead, .info, .timeScale, .duration, .cues, .cuePoint, .cueTime,
    .cueTrackPositions, .cueTrack, .cueClusterPosition, .cluster]

/-- An element that is passed over, whatever is in it. -/
structure Skipped where
  id : IdField
  payload : Bytes
  frame : Frame payload
  foreign : ∀ kind ∈ dispatched, kind.id ≠ id.id

def Skipped.encode (element : Skipped) : Bytes := element.frame.encode element.id

/-- An element with an integer of one of the given kinds, or one that is passed over. -/
inductive Leaf (kinds : List Kind)
  | number (kind : Kind) (belongs : kind ∈ kinds) (number : Number) (frame : Frame number.payload)
  | skipped (element : Skipped)

namespace Leaf

variable {kinds : List Kind}

def encode : Leaf kinds → Bytes
  | number kind _ _ frame => frame.encode (.ofKind kind)
  | skipped element => element.encode

/-- The integer that a leaf says, if it says one. -/
def numbers : Leaf kinds → List (Kind × UInt64)
  | number kind _ payload _ => payload.value?.toList.map (kind, ·)
  | skipped _ => []

end Leaf

/-- An element that holds leaves. -/
structure Group (kinds : List Kind) where
  children : List (Leaf kinds)
  frame : Frame (children.flatMap Leaf.encode)

namespace Group

variable {kinds : List Kind}

def encode (group : Group kinds) (kind : Kind) : Bytes := group.frame.encode (.ofKind kind)

/-- The integers that a group says, in stream order. -/
def numbers (group : Group kinds) : List (Kind × UInt64) := group.children.flatMap Leaf.numbers

end Group

/-- What a cue point holds. -/
inductive PointChild
  | leaf (child : Leaf [.cueTime])
  | positions (group : Group [.cueTrack, .cueClusterPosition])

namespace PointChild

def encode : PointChild → Bytes
  | leaf child => child.encode
  | positions group => group.encode .cueTrackPositions

def numbers : PointChild → List (Kind × UInt64)
  | leaf child => child.numbers
  | positions group => group.numbers

end PointChild

/-- A cue point. -/
structure Point where
  children : List PointChild
  frame : Frame (children.flatMap PointChild.encode)

namespace Point

def encode (point : Point) : Bytes := point.frame.encode (.ofKind .cuePoint)

def numbers (point : Point) : List (Kind × UInt64) := point.children.flatMap PointChild.numbers

/-- The cue that a cue point says. -/
def cue (point : Point) : CuePoint where
  time := latest .cueTime point.numbers 0
  track := latest .cueTrack point.numbers 0
  clusterPosition := latest .cueClusterPosition point.numbers 0

end Point

/-- What stands beside the cues. -/
inductive Item
  | seekHead (payload : Bytes) (frame : Frame payload)
  | info (group : Group [.timeScale, .duration])
  | skipped (element : Skipped)

def Item.encode : Item → Bytes
  | seekHead _ frame => frame.encode (.ofKind .seekHead)
  | info group => group.encode .info
  | skipped element => element.encode

/-- What the cues hold. -/
inductive CuesChild
  | point (point : Point)
  | skipped (element : Skipped)

def CuesChild.encode : CuesChild → Bytes
  | point cuePoint => cuePoint.encode
  | skipped element => element.encode

/-! ## Whole documents -/

/-- The two fields that open a segment, cues or a cluster. -/
def opening (kind : Kind) (size : SizeField) : Front := ⟨.ofKind kind, size⟩

/-- How a document ends, as far as its index is concerned.  What follows then may be anything. -/
inductive Ending
  /-- The cues declare their size, and the index is complete where they end. -/
  | closed (children : List CuesChild) (frame : Frame (children.flatMap CuesChild.encode))
      (tail : Bytes)
  /-- The cues do not declare their size, and the index is complete at the first cluster. -/
  | unclosed (cues : SizeField) (unknown : cues.size = .unknown) (children : List CuesChild)
      (items : List Item) (cluster : SizeField) (tail : Bytes)
  /-- There are no cues, and the index is complete at the first cluster. -/
  | absent (cluster : SizeField) (tail : Bytes)

def Ending.encode : Ending → Bytes
  | closed children frame tail =>
      (opening .cues frame.field).bytes ++ children.flatMap CuesChild.encode ++ tail
  | unclosed cues _ children items cluster tail =>
      (opening .cues cues).bytes ++ children.flatMap CuesChild.encode ++
        items.flatMap Item.encode ++ (opening .cluster cluster).bytes ++ tail
  | absent cluster tail => (opening .cluster cluster).bytes ++ tail

end Document

/-- A stream that an index can be read from. -/
structure Document where
  signature : Bytes
  frame : Document.Frame signature
  segment : SizeField
  items : List Document.Item
  ending : Document.Ending

namespace Document

/-- The signature element, with which a document starts. -/
def head (doc : Document) : Bytes := doc.frame.encode (.ofKind .signature)

/-- **The bytes of a document.** -/
def encode (doc : Document) : Bytes :=
  doc.head ++ (opening .segment doc.segment).bytes ++ doc.items.flatMap Item.encode ++
    doc.ending.encode

/-! ## Parts -/

/-- What a document is made of between its signature element and the place where its index is
complete.  A part is met as a whole or not at all. -/
inductive Part
  | segment (size : SizeField)
  | item (item : Item)
  | cues (size : SizeField)
  | child (child : CuesChild)

namespace Part

def encode : Part → Bytes
  | segment size => (opening .segment size).bytes
  | item element => element.encode
  | cues size => (opening .cues size).bytes
  | child element => element.encode

/-- The cue that a part says, if it is a cue point. -/
def cue? : Part → Option CuePoint
  | child (.point cuePoint) => some cuePoint.cue
  | _ => none

/-- The integers that a part says about the stream, if it is a segment's info. -/
def infoNumbers : Part → List (Kind × UInt64)
  | item (.info group) => group.numbers
  | _ => []

def isSeekHead : Part → Bool
  | item (.seekHead ..) => true
  | _ => false

end Part

/-- The bytes of parts, one after the other. -/
def encodeParts (parts : List Part) : Bytes := parts.flatMap Part.encode

/-- Parts with the positions at which they start. -/
def placed : ℕ → List Part → List (ℕ × Part)
  | _, [] => []
  | start, part :: later => (start, part) :: placed (start + part.encode.length) later

def Ending.parts : Ending → List Part
  | closed children frame _ => .cues frame.field :: children.map .child
  | unclosed cues _ children items _ _ =>
      .cues cues :: (children.map .child ++ items.map .item)
  | absent _ _ => []

/-- The header of a cluster that completes the index, or nothing where the end of the cues does. -/
def Ending.stop : Ending → Bytes
  | closed _ _ _ => []
  | unclosed _ _ _ _ cluster _ | absent cluster _ => (opening .cluster cluster).bytes

def Ending.tail : Ending → Bytes
  | closed _ _ tail | unclosed _ _ _ _ _ tail | absent _ tail => tail

def parts (doc : Document) : List Part :=
  .segment doc.segment :: (doc.items.map .item ++ doc.ending.parts)

def placedParts (doc : Document) : List (ℕ × Part) := placed doc.head.length doc.parts

/-- **The parts that lie wholly inside the first `k` bytes.** -/
def partsWithin (doc : Document) (k : ℕ) : List Part :=
  (doc.placedParts.filter fun place => place.1 + place.2.encode.length ≤ k).map Prod.snd

/-! ## What a document says -/

/-- The number of bytes that are taken in for the index: up to the end of the cues, or to the first
cluster. -/
def extent (doc : Document) : ℕ := (doc.head ++ encodeParts doc.parts).length

/-- The number of bytes that it takes to complete the index. -/
def finish (doc : Document) : ℕ := doc.extent + doc.ending.stop.length

/-- The cues that parts say, in stream order. -/
def cuesOf (parts : List Part) : List CuePoint := parts.filterMap Part.cue?

def infoNumbersOf (parts : List Part) : List (Kind × UInt64) := parts.flatMap Part.infoNumbers

/-- The facts that a document says. -/
def info (doc : Document) : StreamInfo where
  timeScale := latest .timeScale (infoNumbersOf doc.parts) 0
  duration := latest .duration (infoNumbersOf doc.parts) 0
  segmentOffset := doc.head.length
  segmentDataOffset := doc.head.length + (opening .segment doc.segment).bytes.length
  seekHeadOffset := ((doc.placedParts.filter (·.2.isSeekHead)).getLast?.map Prod.fst).getD 0

/-- Where the cues declare to end.  An unknown size counts as the largest one. -/
def cuesEnd (doc : Document) : Option ℕ :=
  match doc.ending with
  | .closed .. => some doc.extent
  | .unclosed cues .. =>
      some (doc.head.length + (opening .segment doc.segment).bytes.length +
        (doc.items.flatMap Item.encode).length + (opening .cues cues).bytes.length +
          Size.unknown.extent)
  | .absent .. => none

lemma encodeParts_append (one two : List Part) :
    encodeParts (one ++ two) = encodeParts one ++ encodeParts two := List.flatMap_append ..

lemma encodeParts_cons (part : Part) (parts : List Part) :
    encodeParts (part :: parts) = part.encode ++ encodeParts parts := rfl

lemma encodeParts_items (items : List Item) :
    encodeParts (items.map .item) = items.flatMap Item.encode := List.flatMap_map ..

lemma encodeParts_children (children : List CuesChild) :
    encodeParts (children.map .child) = children.flatMap CuesChild.encode := List.flatMap_map ..

/-- **A document is its signature element, its parts, and what completes the index and follows.** -/
theorem encode_eq (doc : Document) :
    doc.encode = doc.head ++ encodeParts doc.parts ++ doc.ending.stop ++ doc.ending.tail := by
  have ending : doc.ending.encode
      = encodeParts doc.ending.parts ++ doc.ending.stop ++ doc.ending.tail := by
    cases doc.ending with
    | closed children frame tail =>
        rw [Ending.parts, encodeParts_cons, encodeParts_children, Ending.stop, List.append_nil]
        rfl
    | unclosed cues unknown children items cluster tail =>
        rw [Ending.parts, encodeParts_cons, encodeParts_append, encodeParts_children,
          encodeParts_items, ← List.append_assoc]
        rfl
    | absent cluster tail => rfl
  rw [encode, ending, parts, encodeParts_cons, encodeParts_append, encodeParts_items, Part.encode]
  simp only [List.append_assoc]

end Document

end CueIndex
