import CueIndex.Element.Header

/-!
# Element kinds

The elements that have a name, and how much of each a reading of the stream takes in at once.

* `Kind` — one constructor for each named element; `Kind.id`, `Kind.name` and back with
  `Kind.ofId?`.
* `Kind.isEntered` — of these elements only the header is taken in, so that their children are met
  one by one.  All other elements are taken in whole.
* `Kind.isOpen` — these elements may be of unknown size or longer than any buffer, so only their
  header has to be there before they are met.  All other elements have to be there whole.
* `Kind.isInteger` — the elements whose payload the index keeps as a number.
* `Header.required`, `Header.advance` — the two byte counts that follow.
-/

namespace CueIndex

/-- The named elements of the stream. -/
inductive Kind
  | signature
  | segment
  | cluster
  | seekHead
  | info
  | tracks
  | cues
  | tags
  | attachments
  | chapters
  | timeScale
  | duration
  | cuePoint
  | cueTime
  | cueTrackPositions
  | cueTrack
  | cueClusterPosition
  | cueBlockNumber
  deriving DecidableEq, Repr

namespace Kind

/-- All named elements. -/
def all : List Kind :=
  [signature, segment, cluster, seekHead, info, tracks, cues, tags, attachments, chapters,
    timeScale, duration, cuePoint, cueTime, cueTrackPositions, cueTrack, cueClusterPosition,
    cueBlockNumber]

/-- The id that an element has in the stream. -/
def id : Kind → ElementId
  | signature => 0x1A45DFA3
  | segment => 0x18538067
  | cluster => 0x1F43B675
  | seekHead => 0x114D9B74
  | info => 0x1549A966
  | tracks => 0x1654AE6B
  | cues => 0x1C53BB6B
  | tags => 0x1254C367
  | attachments => 0x1941A469
  | chapters => 0x1043A770
  | timeScale => 0x2AD7B1
  | duration => 0x4489
  | cuePoint => 0xBB
  | cueTime => 0xB3
  | cueTrackPositions => 0xB7
  | cueTrack => 0xF7
  | cueClusterPosition => 0xF1
  | cueBlockNumber => 0x5378

/-- The name that an element has in messages. -/
def name : Kind → String
  | signature => "EBML"
  | segment => "Segment"
  | cluster => "Cluster"
  | seekHead => "SeekHead"
  | info => "Info"
  | tracks => "Tracks"
  | cues => "Cues"
  | tags => "Tags"
  | attachments => "Attachments"
  | chapters => "Chapters"
  | timeScale => "TimecodeScale"
  | duration => "Duration"
  | cuePoint => "CuePoint"
  | cueTime => "CueTime"
  | cueTrackPositions => "CueTrackPositions"
  | cueTrack => "CueTrack"
  | cueClusterPosition => "CueClusterPosition"
  | cueBlockNumber => "CueBlockNumber"

/-- The named element with a given id. -/
def ofId? (id : ElementId) : Option Kind := all.find? (·.id = id)

theorem mem_all (kind : Kind) : kind ∈ all := by
  cases kind <;> decide

/-- No two named elements share an id. -/
theorem id_injective {kind other : Kind} (same : kind.id = other.id) : kind = other := by
  have distinct : ∀ kind ∈ all, ∀ other ∈ all, kind.id = other.id → kind = other := by decide
  exact distinct kind (mem_all kind) other (mem_all other) same

/-- Looking an id up finds the element that has it. -/
theorem ofId?_eq_some_iff {id : ElementId} {kind : Kind} : ofId? id = some kind ↔ kind.id = id := by
  constructor
  · intro found
    simpa using List.find?_some found
  · intro same
    cases found : ofId? id with
    | none => exact absurd same (by simpa using List.find?_eq_none.1 found kind (mem_all kind))
    | some other =>
      have : other.id = id := by simpa using List.find?_some found
      rw [id_injective (this.trans same.symm)]

@[simp] theorem ofId?_id (kind : Kind) : ofId? kind.id = some kind := ofId?_eq_some_iff.2 rfl

/-- The elements whose children are met one by one. -/
def isEntered : Kind → Bool
  | segment | info | cues | cuePoint | cueTrackPositions => true
  | _ => false

/-- The elements that are met as soon as their header is there. -/
def isOpen : Kind → Bool
  | segment | cues | cluster => true
  | _ => false

/-- The elements whose payload is an unsigned integer that the index keeps. -/
def isInteger : Kind → Bool
  | timeScale | duration | cueTime | cueTrack | cueClusterPosition => true
  | _ => false

end Kind

/-- The name of the element with a given id, for messages. -/
def elementName (id : ElementId) : String :=
  match Kind.ofId? id with
  | some kind => kind.name
  | none => "unhandled"

namespace Header

/-- The named element that a header belongs to. -/
def kind? (h : Header) : Option Kind := Kind.ofId? h.id

/-- How many bytes have to be there before the element is met. -/
def required (h : Header) : Nat :=
  if h.kind?.any Kind.isOpen then h.length else h.span

/-- How many bytes the element takes in when it is met. -/
def advance (h : Header) : Nat :=
  if h.kind?.any Kind.isEntered then h.length else h.span

end Header

end CueIndex
