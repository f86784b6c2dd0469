import CueIndex.Cue
import CueIndex.Saturation

/-!
# Seek indexes

What a reading of the stream yields: facts about the stream as a whole and its cues.

* `StreamInfo`, `SeekIndex` — the two parts.
* `SeekIndex.cueTime`, `SeekIndex.durationTime`, `SeekIndex.clusterOffset` — ticks and positions in
  nanoseconds and bytes.
* `SeekIndex.find?` — the cue to start from for a moment of the stream.
-/

namespace CueIndex

/-- Facts about a stream as a whole.  Positions count from the stream's signature element. -/
structure StreamInfo where
  /-- Nanoseconds per tick as the stream gives them; 0 if it does not. -/
  timeScale : UInt64 := 0
  /-- The length of the stream in ticks. -/
  duration : UInt64 := 0
  /-- Where the segment element starts. -/
  segmentOffset : Nat := 0
  /-- Where the segment's payload starts. -/
  segmentDataOffset : Nat := 0
  /-- Where the seek head element starts. -/
  seekHeadOffset : Nat := 0
  deriving DecidableEq, Repr, Inhabited

/-- A finished index: the facts and the cues, in stream order. -/
structure SeekIndex extends StreamInfo where
  cues : List CuePoint := []
  deriving DecidableEq, Repr, Inhabited

/-! ## Choosing among cues -/

/-- The last of the cues that have the greatest time. -/
def latestCue? : List CuePoint → Option CuePoint
  | [] => none
  | cue :: rest =>
    match latestCue? rest with
    | none => some cue
    | some later => some (if later.time < cue.time then cue else later)

/-- The first of the cues that have the least time. -/
def earliestCue? : List CuePoint → Option CuePoint
  | [] => none
  | cue :: rest =>
    match earliestCue? rest with
    | none => some cue
    | some later => some (if later.time < cue.time then later else cue)

theorem latestCue?_eq_none_iff {cues : List CuePoint} : latestCue? cues = none ↔ cues = [] := by
  cases cues with
  | nil => simp [latestCue?]
  | cons cue rest => simp only [latestCue?]; split <;> simp

theorem earliestCue?_eq_none_iff {cues : List CuePoint} : earliestCue? cues = none ↔ cues = [] := by
  cases cues with
  | nil => simp [earliestCue?]
  | cons cue rest => simp only [earliestCue?]; split <;> simp

/-! ## Times and positions -/

namespace SeekIndex

/-- The tick of a stream that does not give one: a millisecond. -/
def defaultTick : UInt64 := 1000000

/-- Nanoseconds per tick. -/
def tick (index : SeekIndex) : UInt64 :=
  if index.timeScale = 0 then defaultTick else index.timeScale

/-- A number of ticks in nanoseconds. -/
def ticksTime (index : SeekIndex) (ticks : UInt64) : Nat :=
  saturate (ticks.toNat * index.tick.toNat)

/-- The moment of a cue in nanoseconds. -/
def cueTime (index : SeekIndex) (cue : CuePoint) : Nat := index.ticksTime cue.time

/-- The length of the stream in nanoseconds. -/
def durationTime (index : SeekIndex) : Nat := index.ticksTime index.duration

/-- Where the cluster of a cue starts, counted from the stream's signature element. -/
def clusterOffset (index : SeekIndex) (cue : CuePoint) : Nat :=
  saturate (index.segmentDataOffset + cue.clusterPosition.toNat)

/-- The cues at or before a moment given in nanoseconds. -/
def cuesUpTo (index : SeekIndex) (time : Nat) : List CuePoint :=
  index.cues.filter fun cue => index.cueTime cue ≤ time

/-- The cue to start from for a moment given in nanoseconds: the latest at or before it, or the
earliest of all if every cue is later. -/
def find? (index : SeekIndex) (time : Nat) : Option CuePoint :=
  (latestCue? (index.cuesUpTo time)).or (earliestCue? index.cues)

/-- The cues of one track. -/
def cuesOfTrack (index : SeekIndex) (track : UInt64) : List CuePoint :=
  index.cues.filter (·.track = track)

end SeekIndex

end CueIndex
