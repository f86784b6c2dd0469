import CueIndex.SeekIndex.Basic

/-!
# Seek indexes as JSON text

One line without blanks, members in a fixed order: the facts about the stream, then the cues.

* `Json.member`, `Json.object`, `Json.array` — the pieces of the text.
* `SeekIndex.toJson` — the text of an index.
-/

namespace CueIndex

namespace Json

/-- A member of an object. -/
def member (key value : String) : String := "\"" ++ key ++ "\":" ++ value

def object (members : List String) : String := "\x7b" ++ ",".intercalate members ++ "\x7d"

def array (items : List String) : String := "[" ++ ",".intercalate items ++ "]"

end Json

def CuePoint.toJson (cue : CuePoint) : String :=
  Json.object [
    Json.member "cue_time" (toString cue.time.toNat),
    Json.member "track_position" <| Json.object [
      Json.member "track" (toString cue.track.toNat),
      Json.member "cluster_position" (toString cue.clusterPosition.toNat)]]

def SeekIndex.toJson (index : SeekIndex) : String :=
  Json.object [
    Json.member "time_scale" (toString index.timeScale.toNat),
    Json.member "duration" (toString index.duration.toNat),
    Json.member "segment_offset" (toString index.segmentOffset),
    Json.member "segment_data_offset" (toString index.segmentDataOffset),
    Json.member "segment_seekhead_offset" (toString index.seekHeadOffset),
    Json.member "cue_points" (Json.array (index.cues.map CuePoint.toJson))]

end CueIndex
