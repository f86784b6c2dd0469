import CueIndex.Decimal.Fixed
import CueIndex.Scan.Basic

/-!
# The command line

The scanner takes the path of a file and, if wanted, how many bytes to ask for at a time, and prints
the index of the file.

* `Command`, `Command.ofArgs` — what the arguments ask for.
* `Command.banner`, `Command.usageLines`, `Command.invalidChunkSizeLines`, `Command.resultLines` —
  the lines that are printed.
* `Command.Report`, `Command.transcript` — all of them and the exit code, for files whose replies
  are known.
-/

namespace CueIndex

/-- What the arguments of the command line ask for. -/
inductive Command
  /-- There is no path. -/
  | usage
  /-- The second argument is no number of bytes to ask for. -/
  | invalidChunkSize (text : String)
  | scan (path : String) (options : ScanOptions)
  deriving DecidableEq, Repr

namespace Command

/-! ## Arguments -/

/-- The number that a nonempty list of decimal digits spells, the first one most significant. -/
def digits? (digits : List Char) : Option Nat :=
  if digits.isEmpty ∨ ¬ digits.all Char.isDigit then none
  else some (digits.foldl (fun n c => 10 * n + (c.toNat - '0'.toNat)) 0)

/-- A number of bytes to ask for: decimal digits, perhaps after a plus sign, of a positive number of
at most 64 bits. -/
def chunkSize? (text : String) : Option Nat :=
  let digits := match text.toList with
    | '+' :: digits => digits
    | digits => digits
  (digits? digits).filter fun n => 0 < n ∧ n < UInt64.size

/-- What the arguments ask for.  Arguments after the second have no meaning. -/
def ofArgs : List String → Command
  | [] => usage
  | [path] => scan path {}
  | path :: text :: _ =>
    match chunkSize? text with
    | some chunkSize => scan path { chunkSize }
    | none => invalidChunkSize text

/-! ## Printed lines -/

/-- The lines printed first, whatever is asked for. -/
def banner : List String :=
  ["🔍 MKV Cue Scanner - Seek Index Extraction",
    "=========================================="]

/-- The lines printed if there is no path. -/
def usageLines : List String :=
  ["Usage: mkv_cue_scanner <file.mkv|file.webm> [chunk_size]",
    "Example: mkv_cue_scanner tests/testdata/sample.webm 4096"]

/-- The lines printed if the second argument is no number of bytes to ask for. -/
def invalidChunkSizeLines (text : String) : List String := ["❌ Invalid chunk size: " ++ text]

/-- Nanoseconds in seconds with three places. -/
def seconds (time : Nat) : String := Decimal.fixed 3 (time.toUInt64.toFloat / 1000000000)

/-- The line of a cue. -/
def cueLine (index : SeekIndex) (cue : CuePoint) (number : Nat) : String :=
  let number := Decimal.padRight 4 (toString number)
  let time := Decimal.padLeft ' ' 10 (seconds (index.cueTime cue))
  let track := Decimal.padRight 3 (toString cue.track.toNat)
  let cluster := Decimal.padLeft ' ' 10 (toString cue.clusterPosition.toNat)
  let offset := toString (index.clusterOffset cue)
  s!"  #{number} time {time} s  track {track} cluster {cluster} (abs {offset})"

/-- The lines of an index. -/
def indexLines (path : String) (index : SeekIndex) : List String :=
  let tick := toString index.tick.toNat
  let defaulted := if index.timeScale = 0 then " (default)" else ""
  let ticks := toString index.duration.toNat
  let length := seconds index.durationTime
  ["📄 File: " ++ path,
    s!"⏱️  Time scale: {tick} ns/tick{defaulted}",
    s!"📏 Duration: {ticks} ticks ({length} s)",
    s!"📦 Segment at {index.segmentOffset}, data at {index.segmentDataOffset}, "
      ++ s!"seek head at {index.seekHeadOffset}",
    s!"🎯 {index.cues.length} cue points"]
  ++ index.cues.mapIdx fun number cue => cueLine index cue number

/-- The lines printed after a scan. -/
def resultLines (path : String) : Verdict → List String
  | .ok index => indexLines path index ++ ["", "✅ Scan completed successfully"]
  | .error error => ["", "❌ Scan failed: " ++ error.message]
  | .panicked => []

/-! ## A whole run -/

/-- What a command leaves behind. -/
structure Report where
  /-- The lines printed after the banner. -/
  lines : List String
  exitCode : UInt32 := 0

/-- What is left behind by a scan.  A failure is no reason for another exit code. -/
def report (path : String) (verdict : Verdict) : Report where
  lines := resultLines path verdict
  exitCode := match verdict with
    | .ok _ | .error _ => 0
    | .panicked => 101

/-- Everything printed, each line ended by a line feed. -/
def Report.text (report : Report) : String :=
  String.join ((banner ++ report.lines).map (· ++ "\n"))

/-- What the given arguments leave behind, where `open?` tells for a path and the number of bytes to
ask for either the replies of the file or the reason why it cannot be opened. -/
def transcript (args : List String) (open? : String → Nat → Except String (List Reply)) : Report :=
  match ofArgs args with
  | usage => { lines := usageLines }
  | invalidChunkSize text => { lines := invalidChunkSizeLines text }
  | scan path options =>
    match open? path options.chunkSize with
    | .ok replies => report path (CueIndex.scan options replies).verdict
    | .error reason => report path (.error (.unreadable reason))

end Command

end CueIndex
