import CueIndex.Command

/-!
# The program

Requests are made of an open file; everything else is decided by `Command` and `Scan`.
-/

namespace CueIndex

/-- The reason that the operating system gives for a failure. -/
def failureReason : IO.Error → String
  | .noFileOrDirectory _ code details => s!"{details} (os error {code})"
  | .permissionDenied _ code details => s!"{details} (os error {code})"
  | .inappropriateType _ code details => s!"{details} (os error {code})"
  | .invalidArgument _ code details => s!"{details} (os error {code})"
  | .resourceExhausted _ code details => s!"{details} (os error {code})"
  | .illegalOperation code details => s!"{details} (os error {code})"
  | .hardwareFault code details => s!"{details} (os error {code})"
  | .otherError code details => s!"{details} (os error {code})"
  | other => toString other

/-- Make one request of an open file. -/
def request (handle : IO.FS.Handle) (chunkSize : Nat) : IO Reply := do
  try
    let chunk ← handle.read chunkSize.toUSize
    return .bytes chunk.toList
  catch
    | .interrupted .. => return .interrupted
    | failure => return .failed (failureReason failure)

/-- Scan an open file, one request at a time. -/
partial def scanFile (handle : IO.FS.Handle) (options : ScanOptions) (scan : Scan) :
    IO Verdict := do
  let turned := scan.turn options
  match turned.verdict with
  | some verdict => return verdict
  | none =>
    match turned.scan.receive (← request handle options.chunkSize) with
    | (_, some error) => return .error error
    | (next, none) => scanFile handle options next

/-- Open a file and scan it, unless the options are refused. -/
def scanPath (path : String) (options : ScanOptions) : IO Verdict := do
  try
    let handle ← IO.FS.Handle.mk path .read
    match options.refusal? with
    | some verdict => return verdict
    | none => scanFile handle options {}
  catch failure => return .error (.unreadable (failureReason failure))

/-- What a command leaves behind. -/
def commandReport : Command → IO Command.Report
  | .usage => return { lines := Command.usageLines }
  | .invalidChunkSize text => return { lines := Command.invalidChunkSizeLines text }
  | .scan path options => return Command.report path (← scanPath path options)

/-- Print what the arguments ask for. -/
def runCommand (args : List String) : IO UInt32 := do
  let report ← commandReport (.ofArgs args)
  IO.print report.text
  return report.exitCode

end CueIndex

/-- The program. -/
def main (args : List String) : IO UInt32 := CueIndex.runCommand args
