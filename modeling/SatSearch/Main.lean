import SatSearch.CommandLine

/-!
# Main program

Runs the command line on the files and the clock of the host.
-/

namespace SatSearch.CommandLine

/-- The system error behind a failed operation on a file. -/
def systemError : IO.Error → SystemError
  | .noFileOrDirectory .. => .notFound
  | .permissionDenied .. => .permissionDenied
  | .inappropriateType _ code details =>
    if code.toNat = 20 then .notADirectory
    else if code.toNat = 21 then .isADirectory
    else ⟨details, code.toNat⟩
  | e => ⟨toString e, 0⟩

/-- The content of a file.  A directory can be opened but not read. -/
def readFile (path : String) : IO (Except FileError ByteArray) := do
  try
    return .ok (← IO.FS.readBinFile path)
  catch e =>
    let cause := systemError e
    return .error (if cause = .isADirectory then .cannotRead cause else .cannotOpen cause)

/-- Searches to the end, and requests cancellation once `deadline`, in milliseconds of the monotonic
clock, has passed. -/
def finishUntil (deadline : Nat) (s : Search) : IO (Except SolveError Binding) := do
  match ← s.announce.runPolling (return deadline ≤ (← IO.monoMsNow)) s.treeSize with
  | .error fault => return .error (.internal fault)
  | .ok (verdict, _) => return verdict.result

/-- Executes a command, giving up when its timeout expires. -/
def executeTimed (program : String) : Command → IO (Except (Failure CommandError) String)
  | .usage => return .ok (usage program ++ "\n")
  | .check path none => return check path (← readFile path)
  | .check path (some timeout) => do
    match prepareCheck path (← readFile path) with
    | .error failure => return .error failure
    | .ok (d, s) =>
      let start ← IO.monoMsNow
      return answer d (← finishUntil (start + timeout) s)

end SatSearch.CommandLine

open SatSearch.CommandLine

def main (args : List String) : IO UInt32 := do
  let program := (← IO.appPath).toString
  let result ←
    match parseCommand args with
    | .error e => pure (.error (.returned e))
    | .ok command => executeTimed program command
  let outcome := Outcome.ofResult program result
  IO.print outcome.stdout
  IO.eprint outcome.stderr
  return outcome.exitCode.toUInt32
