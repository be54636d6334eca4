import SatSearch.Dimacs.Parser
import SatSearch.Solver

/-!
# Command line

`check <file_name> [timeout_ms]` reads a DIMACS file and prints whether its formula is satisfiable,
with a model if it is.  Without arguments the usage is printed.  An error is reported on the error
stream, and the exit code is then 1.  A panic is reported there too, but with the exit code 101.
-/

namespace SatSearch.CommandLine

inductive Command where
  | usage
  /-- Solve the file, giving up after `timeout` milliseconds if there is a timeout. -/
  | check (path : String) (timeout : Option Nat)
deriving DecidableEq, Inhabited, Repr

inductive CommandError where
  | unknownCommand (name : String)
  | missingArgument
  | invalidTimeout (value : String) (cause : Text.NumeralError)
  | parseFailed (cause : Dimacs.ParseError)
  | solverFailed (cause : SolveError)
deriving DecidableEq, Repr

/-- How the command is used, under the name by which it was called. -/
def usage (program : String) : String :=
  s!"Usage: {program} <command>\n\ncommand:\n" ++
    "    check <file_name> [timeout_ms] - solve the given DIMACS CNF file"

namespace CommandError

def message (program : String) : CommandError → String
  | unknownCommand name => s!"Unknown command '{name}'\n\n{usage program}"
  | missingArgument => s!"Required argument does not exist\n\n{usage program}"
  | invalidTimeout value _ => s!"Invalid timeout '{value}'"
  | parseFailed _ => "Failed to parse CNF"
  | solverFailed _ => "Solver gave up"

def causes : CommandError → List String
  | unknownCommand _ | missingArgument => []
  | invalidTimeout _ cause => [cause.message]
  | parseFailed cause => cause.message :: cause.causes
  | solverFailed cause => [cause.message]

def report (program : String) (e : CommandError) : Report :=
  ⟨e.message program, e.causes⟩

end CommandError

/-- Reads the timeout among the arguments after the file name.  Arguments after it are ignored. -/
def parseTimeout : List String → Except CommandError (Option Nat)
  | [] => .ok none
  | value :: _ =>
    match Text.readNumeral .unsigned64 value.toList with
    | .ok n => .ok (some n.toNat)
    | .error cause => .error (.invalidTimeout value cause)

def parseCommand : List String → Except CommandError Command
  | [] => .ok .usage
  | ["check"] => .error .missingArgument
  | "check" :: path :: rest => do
    let timeout ← parseTimeout rest
    return .check path timeout
  | name :: _ => .error (.unknownCommand name)

/-- Reads a formula and prepares the search for a model of it. -/
def prepareCheck (path : String) (content : Except FileError ByteArray) :
    Except (Failure CommandError) (Dimacs × Search) :=
  match Dimacs.parseFile {} path content with
  | .error failure => .error (failure.map .parseFailed)
  | .ok d =>
    match Search.prepare d.formula .empty {} .never with
    | .error cause => .error (.returned (.solverFailed cause))
    | .ok s => .ok (d, s)

def answer (d : Dimacs) : Except SolveError Binding → Except (Failure CommandError) String
  | .ok b => .ok s!"SAT\n{d.modelLine b}\n"
  | .error .unsatisfiable => .ok "UNSAT\n"
  | .error cause => .error (.returned (.solverFailed cause))

structure Outcome where
  exitCode : Nat := 0
  stdout : String := ""
  stderr : String := ""
deriving DecidableEq, Inhabited, Repr

/-- The outcome of printing an answer or reporting a failure.  The report of a panic leaves out the
place in the program where it occurred. -/
def Outcome.ofResult (program : String) : Except (Failure CommandError) String → Outcome
  | .ok text => { stdout := text }
  | .error (.returned e) => { exitCode := 1, stderr := s!"Error: {(e.report program).text}\n" }
  | .error (.panicked cause) => { exitCode := 101, stderr := s!"{cause.message}\n" }

/-- Reads, solves and answers, without giving up. -/
def check (path : String) (content : Except FileError ByteArray) :
    Except (Failure CommandError) String := do
  let (d, s) ← prepareCheck path content
  answer d s.finish.1

def execute (program : String) (readFile : String → Except FileError ByteArray) :
    Command → Except (Failure CommandError) String
  | .usage => .ok (usage program ++ "\n")
  | .check path _ => check path (readFile path)

/-- The outcome of the command with the given arguments, where `program` is the name by which it
was called and `readFile` gives the content of the files, if no timeout expires. -/
def run (program : String) (args : List String)
    (readFile : String → Except FileError ByteArray) : Outcome :=
  .ofResult program do
    let command ← (parseCommand args).mapError .returned
    execute program readFile command

end SatSearch.CommandLine
