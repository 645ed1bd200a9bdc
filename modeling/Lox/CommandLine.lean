/-
The command line.

A script is run, or shown as Scheme or as an outline if the options ask for that.
Without a script the same is done to each line of the input, in one session.  What a
program prints goes to the standard output and what is wrong with it to the standard
error; the exit code says which kind of thing went wrong.
-/
import Lox.Session

namespace Lox.CommandLine

/-- What to do with a program. -/
inductive Action where
  | run
  | outline
  | scheme (pretty : Bool)
  deriving DecidableEq, Repr, Inhabited

/-- What the command line asks for. -/
structure Request where
  action : Action
  script : Option String
  deriving DecidableEq, Repr, Inhabited

/-- The request that the arguments make, unless there is an option among them that does
not exist or more than one script. -/
def Request.ofArguments (arguments : List String) : Option Request :=
  let (options, names) := arguments.partition (fun a => a.startsWith "--")
  let action :=
    if options.contains "--scheme" then .scheme (options.contains "--pretty")
    else if options.contains "--ast" then .outline
    else .run
  if options.all (["--scheme", "--pretty", "--ast"].contains ·) then
    match names with
    | [] => some ⟨action, none⟩
    | [name] => some ⟨action, some name⟩
    | _ => none
  else none

/-- What was written to both outputs, and the exit code. -/
structure Report where
  out : String
  err : String
  exitCode : UInt32
  deriving DecidableEq, Inhabited

/-- The source cannot be used. -/
def exitBadSource : UInt32 := 65

/-- The script cannot be read. -/
def exitNoInput : UInt32 := 66

/-- The program went wrong. -/
def exitFailure : UInt32 := 70

/-- The report on a program with faults. -/
def refusal (faults : List Fault) : Report :=
  ⟨"", Fault.report faults ++ "\n", exitBadSource⟩

/-- What the outcome of a run adds to what the program has printed. -/
def ofOutcome (printed : String) : Outcome → Report
  | .success => ⟨printed, "", 0⟩
  | .refused faults => { refusal faults with out := printed }
  | .failed failure => ⟨printed, failure.render ++ "\n", exitFailure⟩
  | .outOfFuel => ⟨printed, "Out of steps.\n", exitFailure⟩

/-- Does with a program what was asked for. -/
def perform (clock : Nat → Float) (action : Action) (session : Session) (source : String) :
    Report × Session :=
  match action with
  | .run =>
      let (outcome, sink, session) :=
        session.run clock Machine.defaultFuel (.working "") source
      (ofOutcome sink.text outcome, session)
  | .outline =>
      match session.parse source with
      | (.ok program, session) => (⟨outlineProgram program ++ "\n", "", 0⟩, session)
      | (.error faults, session) => (refusal faults, session)
  | .scheme pretty =>
      match session.toScheme pretty source with
      | (.ok text, session) => (⟨text, "", 0⟩, session)
      | (.error faults, session) => (refusal faults, session)

/-! ### Scripts -/

/-- Why a script cannot be read that is not there. -/
def noSuchFile : String := "No such file or directory (os error 2)"

/-- The report on a script that cannot be read. -/
def unreadable (name reason : String) : Report :=
  ⟨"", "Could not read " ++ name ++ ": " ++ reason ++ "\n", exitNoInput⟩

/-- The report on a script. -/
def script (clock : Nat → Float) (action : Action) (source : String) : Report :=
  (perform clock action .new source).1

/-! ### Prompts -/

/-- What is written before the first line, when no earlier input is remembered. -/
def greeting : String := "No previous history.\n"

/-- What is written when the input ends. -/
def farewell : String := "CTRL-D\n"

/-- The reports on lines of input, put together. -/
def lines (clock : Nat → Float) (action : Action) : Session → List String → String × String
  | _, [] => ("", "")
  | session, line :: rest =>
      let (report, session) := perform clock action session line
      let (out, err) := lines clock action session rest
      (report.out ++ out, report.err ++ err)

/-- The lines of an input; the last one may do without its newline. -/
def linesOf (input : String) : List String :=
  let parts := input.splitOn "\n"
  if parts.getLast? = some "" then parts.dropLast else parts

/-- The report on a whole input.  Whatever was wrong with its lines, the prompt itself
ends well. -/
def prompt (clock : Nat → Float) (action : Action) (input : String) : Report :=
  let (out, err) := lines clock action .new (linesOf input)
  ⟨greeting ++ out ++ farewell, err, 0⟩

end Lox.CommandLine
