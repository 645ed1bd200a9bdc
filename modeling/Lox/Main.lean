/-
The program itself: reads the script or the lines of the standard input, and writes the
reports on them.
-/
import Lox.CommandLine

open Lox Lox.CommandLine

namespace Lox.Main

/-- Where earlier input is remembered. -/
def historyFile : String := "history.txt"

/-- Writes a report to both outputs. -/
def write (report : Report) : IO Unit := do
  IO.print report.out
  (← IO.getStdout).flush
  IO.eprint report.err

/-- The seconds since the start; each reading is a little later than the one before. -/
def clockFrom (started now : Nat) : Nat → Float :=
  fun reading => (now - started).toFloat / 1000 + reading.toFloat / 1000000

/-- A line without the characters that end it. -/
def withoutEnd (line : String) : String :=
  ((line.dropEndWhile (· = '\n')).dropEndWhile (· = '\r')).toString

/-- Reports on the lines of the standard input until it ends; gives the lines back. -/
partial def promptLoop (action : Action) (started : Nat) (session : Session)
    (before : Array String) : IO (Array String) := do
  let input ← IO.getStdin
  if ← input.isTty then
    IO.print ">> "
    (← IO.getStdout).flush
  let line ← input.getLine
  if line.isEmpty then
    IO.print farewell
    return before
  let line := withoutEnd line
  let (report, session) := perform (clockFrom started (← IO.monoMsNow)) action session line
  write report
  promptLoop action started session (before.push line)

/-- A prompt, with the history of earlier ones. -/
def runPrompt (action : Action) : IO UInt32 := do
  let earlier ← (some <$> IO.FS.readFile historyFile) <|> pure none
  if earlier.isNone then
    IO.print greeting
  let entered ← promptLoop action (← IO.monoMsNow) .new #[]
  let history := (earlier.getD "") ++ String.join (entered.toList.map (· ++ "\n"))
  try
    IO.FS.writeFile historyFile history
  catch e =>
    IO.eprintln ("Could not save history: " ++ toString e)
  return 0

/-- A script. -/
def runScript (action : Action) (name : String) : IO UInt32 := do
  let started ← IO.monoMsNow
  let report ←
    try
      let source ← IO.FS.readFile name
      pure (script (clockFrom started (← IO.monoMsNow)) action source)
    catch e =>
      match e with
      | .noFileOrDirectory .. => pure (unreadable name noSuchFile)
      | other => pure (unreadable name (toString other))
  write report
  return report.exitCode

end Lox.Main

/-- Runs the script named by the arguments, or a prompt. -/
def main (arguments : List String) : IO UInt32 := do
  match Request.ofArguments arguments with
  | some ⟨action, some name⟩ => Lox.Main.runScript action name
  | some ⟨action, none⟩ => Lox.Main.runPrompt action
  | none =>
      IO.eprintln "usage: lox [--scheme [--pretty] | --ast] [script]"
      return 2
