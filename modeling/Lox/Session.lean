/-
A session: programs run one after the other.

The globals of one program are there for the next, and so is everything that functions
of an earlier program remember.  Occurrences are numbered on through all programs, also
those that were refused, so that the distances found for one never get in the way of
another.

A program that has a fault of any kind is not run at all.
-/
import Lox.Grammar.Program
import Lox.Machine.Run
import Lox.Scheme.Program
import Lox.Source.Lexed

namespace Lox

/-- How an attempt to run a program ended. -/
inductive Outcome where
  | success
  | refused (faults : List Fault)
  | failed (failure : Failure)
  | outOfFuel
  deriving DecidableEq, Inhabited

/-- The lines that report faults. -/
def Fault.report (faults : List Fault) : String :=
  "\n".intercalate (faults.map Fault.render)

/-- What programs of a session leave behind for the next. -/
structure Session where
  /-- The number of the latest occurrence. -/
  lastId : Nat
  locals : Scope.Locals
  env : Env
  depth : Nat
  memory : Memory

namespace Session

/-- A session in which nothing was run yet. -/
def new : Session :=
  ⟨0, ∅, Memory.globals, 0, Memory.initial⟩

instance : Inhabited Session := ⟨new⟩

/-- Reads a program, or finds what is wrong with its words and its grammar. -/
def parse (session : Session) (source : String) :
    Except (List Fault) (List Stmt) × Session :=
  let lexed := Lexed.ofSource source
  let parsed := Grammar.parse lexed.tokens lexed.endLine session.lastId
  let result :=
    match lexed.faults ++ parsed.faults with
    | [] => .ok parsed.program
    | faults => .error (Fault.sortByLine faults)
  (result, { session with lastId := parsed.lastId })

/-- Reads a program and analyses its scopes, or finds what is wrong with it. -/
def analyse (session : Session) (source : String) :
    Except (List Fault) (List Stmt × List (Nat × Nat)) × Session :=
  match session.parse source with
  | (.error faults, session) => (.error faults, session)
  | (.ok program, session) =>
      let found := Scope.analyse program
      match found.faults with
      | [] => (.ok (program, found.locals), session)
      | faults => (.error faults, session)

/-- What the end of the machine's run means for the program. -/
def outcomeOf (s : Machine.State) : Outcome :=
  match s.ended? with
  | some (.failed failure) => .failed failure
  | some _ => .success
  | none => .outOfFuel

/-- Runs a program: how that ended, what was written, and the session afterwards. -/
def run (clock : Nat → Float) (fuel : Nat) (sink : Machine.Sink) (session : Session)
    (source : String) : Outcome × Machine.Sink × Session :=
  match session.analyse source with
  | (.error faults, session) => (.refused faults, sink, session)
  | (.ok (program, found), ⟨lastId, locals, env, depth, memory⟩) =>
      let locals := Scope.Locals.extend locals found
      let final :=
        Machine.run ⟨locals, clock⟩ fuel (.start program env depth memory sink)
      (outcomeOf final, final.sink, ⟨lastId, locals, final.env, final.depth, final.memory⟩)

/-- The Scheme program for a program, or what is wrong with that. -/
def toScheme (pretty : Bool) (session : Session) (source : String) :
    Except (List Fault) String × Session :=
  match session.analyse source with
  | (.error faults, session) => (.error faults, session)
  | (.ok (program, _), session) =>
      (.ok (if pretty then Scheme.prettyProgram program else Scheme.program program), session)

end Session

end Lox
