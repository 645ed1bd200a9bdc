/-
Sessions of the reference.

A session of the reference reads programs as every session does and runs them with the
evaluator for lexical scoping.  It does not analyse them: no program is refused for its
scopes, and nothing but the store goes from one program to the next.
-/
import Lox.Proofs.Lexical.Evaluator
import Lox.Session

namespace Lox

/-! ### What a session answers -/

/-- The answers to programs that are run one after the other, each to its end: how it
ended, and what was written until then. -/
inductive Answers {σ : Type}
    (run : Nat → Machine.Sink → σ → String → Outcome × Machine.Sink × σ) :
    Machine.Sink → σ → List String → List (Outcome × Machine.Sink) → Prop
  | nil {sink : Machine.Sink} {session : σ} : Answers run sink session [] []
  | cons {fuel : Nat} {sink sink' : Machine.Sink} {session after : σ} {source : String}
      {outcome : Outcome} {rest : List String} {answers : List (Outcome × Machine.Sink)}
      (hrun : run fuel sink session source = (outcome, sink', after))
      (hended : outcome ≠ .outOfFuel) (hrest : Answers run sink' after rest answers) :
      Answers run sink session (source :: rest) ((outcome, sink') :: answers)

namespace Lexical

/-- What goes from one program to the next. -/
structure Session where
  /-- The number of the latest occurrence. -/
  lastId : Nat
  store : Store
  deriving Inhabited

namespace Session

/-- The session in which no program has been run yet. -/
def new : Session :=
  ⟨0, .initial (.working "")⟩

/-- What the end of an evaluation means for the program. -/
def outcomeOf : Result Ending → Outcome
  | .done _ => .success
  | .failed failure => .failed failure
  | .outOfFuel => .outOfFuel

/-- Runs a program: how that ended, what was written, and the session afterwards. -/
def run (clock : Nat → Float) (fuel : Nat) (sink : Machine.Sink) (session : Session)
    (source : String) : Outcome × Machine.Sink × Session :=
  let lexed := Lexed.ofSource source
  let parsed := Grammar.parse lexed.tokens lexed.endLine session.lastId
  match lexed.faults ++ parsed.faults with
  | [] =>
      let (result, store) :=
        executeAll (execute clock fuel 0) none parsed.program { session.store with sink := sink }
      (outcomeOf result, store.sink, ⟨parsed.lastId, store⟩)
  | faults => (.refused (Fault.sortByLine faults), sink, ⟨parsed.lastId, session.store⟩)

end Session

end Lexical

end Lox
