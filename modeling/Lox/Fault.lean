/-
Faults: what can be wrong with a source before it is run.

A fault says where it is and why.  The three groups of causes belong to the three
things that are checked, the words, the grammar and the scoping, and each cause has
one wording, `Cause.message`.
-/
import Lox.Token

namespace Lox

namespace Fault

/-- Where on its line a fault is reported. -/
inductive Place where
  | line
  | lexeme (text : String)
  | atEnd
  deriving DecidableEq, Repr, Inhabited

/-- Why a source is refused. -/
inductive Cause where
  -- words
  | unexpectedCharacter
  | unterminatedString
  -- grammar
  | expected (what : String)
  | tooManyParameters
  | tooManyArguments
  | invalidTarget
  | missingLeftOperand
  -- scoping
  | alreadyDeclared
  | readInOwnInitializer
  | returnOutsideFunction
  | returnValueFromInitializer
  | breakOutsideLoop
  | inheritsFromItself
  | thisOutsideClass
  | superOutsideClass
  | superWithoutSuperclass
  deriving DecidableEq, Repr, Inhabited

/-- The wording of a cause. -/
def Cause.message : Cause → String
  | unexpectedCharacter => "Unexpected character."
  | unterminatedString => "Unterminated string."
  | expected what => "Expect " ++ what ++ "."
  | tooManyParameters => "Can't have more than 255 parameters."
  | tooManyArguments => "Can't have more than 255 arguments."
  | invalidTarget => "Invalid assignment target."
  | missingLeftOperand => "Missing left-hand operand."
  | alreadyDeclared => "Already a variable with this name in this scope."
  | readInOwnInitializer => "Can't read local variable in its own initializer."
  | returnOutsideFunction => "Can't return from top-level code."
  | returnValueFromInitializer => "Can't return a value from an initializer."
  | breakOutsideLoop => "Can't break outside of a loop."
  | inheritsFromItself => "A class can't inherit from itself."
  | thisOutsideClass => "Can't use 'this' outside of a class."
  | superOutsideClass => "Can't use 'super' outside of a class."
  | superWithoutSuperclass => "Can't use 'super' in a class with no superclass."

/-- How a place is written between the word `Error` and the colon. -/
def Place.text : Place → String
  | line => ""
  | lexeme text => " at '" ++ text ++ "'"
  | atEnd => " at end"

end Fault

/-- A defect of the source, with the line it is reported on. -/
structure Fault where
  line : Nat
  place : Fault.Place
  cause : Fault.Cause
  deriving DecidableEq, Repr, Inhabited

namespace Fault

/-- A fault of a whole line, for text that never became a token. -/
def ofLine (line : Nat) (cause : Cause) : Fault :=
  ⟨line, .line, cause⟩

/-- A fault located at a token. -/
def atToken (token : Token) (cause : Cause) : Fault :=
  ⟨token.line, .lexeme token.lexeme, cause⟩

/-- A fault found where the source ends. -/
def atEnd (line : Nat) (cause : Cause) : Fault :=
  ⟨line, .atEnd, cause⟩

/-- The line that reports a fault. -/
def render (fault : Fault) : String :=
  "[line " ++ toString fault.line ++ "] Error" ++ fault.place.text ++ ": " ++ fault.cause.message

/-- Faults by line; those of one line keep their order. -/
def sortByLine (faults : List Fault) : List Fault :=
  faults.mergeSort (fun a b => a.line ≤ b.line)

end Fault

end Lox
