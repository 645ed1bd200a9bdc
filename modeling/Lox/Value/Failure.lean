/-
Failures: what ends a run.

A failure names the token at which the program went wrong, and why.  Each cause has one
wording, `Cause.message`.
-/
import Lox.Token

namespace Lox

namespace Failure

/-- Why a run ended. -/
inductive Cause where
  | operandNotNumber
  | operandsNotNumbers
  | operandsNotAddable
  | divisionByZero
  | unsupportedOperator
  | notCallable
  | wrongArgumentCount (expected got : Nat)
  | stackOverflow
  | notAnInstanceToRead
  | notAnInstanceToWrite
  | undefinedProperty (name : String)
  | undefinedVariable (name : String)
  | superOutsideClass
  | superNotBound
  | superclassNotClass
  | outputLost (reason : String)
  deriving DecidableEq, Repr, Inhabited

/-- The wording of a cause. -/
def Cause.message : Cause → String
  | operandNotNumber => "Operand must be a number."
  | operandsNotNumbers => "Operands must be numbers."
  | operandsNotAddable => "Operands must be two numbers or at least one string."
  | divisionByZero => "Division by zero."
  | unsupportedOperator => "Unsupported binary operator."
  | notCallable => "Can only call functions and classes."
  | wrongArgumentCount expected got =>
      "Expected " ++ toString expected ++ " arguments but got " ++ toString got ++ "."
  | stackOverflow => "Stack overflow."
  | notAnInstanceToRead => "Only instances have properties."
  | notAnInstanceToWrite => "Only instances have fields."
  | undefinedProperty name => "Undefined property '" ++ name ++ "'."
  | undefinedVariable name => "Undefined variable '" ++ name ++ "'."
  | superOutsideClass => "Can't use 'super' outside of a class."
  | superNotBound => "Superclass is not bound."
  | superclassNotClass => "Superclass must be a class."
  | outputLost reason => "Could not write output: " ++ reason

end Failure

/-- Where and why a run ended. -/
structure Failure where
  token : Token
  cause : Failure.Cause
  deriving DecidableEq, Repr, Inhabited

/-- The two lines that report a failure. -/
def Failure.render (failure : Failure) : String :=
  failure.cause.message ++ "\n[line " ++ toString failure.token.line ++ "]"

end Lox
