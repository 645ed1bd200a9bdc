/-
What the operators compute.

Both operands are values by then.  The comma keeps the right one; equality is defined
on all values; plus adds numbers and joins texts, where one text is enough to turn the
other operand into its text as well; everything else is for two numbers.
-/
import Lox.Value.Basic
import Lox.Value.Failure

namespace Lox.Value

variable {ε : Type}

/-- A prefix operator on its operand. -/
def unary (operator : TokenKind) (operand : Value ε) : Except Failure.Cause (Value ε) :=
  match operator, operand with
  | .minus, .number x => .ok (.number (-x))
  | .bang, v => .ok (.bool !v.isTruthy)
  | _, _ => .error .operandNotNumber

/-- The sum of two values. -/
def add (left right : Value ε) : Except Failure.Cause (Value ε) :=
  match left, right with
  | .number x, .number y => .ok (.number (x + y))
  | .string _, _ | _, .string _ => .ok (.string (left.display ++ right.display))
  | _, _ => .error .operandsNotAddable

/-- The operators that take numbers only. -/
def arithmetic (operator : TokenKind) (x y : Float) : Except Failure.Cause (Value ε) :=
  match operator with
  | .minus => .ok (.number (x - y))
  | .star => .ok (.number (x * y))
  | .slash => if y == 0 then .error .divisionByZero else .ok (.number (x / y))
  | .greater => .ok (.bool (x > y))
  | .greaterEqual => .ok (.bool (x ≥ y))
  | .less => .ok (.bool (x < y))
  | .lessEqual => .ok (.bool (x ≤ y))
  | _ => .error .unsupportedOperator

/-- An operator between its operands. -/
def binary (operator : TokenKind) (left right : Value ε) :
    Except Failure.Cause (Value ε) :=
  match operator with
  | .comma => .ok right
  | .equalEqual => .ok (.bool (left.equals right))
  | .plus => add left right
  | _ =>
      match left, right with
      | .number x, .number y => arithmetic operator x y
      | _, _ => .error .operandsNotNumbers

end Lox.Value
