/-
The levels of the expression grammar.

Expressions are stratified: each level is made of expressions of the next tighter one.
Most levels are rows of operands joined by left-associative operators and differ only
in which operators those are, so they are told apart by a table and read by one rule.
-/
import Lox.Token

namespace Lox.Grammar

/-- The levels, the loosest first. -/
inductive Level where
  | comma | assignment | conditional | or | and | equality | comparison | term | factor
  | unary | call | primary
  deriving DecidableEq, Repr, Inhabited

namespace Level

/-- The next tighter level; a primary expression is made of loose ones again, but only
between parentheses. -/
def tighter : Level → Level
  | comma => assignment
  | assignment => conditional
  | conditional => or
  | or => and
  | and => equality
  | equality => comparison
  | comparison => term
  | term => factor
  | factor => unary
  | unary => call
  | call => primary
  | primary => primary

/-- The operators that join the operands of a level from left to right. -/
def operators : Level → List TokenKind
  | comma => [.comma]
  | or => [.kwOr]
  | and => [.kwAnd]
  | equality => [.bangEqual, .equalEqual]
  | comparison => [.greater, .greaterEqual, .less, .lessEqual]
  | term => [.minus, .plus]
  | factor => [.slash, .star]
  | assignment | conditional | unary | call | primary => []

/-- The level of an operator that stands where an operand should: that of the operator,
except for the minus, which may start an operand. -/
def ofOrphan? (kind : TokenKind) : Option Level :=
  if kind = .minus then none
  else [equality, comparison, term, factor].find? (fun level => level.operators.contains kind)

end Level

end Lox.Grammar
