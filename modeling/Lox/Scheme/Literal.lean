/-
Names and literals in Scheme.

A Lox name cannot contain a colon, so with the prefix `lox:` it is no name of Scheme's
and none of the prelude's.  Numbers always have a point or an exponent, which makes
them inexact as Lox numbers are.  In a string a backslash stands before each backslash
and each quote.
-/
import Lox.Decimal.Layout
import Lox.Token

namespace Lox.Scheme

/-- The name of a variable, a function, a class or a parameter. -/
def symbol (name : Token) : String :=
  "lox:" ++ name.lexeme

/-- Magnitudes from a ten-thousandth up to below `10^16` are written out in full. -/
def numberLayout : Decimal.Layout where
  positional := some (-4, 16)
  pointed := true
  notANumber := "+nan.0"
  infinity := "+inf.0"
  negativeInfinity := "-inf.0"

/-- The inside of a string literal. -/
def escape : List Char → List Char
  | [] => []
  | c :: rest => if c = '\\' || c = '"' then '\\' :: c :: escape rest else c :: escape rest

/-- A string literal. -/
def quote (text : String) : String :=
  "\"" ++ String.ofList (escape text.toList) ++ "\""

/-- The value of a variable that was given none. -/
def nil : String := "#nil"

/-- A literal. -/
def ofLiteral : Literal → String
  | .nil => nil
  | .bool true => "#t"
  | .bool false => "#f"
  | .number value => numberLayout.render value
  | .string text => quote text

end Lox.Scheme
