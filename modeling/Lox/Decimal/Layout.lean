/-
How a number is laid out as text.

The digits are always the fewest that read back.  What differs between one notation
and another is gathered in a `Layout`: which magnitudes are written out in full and
which with an exponent, whether a whole number keeps a point, and the words for the
values that have no digits.
-/
import Lox.Decimal.Shortest

namespace Lox.Decimal

/-- The decisions of a notation for numbers. -/
structure Layout where
  /-- The exponents of the leading digit, from the first up to but not including the
  second, that are written without an exponent; without bounds, all are. -/
  positional : Option (Int × Int)
  /-- Whether a whole number is written with a point and a zero. -/
  pointed : Bool
  notANumber : String
  infinity : String
  negativeInfinity : String

/-- The decimal digits of a number, the leading one first. -/
def digitsOf (n : Nat) : List Char :=
  Nat.toDigits 10 n

/-- The whole and the fractional part of a magnitude, written out in full. -/
def Magnitude.parts (x : Magnitude) : List Char × List Char :=
  let digits := digitsOf x.digits
  let places := (-x.exponent).toNat
  if digits.length ≤ places then
    (['0'], List.replicate (places - digits.length) '0' ++ digits)
  else
    let whole := digits ++ List.replicate x.exponent.toNat '0'
    (whole.take (whole.length - places), whole.drop (whole.length - places))

/-- The power of ten of the leading digit. -/
def Magnitude.leading (x : Magnitude) : Int :=
  x.exponent + (digitsOf x.digits).length - 1

/-- A magnitude written out in full. -/
def Magnitude.inFull (pointed : Bool) (x : Magnitude) : List Char :=
  let (whole, fraction) := x.parts
  match fraction with
  | [] => if pointed then whole ++ ['.', '0'] else whole
  | _ => whole ++ '.' :: fraction

/-- A magnitude with one digit in front of the point and an exponent behind. -/
def Magnitude.withExponent (x : Magnitude) : List Char :=
  let mantissa :=
    match digitsOf x.digits with
    | [] => []
    | [d] => [d]
    | d :: rest => d :: '.' :: rest
  let exponent :=
    if x.leading < 0 then '-' :: digitsOf (-x.leading).toNat else digitsOf x.leading.toNat
  mantissa ++ 'e' :: exponent

/-- A magnitude as a notation has it. -/
def Layout.magnitude (layout : Layout) (x : Magnitude) : List Char :=
  match layout.positional with
  | none => x.inFull layout.pointed
  | some (low, high) =>
      if x.digits = 0 || (low ≤ x.leading && x.leading < high) then x.inFull layout.pointed
      else x.withExponent

/-- A number as a notation has it; a negative zero keeps its sign. -/
def Layout.render (layout : Layout) (x : Float) : String :=
  match shape x with
  | .notANumber => layout.notANumber
  | .infinite => if isNegative x then layout.negativeInfinity else layout.infinity
  | .finite binary =>
      let text := layout.magnitude binary.shortest
      String.ofList (if isNegative x then '-' :: text else text)

end Lox.Decimal
