/-
Reading a decimal.

A number literal is a run of digits with at most one point among them, so it denotes
the integer its digits spell, divided by ten once for every digit behind the point.
`read` rounds that rational to the nearest double, ties to even; a literal too large
for a double reads as infinity.
-/

namespace Lox.Decimal

/-- The integer that a run of decimal digits spells. -/
def natOfDigits (digits : List Char) : Nat :=
  digits.foldl (fun n c => 10 * n + (c.toNat - '0'.toNat)) 0

/-- The double nearest to the decimal `whole.fraction` (or `whole`). -/
def read (text : List Char) : Float :=
  let whole := text.takeWhile (· ≠ '.')
  let fraction := (text.dropWhile (· ≠ '.')).tail
  Float.ofScientific (natOfDigits (whole ++ fraction)) true fraction.length

theorem natOfDigits_append (a b : List Char) :
    natOfDigits (a ++ b)
      = b.foldl (fun n c => 10 * n + (c.toNat - '0'.toNat)) (natOfDigits a) := by
  simp [natOfDigits]

end Lox.Decimal
