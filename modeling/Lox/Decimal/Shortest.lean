/-
The shortest decimal that reads back as a given double.

A finite double is `m · 2^q`.  The reals that round to it form an interval around it:
half a step to either side, but only a quarter of that step's double below a power of
two, where the doubles are twice as dense; the ends belong to it exactly if `m` is
even, because ties round to even.  Multiplied by four, all of that is integral.

A decimal with few digits is a point of a coarse grid, the multiples of `10^p` for a
large `p`.  If a grid has a point in the interval, one of the two grid points next to
the value lies in it, so it is enough to try those two, from the coarsest grid that can
matter down to the first that has a hit.  Of two hits the nearer one wins, and of two
equally near ones the larger.
-/

namespace Lox.Decimal

/-- A finite double's magnitude, `mantissa · 2^exponent`. -/
structure Binary where
  mantissa : Nat
  exponent : Int
  /-- The next smaller double is half a step away. -/
  denseBelow : Bool
  deriving DecidableEq, Repr

/-- A decimal magnitude, `digits · 10^exponent`. -/
structure Magnitude where
  digits : Nat
  exponent : Int
  deriving DecidableEq, Repr, Inhabited

/-- What the bits of a double say, apart from its sign. -/
inductive Shape where
  | finite (magnitude : Binary)
  | infinite
  | notANumber
  deriving DecidableEq, Repr

/-- The sign bit of a double, which zero and the values that are no number have too. -/
def isNegative (x : Float) : Bool :=
  x.toBits.toNat / Nat.pow 2 63 = 1

/-- Takes the bits of a double apart. -/
def shape (x : Float) : Shape :=
  let bits := x.toBits.toNat
  let biased : Nat := bits / Nat.pow 2 52 % Nat.pow 2 11
  let fraction := bits % Nat.pow 2 52
  if biased = Nat.pow 2 11 - 1 then
    if fraction = 0 then .infinite else .notANumber
  else if biased = 0 then .finite ⟨fraction, -1074, false⟩
  else .finite ⟨fraction + Nat.pow 2 52, (biased : Int) - 1075, fraction = 0 && biased > 1⟩

/-! ### Trying a grid -/

/-- Whether `point / scale` lies in the interval of reals that round to `x`, where
`quarter` stands for a quarter of a step of `x`, in units of `1 / scale`. -/
def Binary.covers (x : Binary) (quarter point : Nat) : Bool :=
  let down := if x.denseBelow then 1 else 2
  let low := (4 * x.mantissa - down) * quarter
  let high := (4 * x.mantissa + 2) * quarter
  if x.mantissa % 2 = 0 then low ≤ point && point ≤ high
  else low < point && point < high

/-- The multiple of `10^p` that reads back as `x` and is nearest to it, if there is one. -/
def Binary.onGrid? (x : Binary) (p : Int) : Option Magnitude :=
  -- Both sides are multiplied by the powers of two and ten that make them integral.
  let step := Nat.pow 10 p.toNat * Nat.pow 2 (2 - x.exponent).toNat
  let quarter := Nat.pow 2 (x.exponent - 2).toNat * Nat.pow 10 (-p).toNat
  let value := 4 * x.mantissa * quarter
  let below := value / step
  let above := below + 1
  match x.covers quarter (below * step), x.covers quarter (above * step) with
  | true, true =>
      if value - below * step < above * step - value then some ⟨below, p⟩ else some ⟨above, p⟩
  | true, false => some ⟨below, p⟩
  | false, true => some ⟨above, p⟩
  | false, false => none

/-- The first hit on the grids of `10^p`, `10^(p - 1)`, and so on. -/
def Binary.search (x : Binary) : Nat → Int → Option Magnitude
  | 0, _ => none
  | tries + 1, p =>
      match x.onGrid? p with
      | some hit => some hit
      | none => x.search tries (p - 1)

/-- A power of ten that is larger than `x`: `30103 / 100000` is just over `log₁₀ 2`. -/
def Binary.coarsest (x : Binary) : Int :=
  (Int.fdiv ((Nat.log2 x.mantissa + x.exponent) * 30103) 100000) + 2

/-- The fewest digits that read back as `x`, the nearest such decimal.  Seventeen digits
are always enough, and the search starts at most two powers above the first of them. -/
def Binary.shortest (x : Binary) : Magnitude :=
  if x.mantissa = 0 then ⟨0, 0⟩
  else (x.search 20 x.coarsest).getD ⟨x.mantissa, 0⟩

end Lox.Decimal
