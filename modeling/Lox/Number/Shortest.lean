import Lox.Number.Binary

set_option autoImplicit false

/-! # The shortest decimal of a double

A decimal denotes a double if it lies in the double's rounding interval: the numbers nearer to it
than to any other double, both ends included when its mantissa is even. `shortest` gives the
decimal with the fewest digits that denotes a magnitude, and of those the nearest to it; it tries
ever finer decimal grids, on each the two neighbours of the magnitude. -/

namespace Lox.Number

/-- The number `digits · 10^exponent`. -/
structure Decimal where
  digits : Nat
  exponent : Int
  deriving Repr, DecidableEq

/-- The two natural numbers whose quotient is `10^exponent`. -/
def powerOfTen (exponent : Int) : Nat × Nat :=
  (Nat.pow 10 exponent.toNat, Nat.pow 10 (-exponent).toNat)

/-! ## The rounding interval -/

/-- The lower end of the rounding interval, in quarters of a unit. Below a power of two the
    neighbour is only half as far away. -/
def Magnitude.low (v : Magnitude) : Nat :=
  if v.mantissa = leadingBit ∧ v.scale ≠ 0 then (4 * v.mantissa - 1) * Nat.pow 2 v.scale
  else (4 * v.mantissa - 2) * Nat.pow 2 v.scale

/-- The upper end of the rounding interval, in quarters of a unit. -/
def Magnitude.high (v : Magnitude) : Nat := (4 * v.mantissa + 2) * Nat.pow 2 v.scale

/-- Whether a decimal lies in the rounding interval of a magnitude. -/
def Magnitude.holds (v : Magnitude) (d : Decimal) : Bool :=
  let (num, den) := powerOfTen d.exponent
  let point := 4 * d.digits * num * unitsPerOne
  if v.mantissa % 2 = 0 then v.low * den ≤ point ∧ point ≤ v.high * den
  else v.low * den < point ∧ point < v.high * den

/-! ## The search -/

/-- Which of two equally near decimals is taken. -/
inductive Tie where
  | up
  | even
  deriving Repr, DecidableEq

/-- The nearer of the two neighbours of a magnitude on the grid of step `10^exponent`, given the
    quotient and the remainder of the magnitude by the step. -/
def nearer (tie : Tie) (exponent : Int) (quotient rest den : Nat) : Decimal :=
  if 2 * rest < den then ⟨quotient, exponent⟩
  else if den < 2 * rest then ⟨quotient + 1, exponent⟩
  else match tie with
    | .up => ⟨quotient + 1, exponent⟩
    | .even => ⟨quotient + quotient % 2, exponent⟩

/-- The best decimal of a grid that denotes the magnitude, if there is one. -/
def Magnitude.onGrid? (tie : Tie) (v : Magnitude) (exponent : Int) : Option Decimal :=
  let (num, den) := powerOfTen exponent
  let point := v.units * den
  let step := unitsPerOne * num
  let below : Decimal := ⟨point / step, exponent⟩
  let above : Decimal := ⟨point / step + 1, exponent⟩
  match v.holds below, v.holds above with
  | true, true => some (nearer tie exponent (point / step) (point % step) step)
  | true, false => some below
  | false, true => some above
  | false, false => none

/-- All digits of a magnitude: one unit is `5^1074 / 10^1074`. -/
def Magnitude.exact (v : Magnitude) : Decimal := ⟨v.units * Nat.pow 5 1074, -1074⟩

/-- Try ever finer grids, at last all digits. -/
def Magnitude.search (tie : Tie) (v : Magnitude) : Nat → Int → Decimal
  | 0, _ => v.exact
  | grids + 1, exponent =>
    match v.onGrid? tie exponent with
    | some d => d
    | none => v.search tie grids (exponent - 1)

/-- The exponent of a grid too coarse for the magnitude: 0.30103 is just above the common logarithm
    of 2. -/
def Magnitude.coarse (v : Magnitude) : Int :=
  ((v.units.log2 : Int) - 1073) * 30103 / 100000 + 1

/-- The shortest decimal that denotes a magnitude, and the nearest of these. Seventeen digits
    always suffice. -/
def Magnitude.shortest (tie : Tie) (v : Magnitude) : Decimal :=
  if v.mantissa = 0 then ⟨0, 0⟩ else v.search tie 20 v.coarse

end Lox.Number
