set_option autoImplicit false

/-! # Doubles as exact numbers

Every finite double is a whole number of units of 2^-1074, the smallest positive double: its
magnitude is `mantissa · 2^scale` units with a mantissa below 2^53. `parts` takes a double apart,
`nearest` reads a fraction of natural numbers as the double closest to it. Everything is exact
arithmetic on natural numbers. -/

namespace Lox.Number

/-- The number of units in 1. -/
def unitsPerOne : Nat := Nat.pow 2 1074

/-- The leading bit of a mantissa, which is left out of a bit pattern. -/
def leadingBit : Nat := Nat.pow 2 52

/-- An exact magnitude: `mantissa · 2^scale` units. -/
structure Magnitude where
  mantissa : Nat
  scale : Nat
  deriving Repr, DecidableEq

/-- The magnitude as a number of units. -/
def Magnitude.units (v : Magnitude) : Nat := v.mantissa * Nat.pow 2 v.scale

/-- What a double stands for. -/
inductive Parts where
  | nan
  | infinite (negative : Bool)
  | finite (negative : Bool) (magnitude : Magnitude)
  deriving Repr, DecidableEq

/-- Take a double apart by the fields of its bit pattern: sign, 11 bits of scale, 52 bits of
    mantissa, whose leading bit is left out unless the scale field is zero. -/
def parts (x : Float) : Parts :=
  let bits := x.toBits.toNat
  let negative := decide (bits / Nat.pow 2 63 = 1)
  let field := bits / leadingBit % 2048
  let fraction := bits % leadingBit
  if field = 2047 then
    if fraction = 0 then .infinite negative else .nan
  else if field = 0 then .finite negative ⟨fraction, 0⟩
  else .finite negative ⟨leadingBit + fraction, field - 1⟩

/-- The whole part of a magnitude, if nothing is left over. -/
def Magnitude.whole? (v : Magnitude) : Option Nat :=
  if v.units % unitsPerOne = 0 then some (v.units / unitsPerOne) else none

/-! ## The nearest double -/

/-- The quotient rounded to a whole number, a half to the even neighbour. -/
def roundHalfEven (num den : Nat) : Nat :=
  let quotient := num / den
  let rest := num % den
  if 2 * rest < den then quotient
  else if den < 2 * rest then quotient + 1
  else quotient + quotient % 2

/-- The bit pattern of positive infinity. -/
def infinityBits : Nat := 2047 * leadingBit

/-- The bit pattern of the double nearest to `num / den`, of two equally near the one with the
    even mantissa. The scale is the one at which the mantissa has 53 bits, or zero for the smallest
    magnitudes; adding the mantissa to the scale field carries a mantissa rounded up to 2^53 over. -/
def nearestBits (num den : Nat) : Nat :=
  let units := num * unitsPerOne
  let scale := (units / den).log2 - 52
  min (scale * leadingBit + roundHalfEven units (den * Nat.pow 2 scale)) infinityBits

/-- The double nearest to `num / den`; infinity past the largest finite one. -/
def nearest (num den : Nat) : Float := Float.ofBits (nearestBits num den).toUInt64

end Lox.Number
