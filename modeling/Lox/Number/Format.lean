import Lox.Number.Shortest

set_option autoImplicit false

/-! # How numbers are written

A number is written in one of four ways: as a printed value, in a printed syntax tree, as the
literal of a token, and in a document. All but the last write a whole number with all its digits
and any other number by its shortest decimal, without an exponent; they differ in what follows a
whole number, up to which size, and in the sign of zero. -/

namespace Lox.Number

/-! ## Digits -/

/-- The decimal digits of a natural number, `0` for zero. -/
def digitText (n : Nat) : List Char := Nat.toDigits 10 n

/-- A decimal without an exponent: zeros are put behind the digits or between the point and the
    digits where needed. -/
def Decimal.positional (d : Decimal) : List Char :=
  let digits := digitText d.digits
  if 0 ≤ d.exponent then digits ++ List.replicate d.exponent.toNat '0'
  else
    let places := (-d.exponent).toNat
    let padded := List.replicate (places + 1 - digits.length) '0' ++ digits
    padded.take (padded.length - places) ++ '.' :: padded.drop (padded.length - places)

/-- The sign in front of a negative number. -/
def sign (negative : Bool) : List Char := if negative then ['-'] else []

/-! ## Values, trees and literals -/

/-- How whole numbers are written. All other numbers are written by their shortest decimal. -/
structure Format where
  /-- Whole numbers below this bound are written with all their digits; no bound means all. -/
  bound : Option Nat
  /-- What follows a whole number. -/
  suffix : String
  /-- Whether a negative zero keeps its sign. -/
  signedZero : Bool

/-- Whether a whole number is written with all its digits. -/
def Format.admits (format : Format) (n : Nat) : Bool :=
  match format.bound with
  | none => true
  | some bound => n < bound

/-- The text of a number. -/
def Format.write (format : Format) (x : Float) : String :=
  match parts x with
  | .nan => "NaN"
  | .infinite negative => String.ofList (sign negative ++ "inf".toList)
  | .finite negative v =>
    match v.whole?.filter format.admits with
    | some n =>
      String.ofList (sign (negative && (format.signedZero || n != 0)) ++ digitText n) ++ format.suffix
    | none => String.ofList (sign negative ++ (v.shortest .up).positional)

/-- A printed value: whole numbers look like integers. -/
def printed : Format := ⟨none, "", true⟩

/-- A number in a printed syntax tree: whole numbers end in `.0`. -/
def inTree : Format := ⟨none, ".0", true⟩

/-- The literal of a token: whole numbers of at most 63 bits end in `.0`, and zero has no sign. -/
def literal : Format := ⟨some (Nat.pow 2 63), ".0", false⟩

/-- The shortest decimal alone. -/
def plain : Format := ⟨some 0, "", true⟩

/-! ## Documents -/

/-- How a document writes the exponent of a number in scientific form: always with its sign. -/
def exponentText (e : Int) : List Char :=
  'e' :: (if e < 0 then '-' else '+') :: digitText e.natAbs

/-- A finite number in a document: positional while the leading digit stands for `10^-5` up to
    `10^15`, with `.0` behind a whole number; scientific otherwise. -/
def Decimal.inDocument (d : Decimal) : List Char :=
  let digits := digitText d.digits
  let lead := d.exponent + (digits.length : Int) - 1
  if d.digits = 0 ∨ (-5 ≤ lead ∧ lead ≤ 15) then
    if 0 ≤ d.exponent then d.positional ++ ['.', '0'] else d.positional
  else
    let fraction := if digits.length ≤ 1 then [] else '.' :: digits.drop 1
    digits.take 1 ++ fraction ++ exponentText lead

/-- The text of a number in a document; `none` for infinities and NaN, which have none. -/
def inDocument? (x : Float) : Option String :=
  match parts x with
  | .finite negative v => some (String.ofList (sign negative ++ (v.shortest .even).inDocument))
  | _ => none

end Lox.Number
