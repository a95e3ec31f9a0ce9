import EquationSolver.Number.Binary64

/-!
# Decimal digits of a double

The exact value of a finite double rounded to a number of significant decimal
digits or of decimal places, a tie going to the even neighbour, and its written forms:
scientific notation, fixed notation, and the display form, which takes one of them.
-/

namespace EquationSolver

namespace Digits

/-! ### Significant digits -/

def ofNat (n : Nat) : List Char :=
  Nat.toDigits 10 n

/-- The exponent of the leading decimal digit of the positive fraction `num / den`. -/
def leadingExponent (num den : Nat) : Int :=
  if den ≤ num then ((ofNat (num / den)).length : Int) - 1
  else -((ofNat ((den + num - 1) / num - 1)).length : Int)

/-- A decimal `significand * 10 ^ scale`. -/
structure Rounded where
  significand : Nat
  scale : Int
deriving DecidableEq, Repr

/-- The positive fraction `num / den` rounded to `count` significant digits.  A
    significand that rounds up to `10 ^ count` is shortened again. -/
def round (num den count : Nat) : Rounded :=
  let scale := leadingExponent num den - ((count : Int) - 1)
  let significand :=
    if 0 ≤ scale then roundHalfEven num (den * Nat.pow 10 scale.toNat)
    else roundHalfEven (num * Nat.pow 10 (-scale).toNat) den
  if significand = Nat.pow 10 count then ⟨Nat.pow 10 (count - 1), scale + 1⟩
  else ⟨significand, scale⟩

/-! ### Written forms -/

/-- Whole and fractional digits joined by a point, which is left out with an empty
    fraction. -/
def joinPoint (whole fraction : List Char) : List Char :=
  if fraction.isEmpty then whole else whole ++ '.' :: fraction

def signed (bits : UInt64) (text : List Char) : List Char :=
  if Binary64.signBit bits then '-' :: text else text

/-- The mantissa of a nonzero finite double, with one digit before the point and `places`
    digits behind it, and its exponent. -/
def mantissa (bits : UInt64) (places : Nat) : List Char × Int :=
  let (num, den) := Binary64.magnitude bits
  let r := round num den (places + 1)
  let digits := ofNat r.significand
  (signed bits (joinPoint (digits.take 1) (digits.drop 1)), r.scale + places)

/-- A nonzero finite double in scientific notation. -/
def scientific (bits : UInt64) (places : Nat) : String :=
  let (text, exponent) := mantissa bits places
  String.ofList (text ++ 'e' :: (toString exponent).toList)

/-- A finite double with `places` digits behind the point. -/
def fixed (bits : UInt64) (places : Nat) : List Char :=
  let (num, den) := Binary64.magnitude bits
  let digits :=
    (ofNat (roundHalfEven (num * Nat.pow 10 places) den)).leftpad (places + 1) '0'
  let whole := digits.length - places
  signed bits (joinPoint (digits.take whole) (digits.drop whole))

/-! ### The display form -/

def trimEnd (c : Char) (text : List Char) : List Char :=
  (text.reverse.dropWhile (· == c)).reverse

/-- Drop the zeros at the end of a fraction, and the point when nothing is left behind it. -/
def trimFraction (text : List Char) : List Char :=
  if text.contains '.' then trimEnd '.' (trimEnd '0' text) else text

/-- The largest number of significant digits that a double can carry. -/
def maxSignificant : Nat := 17

/-- The smallest decimal exponent of the positional form. -/
def minPositionalExponent : Int := -4

/-- The display form of a nonzero finite double with `count` significant digits.  The
    exponent that scientific notation gives it decides: where the point falls among the
    digits or little before them, the double is rounded again to as many places as are
    left for the fraction. -/
def display (bits : UInt64) (count : Nat) : List Char :=
  let (mantissa, exponent) := mantissa bits (count - 1)
  if exponent < minPositionalExponent ∨ (count : Int) ≤ exponent then
    trimFraction mantissa ++ 'E' :: (toString exponent).toList
  else trimFraction (fixed bits ((count : Int) - 1 - exponent).toNat)

/-- The number of significant digits that are shown when `count` are asked for. -/
def significantCount (count : Nat) : Nat :=
  max 1 (min count maxSignificant)

/-- The display form of a double with `count` significant digits, of which there are
    at least one and at most seventeen.  Zero of either sign is `0`, and what is not
    finite is `undef`. -/
def format (bits : UInt64) (count : Nat) : String :=
  if !Binary64.isFinite bits then "undef"
  else if Binary64.significand bits = 0 then "0"
  else String.ofList (display bits (significantCount count))

end Digits

end EquationSolver
