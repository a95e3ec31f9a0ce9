import EquationSolver.Number.Rational

/-!
# Decimal literals

A decimal literal such as `12`, `0.125` or `-1.5E-3` denotes a rational exactly:
an optional minus sign, digits with at most one point and at least one digit, and
an optional exponent behind `e` or `E`.
-/

namespace EquationSolver

namespace Literal

def maxExponent : Int64 := 1000

/-- Cut a text at the first character that satisfies `p`, which belongs to neither part. -/
def cutAt (p : Char → Bool) : List Char → List Char × Option (List Char)
  | [] => ([], none)
  | c :: rest =>
    if p c then ([], some rest)
    else
      let (before, after) := cutAt p rest
      (c :: before, after)

def digits? (text : List Char) : Option Nat :=
  if text.isEmpty then none
  else if text.all Char.isDigit then
    some (text.foldl (fun n c => n * 10 + (c.toNat - '0'.toNat)) 0)
  else none

def exponent? (text : List Char) : Option Int64 :=
  let value? : Option Int :=
    match text with
    | '-' :: rest => (digits? rest).map fun n => -(n : Int)
    | '+' :: rest => (digits? rest).map fun n => (n : Int)
    | rest => (digits? rest).map fun n => (n : Int)
  (value?.bind Integer.toInt64Range?).map Int64.ofInt

/-- The digits of an unsigned mantissa together, and how many of them stand
    behind the point. -/
def mantissa? (text : List Char) : Option (Nat × Nat) :=
  let (whole, fraction) := cutAt (· == '.') text
  let fraction := fraction.getD []
  (digits? (whole ++ fraction)).map fun n => (n, fraction.length)

/-- Ten to a power whose exponent is a 64-bit word, of which the low 32 bits of
    the magnitude count. -/
def scaleBy (value : Rat) (scale : Int64) : Rat :=
  if 0 ≤ scale then value * (Nat.pow 10 scale.toUInt64.toUInt32.toNat : Rat)
  else value / (Nat.pow 10 (-scale).toUInt64.toUInt32.toNat : Rat)

/-- The exact value of a decimal literal. -/
def ofChars? (text : List Char) : Option Rat := do
  let (mantissaText, exponentText) := cutAt (fun c => c == 'e' || c == 'E') text
  let exponent ← match exponentText with
    | some digits => exponent? digits
    | none => some 0
  if maxExponent < exponent.abs then none
  else
    let (negative, magnitude) := match mantissaText with
      | '-' :: rest => (true, rest)
      | rest => (false, rest)
    let (digits, places) ← mantissa? magnitude
    let value := scaleBy (digits : Rat) (exponent - Int64.ofNat places)
    some (if negative then -value else value)

def value? (text : String) : Option Rat :=
  ofChars? text.toList

end Literal

end EquationSolver
