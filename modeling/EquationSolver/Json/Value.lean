import EquationSolver.Number.Binary64
import EquationSolver.Number.Integer

/-!
# JSON values

Values as a JSON text writes them.  A number keeps its digits and a string its escapes, so
that what they denote can be asked for: a string may hold half of a surrogate pair and then
denotes no text, a number may lie beyond the doubles.
-/

namespace EquationSolver

/-! ### Strings -/

/-- A character of a string, as it stands or by the code of an escape. -/
inductive JsonUnit where
  | character (c : Char)
  | escape (code : Nat)
deriving DecidableEq, Repr

abbrev JsonString := List JsonUnit

namespace JsonString

def isHighSurrogate (code : Nat) : Bool := 0xD800 ≤ code && code < 0xDC00

def isLowSurrogate (code : Nat) : Bool := 0xDC00 ≤ code && code < 0xE000

def pairedCharacter (high low : Nat) : Char :=
  Char.ofNat (0x10000 + (high - 0xD800) * 0x400 + (low - 0xDC00))

/-- The characters that a string denotes; none with half of a surrogate pair. -/
def characters? : JsonString → Option (List Char)
  | [] => some []
  | .character c :: rest => (characters? rest).map (c :: ·)
  | .escape high :: .escape low :: rest =>
    if isHighSurrogate high then
      if isLowSurrogate low then (characters? rest).map (pairedCharacter high low :: ·)
      else none
    else if isLowSurrogate high then none
    else (characters? (.escape low :: rest)).map (Char.ofNat high :: ·)
  | .escape code :: rest =>
    if isHighSurrogate code || isLowSurrogate code then none
    else (characters? rest).map (Char.ofNat code :: ·)

def text? (s : JsonString) : Option String :=
  (characters? s).map String.ofList

end JsonString

/-! ### Numbers -/

/-- A number by its digits. -/
structure JsonNumber where
  isNegative : Bool
  whole : List Nat
  fraction : Option (List Nat) := none
  /-- The sign and the digits of the exponent. -/
  exponent : Option (Bool × List Nat) := none
deriving DecidableEq, Repr

namespace JsonNumber

def ofDigits (digits : List Nat) : Nat :=
  digits.foldl (fun n d => 10 * n + d) 0

def isInteger (n : JsonNumber) : Bool :=
  n.fraction.isNone && n.exponent.isNone

/-- The natural number of 64 bits that a number written as one denotes. -/
def toNat? (n : JsonNumber) : Option Nat :=
  let value := ofDigits n.whole
  if n.isInteger && !n.isNegative && value < Integer.wordCount then some value else none

/-- The leading digits of a number that fit 64 bits, and how many are left over. -/
def leading (found : Nat) : List Nat → Nat × Nat
  | [] => (found, 0)
  | d :: rest =>
    if 10 * found + d < Integer.wordCount then leading (10 * found + d) rest
    else (found, rest.length + 1)

/-- The significand of a number in 64 bits, and the power of ten that it is taken times. -/
def scientific (n : JsonNumber) : Nat × Int :=
  let fraction := n.fraction.getD []
  let (whole, dropped) := leading 0 n.whole
  let (significand, unread) := if dropped = 0 then leading whole fraction else
    (whole, fraction.length)
  let shift : Int := match n.exponent with
    | none => 0
    | some (isNegative, digits) => if isNegative then -(ofDigits digits : Int) else ofDigits digits
  (significand, dropped - (fraction.length - unread : Nat) + shift)

def maxPower : Nat := 308

/-- A double divided by a power of ten, in steps that keep the divisor finite. -/
def divideByPower (x : Float) (power : Nat) : Float :=
  if power ≤ maxPower then x / Binary64.nearest (Nat.pow 10 power)
  else if x == 0 then x
  else divideByPower (x / Binary64.nearest (Nat.pow 10 maxPower)) (power - maxPower)
termination_by power
decreasing_by have : 0 < maxPower := by decide
              omega

/-- A double times a power of ten, unless that is infinite. -/
def multiplyByPower? (x : Float) (power : Nat) : Option Float :=
  if power ≤ maxPower then
    let product := x * Binary64.nearest (Nat.pow 10 power)
    if product.isInf then none else some product
  else if x == 0 then some x
  else none

/-- The double that a number denotes; none beyond the finite doubles. -/
def toDouble? (n : JsonNumber) : Option Float :=
  let (significand, power) := n.scientific
  let x := Binary64.nearest (significand : Rat)
  let magnitude? :=
    if 0 ≤ power then multiplyByPower? x power.toNat
    else some (divideByPower x (-power).toNat)
  magnitude?.map fun x => if n.isNegative then -x else x

end JsonNumber

/-! ### Values -/

inductive JsonValue where
  | null
  | bool (b : Bool)
  | number (n : JsonNumber)
  | string (s : JsonString)
  | array (items : List JsonValue)
  | object (members : List (JsonString × JsonValue))
deriving Repr

end EquationSolver
