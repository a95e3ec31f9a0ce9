/-!
# Numerals

Integers written in a radix from 2 to 36: an optional sign, then digits, among
which underscores may stand anywhere and count for nothing.
-/

namespace EquationSolver

/-- Why a text is not an integer in the radix asked for. -/
inductive NumeralError where
  | unsupportedRadix
  | noDigits
  | invalidDigit
deriving DecidableEq, Repr

def NumeralError.message : NumeralError → String
  | .unsupportedRadix => "unsupported radix"
  | .noDigits => "no digits"
  | .invalidDigit => "invalid digit"

namespace Numeral

/-- The value of a digit: decimal digits, then letters of either case from ten on. -/
def digitValue? (c : Char) : Option Nat :=
  if '0' ≤ c ∧ c ≤ '9' then some (c.toNat - '0'.toNat)
  else if 'a' ≤ c ∧ c ≤ 'z' then some (c.toNat - 'a'.toNat + 10)
  else if 'A' ≤ c ∧ c ≤ 'Z' then some (c.toNat - 'A'.toNat + 10)
  else none

def digitIn? (radix : Nat) (c : Char) : Option Nat :=
  (digitValue? c).filter (· < radix)

/-- Read digits after `value`, most significant first; underscores are skipped. -/
def readDigits (radix value : Nat) : List Char → Option Nat
  | [] => some value
  | '_' :: rest => readDigits radix value rest
  | c :: rest =>
    match digitIn? radix c with
    | some d => readDigits radix (value * radix + d) rest
    | none => none

/-- Read an unsigned numeral, which has at least one character. -/
def readMagnitude (radix : Nat) : List Char → Except NumeralError Nat
  | [] => .error .noDigits
  | digits =>
    match readDigits radix 0 digits with
    | some n => .ok n
    | none => .error .invalidDigit

def readSigned (radix : Nat) : List Char → Except NumeralError Int
  | '-' :: rest => (readMagnitude radix rest).map fun n => -(n : Int)
  | '+' :: rest => (readMagnitude radix rest).map fun n => (n : Int)
  | text => (readMagnitude radix text).map fun n => (n : Int)

/-- Read an integer in a radix; the radix is looked at before the text. -/
def read (text : String) (radix : Nat) : Except NumeralError Int :=
  if radix < 2 ∨ 36 < radix then .error .unsupportedRadix else readSigned radix text.toList

end Numeral

end EquationSolver
