import EquationSolver.Fault
import EquationSolver.Number.Root

/-!
# Integer operations with a limited domain

The arithmetic of integers is that of the standard library; this module holds the
operations that refuse some of their arguments, each with the fault that names the
refusal, and the conversions to 64-bit ranges.
-/

namespace EquationSolver

namespace Integer

/-- The quotient of two integers, cut off toward zero. -/
def quotient (a b : Int) : Except Fault Int :=
  if b = 0 then .error .integerDivisionByZero else .ok (a.tdiv b)

/-- The remainder of two integers, which has the sign of the dividend. -/
def remainder (a b : Int) : Except Fault Int :=
  if b = 0 then .error .integerDivisionByZero else .ok (a.tmod b)

def commonDivisor (a b : Int) : Except Fault Nat :=
  if a = 0 ∧ b = 0 then .error .commonDivisorOfZeros else .ok (a.gcd b)

/-- The floor of the `n`-th root; the sign is looked at before the index. -/
def rootFloor (a : Int) (n : Nat) : Except Fault Int :=
  if a < 0 then .error .rootOfNegative
  else if n = 0 then .error .zerothRoot
  else .ok (floorRoot a.natAbs n)

/-- The non-negative `n`-th root of a perfect `n`-th power; a negative integer has none. -/
def exactRoot (a : Int) (n : Nat) : Except Fault (Option Int) :=
  if a < 0 then .ok none
  else if n = 0 then .error .zerothRoot
  else .ok ((exactRoot? a.natAbs n).map fun r => (r : Int))

def wordCount : Nat := 0x10000000000000000

def halfWordCount : Nat := 0x100000000

def maxSigned : Int := 0x7FFFFFFFFFFFFFFF

def minSigned : Int := -0x8000000000000000

def toInt64Range? (a : Int) : Option Int :=
  if minSigned ≤ a ∧ a ≤ maxSigned then some a else none

/-- The signed 64-bit integer that an integer is, or else the one that differs from it by a
    multiple of the number of words. -/
def wrapSigned (a : Int) : Int :=
  if minSigned ≤ a ∧ a ≤ maxSigned then a else a.bmod wordCount

def clampSigned (a : Int) : Int :=
  max minSigned (min maxSigned a)

def toUInt64Range? (a : Int) : Option Nat :=
  if 0 ≤ a ∧ a < wordCount then some a.toNat else none

end Integer

end EquationSolver
