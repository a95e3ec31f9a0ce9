import EquationSolver.Number.Integer

/-!
# Rational operations with a limited domain

Rationals are those of the standard library: in lowest terms, with a positive
denominator.  This module holds the operations that refuse some of their
arguments, and the text of a rational.
-/

namespace EquationSolver

namespace Rational

/-- The fraction `a / b` in lowest terms; the sign goes to the numerator. -/
def ofFraction (a b : Int) : Except Fault Rat :=
  if b = 0 then .error .zeroDenominator else .ok ((a : Rat) / (b : Rat))

def quotient (a b : Rat) : Except Fault Rat :=
  if b = 0 then .error .rationalDivisionByZero else .ok (a / b)

def reciprocal (a : Rat) : Except Fault Rat :=
  if a = 0 then .error .reciprocalOfZero else .ok a⁻¹

/-- An integer power.  There is none for a negative power of zero, nor for an
    exponent whose magnitude does not fit in 32 bits. -/
def integerPower? (a : Rat) (n : Int) : Option Rat :=
  if Integer.halfWordCount ≤ n.natAbs then none
  else if 0 ≤ n then some (Rat.pow a n.natAbs)
  else if a = 0 then none
  else some (Rat.pow a⁻¹ n.natAbs)

def toInt? (a : Rat) : Option Int :=
  if a.den = 1 then some a.num else none

def toInt64Range? (a : Rat) : Option Int :=
  (toInt? a).bind Integer.toInt64Range?

/-- The text of a rational: the numerator, and the denominator behind a slash
    unless it is one. -/
def text (a : Rat) : String :=
  if a.den = 1 then toString a.num else toString a.num ++ "/" ++ toString a.den

end Rational

end EquationSolver
