import EquationSolver.Preferences
import EquationSolver.Number.Binary64

/-!
# Settings of a reduction

What a reduction reads besides the expression: the formats, what the result is for, what
happens to defined symbols, and the limits that keep the result from growing without
bound.
-/

namespace EquationSolver

inductive ReductionTarget where
  /-- Products of sums are multiplied out, so that coefficients can be read off. -/
  | analysis
  /-- Products of sums are left alone, which makes the result cheaper to evaluate. -/
  | approximation
  /-- Products of sums are multiplied out for display. -/
  | user
deriving DecidableEq, Repr

inductive SymbolPolicy where
  | replaceDefined
  | keepAll
deriving DecidableEq, Repr

/-- The policy for a solve that either takes defined symbols as unknowns or does not. -/
def SymbolPolicy.ofOverride (keepsDefined : Bool) : SymbolPolicy :=
  if keepsDefined then .keepAll else .replaceDefined

namespace Reduction

structure Limits where
  /-- The largest number of terms that a product of sums is multiplied out to. -/
  maxExpandedTerms : Nat := 256
  /-- The largest power of a sum that is multiplied out. -/
  maxExpansionPower : Int := 8
  /-- The largest number of binary digits of an exact power. -/
  maxExponentBits : Float := 4096
  /-- The largest index of a root that is drawn exactly. -/
  maxRootIndex : Nat := 64
deriving DecidableEq, Repr

structure Settings where
  complexFormat : ComplexFormat := .real
  angleUnit : AngleUnit := .radian
  unitFormat : UnitFormat := .metric
  target : ReductionTarget := .user
  symbols : SymbolPolicy := .replaceDefined
  limits : Limits := {}
deriving DecidableEq, Repr

namespace Settings

def ofPreferences (preferences : Preferences) (target : ReductionTarget) : Settings :=
  { complexFormat := preferences.complexFormat
    angleUnit := preferences.angleUnit
    unitFormat := preferences.unitFormat
    target }

def expands (s : Settings) : Bool :=
  s.target ≠ .approximation

/-- The number of binary digits of a rational: the larger of those of its numerator and
    its denominator, and at least one.  It is infinite beyond the finite doubles. -/
def magnitudeBits (a : Rat) : Float :=
  let digits (n : Nat) : Float :=
    match Binary64.roundToDouble? n with
    | some rounded => Binary64.logarithm rounded
    | none => 1 / 0
  let larger (x y : Float) := if x < y then y else x
  larger (larger (digits a.num.natAbs) (digits a.den)) 1

/-- The size test of exact powers: the digits of the base times the exponent stay
    within the limit. -/
def fits (s : Settings) (base : Rat) (exponent : Nat) : Bool :=
  magnitudeBits base * Binary64.nearest (exponent : Rat) ≤ s.limits.maxExponentBits

end Settings

end Reduction

end EquationSolver
