import EquationSolver.Evaluation.ComplexFloat
import EquationSolver.Preferences
import EquationSolver.Term.Basic

/-!
# Values of functions

The functions of terms at a complex double.  Real arguments in the domain of the real
function take its value; all others take that of the complex function.
-/

namespace EquationSolver

def piDouble : Float := Float.ofBits 0x400921FB54442D18

def eDouble : Float := Float.ofBits 0x4005BF0A8B145769

def logTenDouble : Float := Float.ofBits 0x40026BB1BBB55516

def AngleUnit.halfTurn : AngleUnit → Float
  | radian => piDouble
  | degree => 180
  | gradian => 200

/-- The size, relative to the other part, below which a part of a complex number is
    taken for a rounding error. -/
def negligibleRatio : Float := 1e-10

def isNegligible (part reference : Float) : Bool :=
  part.abs ≤ negligibleRatio * (if 1 < reference.abs then reference.abs else 1)

namespace ComplexFloat

/-- A real number with a positive zero as its imaginary part, so that cuts are approached
    from above. -/
def principal (z : ComplexFloat) : ComplexFloat :=
  if z.im == 0 then ⟨z.re, 0⟩ else z

/-- The natural logarithm, undefined at zero. -/
def principalLog (z : ComplexFloat) : ComplexFloat :=
  if z.modulus == 0 then ofReal (0 / 0)
  else if z.im == 0 && 0 < z.re then ofReal z.re.log
  else z.log

end ComplexFloat

open ComplexFloat in
/-- The value of a function at a complex number. -/
def Function.value (f : Function) (z : ComplexFloat) (unit : AngleUnit) : ComplexFloat :=
  let toRadians := piDouble / unit.halfTurn
  let z := z.principal
  let isReal := z.im == 0
  let inRange := isReal && z.re.abs ≤ 1
  match f with
  | sin => (z.scale toRadians).sin
  | cos => (z.scale toRadians).cos
  | tan => (z.scale toRadians).tan
  | asin => if inRange then ofReal (z.re.asin / toRadians) else z.asin.unscale toRadians
  | acos => if inRange then ofReal (z.re.acos / toRadians) else z.acos.unscale toRadians
  | atan => if isReal then ofReal (z.re.atan / toRadians) else z.atan.unscale toRadians
  | ln => z.principalLog
  | log => z.principalLog.unscale logTenDouble
  | abs => ofReal z.modulus
  | cbrt => if isReal then ofReal z.re.cbrt else z.powReal (1 / 3)

end EquationSolver
