import EquationSolver.Reduction.Power
import EquationSolver.Evaluation.Function

/-!
# Functions in standard form

Functions have exact values at a few exact arguments: the trigonometric functions at
multiples of 30 and 45 degrees in any unit, their inverses at the values taken there,
logarithms at one, at `e` and at powers of ten, absolute values and cube roots at all
numbers.  Approximate arguments are evaluated.
-/

namespace EquationSolver

namespace Reduction

/-! ### Angles -/

def halfTurns? (unit : AngleUnit) (angle : Term) : Option Rat :=
  match unit with
  | .radian =>
    match angle with
    | .number a => if a = 0 then some 0 else none
    | .constant .pi => some 1
    | .product [.number a, .constant .pi] => some a
    | _ => none
  | .degree => angle.rational?.map (· / 180)
  | .gradian => angle.rational?.map (· / 200)

/-- The place of an exact angle on the circle in steps of fifteen degrees, of which there
    are twenty-four. -/
def circleStep? (unit : AngleUnit) (angle : Term) : Option Int :=
  (halfTurns? unit angle).bind fun turns => (Rational.toInt? (turns * 12)).map (· % 24)

/-- The sine of the steps up to a quarter turn that have a short closed form. -/
def firstQuarterSine? (s : Settings) (step : Int) : Option (Build Term) :=
  let halfRoot (radicand : Rat) : Build Term := do
    let radicandTerm ← Build.number radicand
    let exponent ← Build.number (1 / 2)
    let root ← pow s radicandTerm exponent
    let half ← Build.number (1 / 2)
    mul s [half, root]
  if step = 0 then some (Build.make .zero)
  else if step = 2 then some (Build.number (1 / 2))
  else if step = 3 then some (halfRoot 2)
  else if step = 4 then some (halfRoot 3)
  else if step = 6 then some (Build.make .one)
  else none

def exactSine? (s : Settings) (step : Int) : Option (Build Term) :=
  let isNegative := 12 ≤ step
  let upper := if isNegative then step - 12 else step
  let folded := if 6 < upper then 12 - upper else upper
  (firstQuarterSine? s folded).map fun sine => do
    let value ← sine
    if isNegative then
      let minusOne ← Build.number (-1)
      mul s [minusOne, value]
    else pure value

/-- The cosine of a step: the sine a quarter turn further on. -/
def exactCosine? (s : Settings) (step : Int) : Option (Build Term) :=
  exactSine? s ((step + 6) % 24)

/-- The tangent of a step: the sine over the cosine, undefined where the cosine is zero. -/
def exactTangent? (s : Settings) (step : Int) : Option (Build Term) :=
  match exactSine? s step, exactCosine? s step with
  | some sine, some cosine => some do
    let sine ← sine
    let cosine ← cosine
    if cosine.isZero then Build.make .undefined
    else
      let minusOne ← Build.number (-1)
      let inverse ← pow s cosine minusOne
      mul s [sine, inverse]
  | _, _ => none

def angle (s : Settings) (halfTurns : Rat) : Build Term :=
  match s.angleUnit with
  | .radian => do
    let coefficient ← Build.number halfTurns
    let pi ← Build.make (.constant .pi)
    mul s [coefficient, pi]
  | .degree => Build.number (halfTurns * 180)
  | .gradian => Build.number (halfTurns * 200)

def arcsine? (x : Rat) : Option Rat :=
  if x = 0 then some 0
  else if x = 1 / 2 then some (1 / 6)
  else if x = -1 / 2 then some (-1 / 6)
  else if x = 1 then some (1 / 2)
  else if x = -1 then some (-1 / 2)
  else none

def arctangent? (x : Rat) : Option Rat :=
  if x = 0 then some 0
  else if x = 1 then some (1 / 4)
  else if x = -1 then some (-1 / 4)
  else none

/-- Exact values of the inverse functions.  Sine and cosine have no real arguments for
    values beyond one. -/
def exactInverse? (s : Settings) (f : Function) (argument : Term) : Option (Build Term) :=
  match argument with
  | .number x =>
    if f ≠ .atan ∧ 1 < x.abs then
      if s.complexFormat = .real then some (Build.make .nonreal) else none
    else
      let halfTurns? :=
        match f with
        | .asin => arcsine? x
        | .acos => (arcsine? x).map (1 / 2 - ·)
        | _ => arctangent? x
      halfTurns?.map (angle s)
  | _ => none

/-! ### Logarithms, absolute values and roots -/

def maxDecimalLogarithm : Nat := 400

/-- The exponent `k` with `n = 10 ^ k`, if there is one up to `limit`. -/
def powerOfTen? (n : Nat) : Nat → Option Nat
  | 0 => if n = 1 then some 0 else none
  | limit + 1 =>
    if n = 1 then some 0
    else if n % 10 ≠ 0 then none
    else (powerOfTen? (n / 10) limit).map (· + 1)

def decimalLogarithm? (x : Rat) : Option Int :=
  if x.den = 1 then (powerOfTen? x.num.natAbs maxDecimalLogarithm).map fun k => (k : Int)
  else if x.num = 1 then (powerOfTen? x.den maxDecimalLogarithm).map fun k => -(k : Int)
  else none

def exactLogarithm? (s : Settings) (isDecimal : Bool) (argument : Term) : Option (Build Term) :=
  match argument with
  | .constant .e => if isDecimal then none else some (Build.make .one)
  | .number x =>
    if x = 0 then some (Build.make .undefined)
    else if x < 0 then
      if s.complexFormat = .real then some (Build.make .nonreal) else none
    else if x = 1 then some (Build.make .zero)
    else if isDecimal then (decimalLogarithm? x).map fun k => Build.number (k : Rat)
    else none
  | _ => none

def exactAbsoluteValue? (argument : Term) : Option (Build Term) :=
  match argument with
  | .number x => some (Build.number x.abs)
  | .constant .i => some (Build.make .one)
  | .constant c => some (pure (.constant c))
  | _ => none

/-- Exact cube roots: real ones, with the sign of the radicand. -/
def exactCubeRoot? (s : Settings) (argument : Term) : Option (Build Term) :=
  match argument with
  | .number x => some do
    let magnitude ← Build.number x.abs
    let third ← Build.number (1 / 3)
    let root ← pow s magnitude third
    if x < 0 then
      let minusOne ← Build.number (-1)
      mul s [minusOne, root]
    else pure root
  | _ => none

/-! ### Functions -/

def exactValue? (s : Settings) (f : Function) (argument : Term) : Option (Build Term) :=
  match f with
  | .sin => (circleStep? s.angleUnit argument).bind (exactSine? s)
  | .cos => (circleStep? s.angleUnit argument).bind (exactCosine? s)
  | .tan => (circleStep? s.angleUnit argument).bind (exactTangent? s)
  | .asin | .acos | .atan => exactInverse? s f argument
  | .ln => exactLogarithm? s false argument
  | .log => exactLogarithm? s true argument
  | .abs => exactAbsoluteValue? argument
  | .cbrt => exactCubeRoot? s argument

def decimalValue (s : Settings) (f : Function) (bits : UInt64) : Build Term :=
  let z := f.value (.ofReal (Float.ofBits bits)) s.angleUnit
  if !z.isFinite then Build.make .undefined
  else if isNegligible z.im z.re then Build.make (Term.ofDouble z.re)
  else if s.complexFormat = .real then Build.make .nonreal
  else Build.make (.apply f (.decimal bits))

def apply (s : Settings) (f : Function) (argument : Term) : Build Term :=
  match poison? [argument] with
  | some poison => Build.make poison
  | none =>
    match argument with
    | .matrix _ _ _ => Build.make (.apply f argument)
    | .decimal bits => decimalValue s f bits
    | _ => (exactValue? s f argument).getD (Build.make (.apply f argument))

end Reduction

end EquationSolver
