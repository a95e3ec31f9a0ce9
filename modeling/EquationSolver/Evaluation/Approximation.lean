import EquationSolver.Evaluation.Function
import EquationSolver.Reduction.Settings
import EquationSolver.Term.Build
import EquationSolver.Term.Content

/-!
# Approximate values

The value of a term as a complex double, given the values of its symbols, and the term
that shows such a value.  A term has no value where a step of the evaluation leaves the
finite numbers, and where a symbol has no value.  In the real format a function or power
of a real number has to be real.

Whether a number is zero is decided exactly.  A term without symbols is known to differ from
zero when its approximate value is clearly away from zero; nothing else can be decided.
-/

namespace EquationSolver

/-- The result of evaluating a term. -/
inductive Approximation where
  /-- A finite value, which is real in the real format. -/
  | value (z : ComplexFloat)
  | nonreal
  | undefined

namespace Approximation

def real? : Approximation → Option Float
  | value z => if z.im == 0 then some z.re else none
  | _ => none

/-- The real value, and otherwise no number. -/
def toDouble (a : Approximation) : Float :=
  a.real?.getD (0 / 0)

def isUndefined : Approximation → Bool
  | undefined => true
  | _ => false

end Approximation

namespace Evaluation

/-- Why a term has no value of the kind wanted. -/
inductive Failure where
  | undefined
  | nonreal
deriving DecidableEq, Repr

/-- What an evaluation reads besides the term. -/
structure Environment where
  angleUnit : AngleUnit := .radian
  isReal : Bool := true
  bindings : List (String × Float) := []

/-- A function or power of a real number has to be real where real values are wanted. -/
def checkReal (env : Environment) (argument value : ComplexFloat) : Except Failure ComplexFloat :=
  if env.isReal && argument.im == 0 && !isNegligible value.im value.re then .error .nonreal
  else .ok value

def checkFinite (z : ComplexFloat) : Except Failure ComplexFloat :=
  if z.isFinite then .ok z else .error .undefined

def powerValue (env : Environment) (base exponent : ComplexFloat) : Except Failure ComplexFloat :=
  let e := exponent.principal
  if base.modulus == 0 then
    if 0 < e.re then .ok ⟨0, 0⟩ else .error .undefined
  else if base.im == 0 && e.im == 0 && (0 < base.re || Binary64.isWhole e.re) then
    .ok (.ofReal (base.re.pow e.re))
  else checkReal env base (base.pow e)

/-- The exponent with which a negative real base has a real power where real values are
    wanted: an exact number with odd denominator. -/
def realExponent? (env : Environment) (base : ComplexFloat) (exponent : Term) : Option Rat :=
  if env.isReal && base.im == 0 && base.re < 0 then
    match exponent with
    | .number e => if e.den % 2 = 1 then some e else none
    | _ => none
  else none

/-- The real power of a negative real base: the sign follows the numerator. -/
def oddPower (base : Float) (e : Rat) : ComplexFloat :=
  let magnitude := (-base).pow (Binary64.nearest e)
  .ofReal (if e.num % 2 = 0 then magnitude else -magnitude)

mutual

def eval (env : Environment) : Term → Except Failure ComplexFloat
  | .number a => checkFinite (.ofReal (Binary64.nearest a))
  | .decimal bits => checkFinite (.ofReal (Float.ofBits bits))
  | .constant .pi => .ok (.ofReal piDouble)
  | .constant .e => .ok (.ofReal eDouble)
  | .constant .i => .ok .i
  | .symbol name =>
    match env.bindings.lookup name with
    | some x => checkFinite (.ofReal x)
    | none => .error .undefined
  | .undefined => .error .undefined
  | .matrix _ _ _ => .error .undefined
  | .nonreal => .error .nonreal
  | .sum terms => do checkFinite (← evalSum env ⟨0, 0⟩ terms)
  | .product factors => do checkFinite (← evalProduct env ⟨1, 0⟩ factors)
  | .negation a => do checkFinite (-(← eval env a))
  | .quotient a b => do
    let divisor ← eval env b
    if divisor.modulus == 0 then .error .undefined
    else checkFinite ((← eval env a) / divisor)
  | .power base exponent => do
    let b := (← eval env base).principal
    match realExponent? env b exponent with
    | some e => checkFinite (oddPower b.re e)
    | none =>
      let e ← eval env exponent
      checkFinite (← powerValue env b e)
  | .apply f a => do
    let argument ← eval env a
    checkFinite (← checkReal env argument (f.value argument env.angleUnit))

def evalSum (env : Environment) (found : ComplexFloat) : List Term → Except Failure ComplexFloat
  | [] => .ok found
  | t :: ts => do evalSum env (found + (← eval env t)) ts

def evalProduct (env : Environment) (found : ComplexFloat) :
    List Term → Except Failure ComplexFloat
  | [] => .ok found
  | t :: ts => do evalProduct env (found * (← eval env t)) ts

end

end Evaluation

namespace Term

/-- The approximate value of a term under settings, given values of symbols.  Negligible
    parts are dropped. -/
def approximate (t : Term) (s : Reduction.Settings) (bindings : List (String × Float)) :
    Approximation :=
  let env : Evaluation.Environment :=
    { angleUnit := s.angleUnit, isReal := s.complexFormat = .real, bindings }
  match Evaluation.eval env t with
  | .error .nonreal => .nonreal
  | .error .undefined => .undefined
  | .ok z =>
    if isNegligible z.im z.re then .value ⟨z.re, 0⟩
    else if env.isReal then .nonreal
    else .value ⟨if isNegligible z.re z.im then 0 else z.re, z.im⟩

/-- The real value of a term where a symbol has the value `x`, and otherwise no number. -/
def approximateAt (t : Term) (s : Reduction.Settings) (symbol : String) (x : Float) : Float :=
  (t.approximate s [(symbol, x)]).toDouble

end Term

namespace Approximation

/-- The imaginary part as a term: a multiple of `i`. -/
def imaginaryTerm (im : Float) : Build Term := do
  if im == 1 then pure (.constant .i)
  else
    let coefficient ←
      if im == -1 then Build.number (-1) else Build.make (Term.ofDouble im)
    Build.product [coefficient, .constant .i]

/-- The term `r*e^(θ*i)` of a complex number. -/
def polarTerm (z : ComplexFloat) : Build Term := do
  let argument ← Build.make (Term.ofDouble z.argument)
  let exponent ← Build.product [argument, .constant .i]
  let e ← Build.make (.constant .e)
  let rotation ← Build.make (.power e exponent)
  if z.modulus == 1 then pure rotation
  else
    let modulus ← Build.make (Term.ofDouble z.modulus)
    Build.product [modulus, rotation]

/-- The term `a+b*i` of a complex number. -/
def cartesianTerm (z : ComplexFloat) : Build Term := do
  let imaginary ← imaginaryTerm z.im
  if z.re == 0 then pure imaginary
  else
    let real ← Build.make (Term.ofDouble z.re)
    Build.sum [real, imaginary]

def toTerm (a : Approximation) (format : ComplexFormat) : Build Term :=
  match a with
  | nonreal => Build.make .nonreal
  | undefined => Build.make .undefined
  | value z =>
    if z.im == 0 || format = .real then Build.make (Term.ofDouble z.re)
    else do
      let _ ← Build.make (.constant .i)
      if format = .polar then polarTerm z else cartesianTerm z

end Approximation

/-! ### Is a term null? -/

/-- A truth value that may be unknown. -/
inductive Verdict where
  | yes
  | no
  | unknown
deriving DecidableEq, Repr

def Verdict.ofBool (b : Bool) : Verdict :=
  if b then .yes else .no

/-- The modulus up to which an approximate value may be that of zero. -/
def nullTolerance : Float := 1e-12

namespace Term

def isClearlyNonzero (t : Term) (s : Reduction.Settings) : Bool :=
  match t.approximate s [] with
  | .value z => nullTolerance < z.modulus
  | _ => false

def nullity (t : Term) (s : Reduction.Settings) : Verdict :=
  match t with
  | .number a => .ofBool (a = 0)
  | .decimal bits => .ofBool (Float.ofBits bits == 0)
  | .constant _ => .no
  | .undefined | .nonreal | .matrix _ _ _ => .unknown
  | t =>
    if t.containsSymbol then .unknown
    else if t.isClearlyNonzero s then .no
    else .unknown

end Term

/-- The real format becomes the cartesian one when a term mentions the imaginary unit. -/
def ComplexFormat.updatedFor (format : ComplexFormat) (t : Term) : ComplexFormat :=
  if format = .real ∧ t.containsImaginaryUnit then .cartesian else format

end EquationSolver
