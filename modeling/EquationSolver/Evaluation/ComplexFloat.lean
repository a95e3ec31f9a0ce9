import EquationSolver.Number.Binary64
import EquationSolver.Number.Hypotenuse

/-!
# Complex doubles

Complex numbers with double precision parts and the elementary functions on them, by the
usual formulas over the real functions: roots and powers go through the polar form, and
the inverse functions through the logarithm, which has its cut along the negative reals.
-/

namespace EquationSolver

/-- A complex number with double precision parts. -/
structure ComplexFloat where
  re : Float
  im : Float

namespace ComplexFloat

/-! ### Arithmetic -/

def ofReal (x : Float) : ComplexFloat := ⟨x, 0⟩

def i : ComplexFloat := ⟨0, 1⟩

def one : ComplexFloat := ⟨1, 0⟩

def add (z w : ComplexFloat) : ComplexFloat := ⟨z.re + w.re, z.im + w.im⟩

def sub (z w : ComplexFloat) : ComplexFloat := ⟨z.re - w.re, z.im - w.im⟩

def mul (z w : ComplexFloat) : ComplexFloat :=
  ⟨z.re * w.re - z.im * w.im, z.re * w.im + z.im * w.re⟩

def neg (z : ComplexFloat) : ComplexFloat := ⟨-z.re, -z.im⟩

/-- The quotient, by multiplying with the conjugate of the divisor. -/
def div (z w : ComplexFloat) : ComplexFloat :=
  let normSquare := w.re * w.re + w.im * w.im
  ⟨(z.re * w.re + z.im * w.im) / normSquare, (z.im * w.re - z.re * w.im) / normSquare⟩

instance : Add ComplexFloat := ⟨add⟩
instance : Sub ComplexFloat := ⟨sub⟩
instance : Mul ComplexFloat := ⟨mul⟩
instance : Neg ComplexFloat := ⟨neg⟩
instance : Div ComplexFloat := ⟨div⟩

def scale (z : ComplexFloat) (x : Float) : ComplexFloat := ⟨z.re * x, z.im * x⟩

def unscale (z : ComplexFloat) (x : Float) : ComplexFloat := ⟨z.re / x, z.im / x⟩

def isFinite (z : ComplexFloat) : Bool := z.re.isFinite && z.im.isFinite

/-! ### Polar form -/

def modulus (z : ComplexFloat) : Float := hypotenuse z.re z.im

def argument (z : ComplexFloat) : Float := Float.atan2 z.im z.re

def ofPolar (r θ : Float) : ComplexFloat := ⟨r * θ.cos, r * θ.sin⟩

/-! ### Exponential function, logarithm and powers -/

/-- The exponential function.  Infinite real parts and undefined ones are kept apart,
    where the polar form would lose them. -/
def exp (z : ComplexFloat) : ComplexFloat :=
  if z.re.isInf && z.re < 0 && !z.im.isFinite then ⟨0, 0⟩
  else if z.re.isInf && 0 < z.re && (z.im == 0 || !z.im.isFinite) then
    ⟨z.re, if z.im.isInf then 0 / 0 else z.im⟩
  else if z.re.isNaN && z.im == 0 then z
  else ofPolar z.re.exp z.im

def log (z : ComplexFloat) : ComplexFloat := ⟨z.modulus.log, z.argument⟩

/-- A negative sign, also of a zero. -/
def hasSign (x : Float) : Bool := Binary64.signBit x.toBits

/-- The principal square root.  On the axes it is taken from real roots. -/
def sqrt (z : ComplexFloat) : ComplexFloat :=
  if z.im == 0 then
    if !hasSign z.re then ⟨z.re.sqrt, z.im⟩
    else
      let root := (-z.re).sqrt
      ⟨0, if hasSign z.im then -root else root⟩
  else if z.re == 0 then
    let root := (z.im.abs / 2).sqrt
    ⟨root, if hasSign z.im then -root else root⟩
  else ofPolar z.modulus.sqrt (z.argument / 2)

def powReal (z : ComplexFloat) (x : Float) : ComplexFloat :=
  if x == 0 then one else ofPolar (z.modulus.pow x) (z.argument * x)

def pow (z w : ComplexFloat) : ComplexFloat :=
  if w.re == 0 && w.im == 0 then one else (w * z.log).exp

/-! ### Trigonometric functions -/

def sin (z : ComplexFloat) : ComplexFloat :=
  ⟨z.re.sin * z.im.cosh, z.re.cos * z.im.sinh⟩

def cos (z : ComplexFloat) : ComplexFloat :=
  ⟨z.re.cos * z.im.cosh, -z.re.sin * z.im.sinh⟩

def tan (z : ComplexFloat) : ComplexFloat :=
  let a := z.re + z.re
  let b := z.im + z.im
  unscale ⟨a.sin, b.sinh⟩ (a.cos + b.cosh)

def asin (z : ComplexFloat) : ComplexFloat :=
  -i * ((one - z * z).sqrt + i * z).log

def acos (z : ComplexFloat) : ComplexFloat :=
  -i * (i * (one - z * z).sqrt + z).log

/-- The inverse tangent, which is infinite at `i` and `-i`. -/
def atan (z : ComplexFloat) : ComplexFloat :=
  if z.re == 0 && z.im == 1 then ⟨0, 1 / 0⟩
  else if z.re == 0 && z.im == -1 then ⟨0, -(1 / 0)⟩
  else ((one + i * z).log - (one - i * z).log) / ((one + one) * i)

end ComplexFloat

end EquationSolver
