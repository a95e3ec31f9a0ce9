import EquationSolver.Evaluation.Approximation
import EquationSolver.Number.Root
import EquationSolver.Reduction.Reduce

/-!
# Roots of quadratic and cubic polynomials

By the rational root theorem a rational root in lowest terms has a numerator that divides
the constant coefficient and a denominator that divides the leading one, once all
coefficients are integers.

Roots are given in closed form, built in standard form.  A cubic is tried in this order: a
null constant term, a rational root, the formulas for multiple roots when the discriminant
is null, Cardano's formula where it needs one real root, and numeric roots where the exact
ones would be nested radicals.
-/

namespace EquationSolver

/-! ### Rational roots of cubics -/

structure Cubic (α : Type) where
  a : α
  b : α
  c : α
  d : α
deriving DecidableEq, Repr

namespace Cubic

def map {α β : Type} (f : α → β) (p : Cubic α) : Cubic β :=
  ⟨f p.a, f p.b, f p.c, f p.d⟩

def commonDenominator (p : Cubic Rat) : Nat :=
  ((p.a.den.lcm p.b.den).lcm p.c.den).lcm p.d.den

def integral (p : Cubic Rat) : Cubic Int :=
  p.map fun x => (x * (p.commonDenominator : Rat)).num

/-- The value at `m / n`, multiplied by `n ^ 3`. -/
def homogeneousValue (p : Cubic Int) (m n : Int) : Int :=
  ((p.a * m + p.b * n) * m + p.c * n * n) * m + p.d * n * n * n

/-- The root among `m / n` and `-m / n`, the positive one first. -/
def signedRoot? (p : Cubic Int) (m n : Nat) : Option Rat :=
  if p.homogeneousValue m n = 0 then some (mkRat m n)
  else if p.homogeneousValue (-m) n = 0 then some (mkRat (-m) n)
  else none

/-- A rational root of a cubic with nonzero leading and constant coefficients, both small
    enough for their divisors to be enumerated: the first by the divisors of the constant,
    then by those of the leading coefficient. -/
def rationalRoot? (p : Cubic Rat) : Option Rat := do
  let q := p.integral
  let numerators ← divisors? q.d
  let denominators ← divisors? q.a
  numerators.findSome? fun m => denominators.findSome? fun n => signedRoot? q m n

end Cubic

/-! ### Lists of roots -/

/-- The roots of a polynomial and its discriminant. -/
structure PolynomialRoots where
  /-- The distinct roots, in ascending order when all are real. -/
  roots : List Term
  delta : Term
  isApproximate : Bool

namespace Roots

open Reduction (Settings)

/-! ### Arithmetic of terms -/

def neg (s : Settings) (x : Term) : Build Term := do
  let minusOne ← Build.number (-1)
  Reduction.mul s [minusOne, x]

def sub (s : Settings) (x y : Term) : Build Term := do
  let opposite ← neg s y
  Reduction.add [x, opposite]

def div (s : Settings) (x y : Term) : Build Term := do
  let minusOne ← Build.number (-1)
  let inverse ← Reduction.pow s y minusOne
  Reduction.mul s [x, inverse]

def sqrt (s : Settings) (x : Term) : Build Term := do
  let half ← Build.number (1 / 2)
  Reduction.pow s x half

def monomial (s : Settings) (k : Int) (powers : List (Term × Nat)) : Build Term := do
  let coefficient ← Build.number (k : Rat)
  let factors ← Build.each
    (fun power => do
      let exponent ← Build.number (power.2 : Rat)
      Reduction.pow s power.1 exponent)
    powers
  Reduction.mul s (coefficient :: factors)

def polynomial (s : Settings) (monomials : List (Int × List (Term × Nat))) : Build Term := do
  let terms ← Build.each (fun m => monomial s m.1 m.2) monomials
  Reduction.add terms

def value? (s : Settings) (x : Term) : Option ComplexFloat :=
  match x.approximate { s with complexFormat := .cartesian } [] with
  | .value z => some z
  | _ => none

/-! ### Exact roots -/

/-- The discriminant and the roots of a quadratic; a double root comes once. -/
def quadratic (s : Settings) (a b c : Term) : Build (Term × List Term) := do
  let delta ← polynomial s [(1, [(b, 2)]), (-4, [(a, 1), (c, 1)])]
  let opposite ← neg s b
  let twice ← monomial s 2 [(a, 1)]
  if delta.nullity s = .yes then
    let root ← div s opposite twice
    pure (delta, [root])
  else
    let root ← sqrt s delta
    let low ← sub s opposite root
    let high ← Reduction.add [opposite, root]
    let first ← div s low twice
    let second ← div s high twice
    pure (delta, [first, second])

def cubicDiscriminant (s : Settings) (p : Cubic Term) : Build Term :=
  polynomial s [
    (1, [(p.b, 2), (p.c, 2)]),
    (-4, [(p.a, 1), (p.c, 3)]),
    (-4, [(p.b, 3), (p.d, 1)]),
    (-27, [(p.a, 2), (p.d, 2)]),
    (18, [(p.a, 1), (p.b, 1), (p.c, 1), (p.d, 1)])]

/-- The term `b² - 3ac` of a cubic, null when a multiple root is triple. -/
def cubicDelta0 (s : Settings) (p : Cubic Term) : Build Term :=
  polynomial s [(1, [(p.b, 2)]), (-3, [(p.a, 1), (p.c, 1)])]

/-- The roots of a cubic with null discriminant: a triple root, or a double root and a
    simple one. -/
def multipleRoots (s : Settings) (p : Cubic Term) : Build (List Term) := do
  let delta0 ← cubicDelta0 s p
  if delta0.nullity s = .yes then
    let opposite ← neg s p.b
    let thrice ← monomial s 3 [(p.a, 1)]
    let root ← div s opposite thrice
    pure [root]
  else
    let doubleTop ← polynomial s [(9, [(p.a, 1), (p.d, 1)]), (-1, [(p.b, 1), (p.c, 1)])]
    let doubleBottom ← monomial s 2 [(delta0, 1)]
    let double ← div s doubleTop doubleBottom
    let simpleTop ← polynomial s [
      (4, [(p.a, 1), (p.b, 1), (p.c, 1)]), (-9, [(p.a, 2), (p.d, 1)]), (-1, [(p.b, 3)])]
    let simpleBottom ← Reduction.mul s [p.a, delta0]
    let simple ← div s simpleTop simpleBottom
    pure [double, simple]

def cubeRootOfHalf (s : Settings) (x : Term) : Build Term := do
  let half ← Build.number (1 / 2)
  let halved ← Reduction.mul s [half, x]
  Reduction.apply s .cbrt halved

/-- The cube root `C` of Cardano's formula for `Δ₀` and `Δ₁`; with the other sign of the
    inner square root when the first choice is null. -/
def cardanoRoot (s : Settings) (delta0 delta1 : Term) : Build Term := do
  let inner ← polynomial s [(1, [(delta1, 2)]), (-4, [(delta0, 3)])]
  let root ← sqrt s inner
  let plus ← Reduction.add [delta1, root]
  let first ← cubeRootOfHalf s plus
  if first.nullity s = .yes then
    let minus ← sub s delta1 root
    cubeRootOfHalf s minus
  else pure first

/-- The conjugate pair around the real root of Cardano's formula, from `C` and
    `Δ₀ / C`. -/
def cardanoPair (s : Settings) (p : Cubic Term) (thrice c ratio : Term) :
    Build (List Term) := do
  let opposite ← neg s p.b
  let center ← div s opposite thrice
  let sixfold ← monomial s 6 [(p.a, 1)]
  let sum ← Reduction.add [c, ratio]
  let spread ← div s sum sixfold
  let realPart ← Reduction.add [center, spread]
  let three ← Build.number 3
  let sqrtThree ← sqrt s three
  let half ← Build.number (1 / 2)
  let difference ← sub s c ratio
  let gap ← div s difference thrice
  let i ← Build.make (.constant .i)
  let imaginary ← Reduction.mul s [half, sqrtThree, gap, i]
  let low ← sub s realPart imaginary
  let high ← Reduction.add [realPart, imaginary]
  pure [low, high]

/-- Cardano's formula in exact arithmetic: a real root and the conjugate pair, which in the
    real format is only marked as nonreal. -/
def cardano (s : Settings) (p : Cubic Term) : Build (List Term) := do
  let delta0 ← cubicDelta0 s p
  let delta1 ← polynomial s [
    (2, [(p.b, 3)]), (-9, [(p.a, 1), (p.b, 1), (p.c, 1)]), (27, [(p.a, 2), (p.d, 1)])]
  let c ← cardanoRoot s delta0 delta1
  let ratio ← div s delta0 c
  let sum ← Reduction.add [p.b, c, ratio]
  let opposite ← neg s sum
  let thrice ← monomial s 3 [(p.a, 1)]
  let first ← div s opposite thrice
  if s.complexFormat = .real then
    let marker ← Build.make .nonreal
    pure [first, marker]
  else
    let pair ← cardanoPair s p thrice c ratio
    pure (first :: pair)

/-! ### Numeric roots -/

def numericRoot (s : Settings) (z : ComplexFloat) : Build Term :=
  let re := if isNegligible z.re z.im then 0 else z.re
  if isNegligible z.im z.re then Build.make (Term.ofDouble re)
  else if s.complexFormat = .real then Build.make .nonreal
  else (Approximation.value ⟨re, z.im⟩).toTerm s.complexFormat

def clampToUnit (x : Float) : Float :=
  if x < -1 then -1 else if 1 < x then 1 else x

def trigonometricRoots (p : Cubic Float) : List Float :=
  let a := p.a
  let b := p.b
  let c := p.c
  let d := p.d
  let linear := (3 * a * c - b * b) / (3 * a * a)
  let constant := (2 * b * b * b - 9 * a * b * c + 27 * a * a * d) / (27 * a * a * a)
  let shift := b / (3 * a)
  let amplitude := 2 * (-linear / 3).sqrt
  let phase :=
    (clampToUnit ((3 * constant / (2 * linear)) * (-3 / linear).sqrt)).acos / 3
  [0, 1, 2].map fun k => amplitude * (phase - 2 * piDouble * k / 3).cos - shift

def doubleEpsilon : Float :=
  Float.ofBits 0x3CB0000000000000

def numericCardano (p : Cubic ComplexFloat) : List ComplexFloat :=
  let a := p.a
  let b := p.b
  let c := p.c
  let d := p.d
  let delta0 := b * b - a.scale 3 * c
  let delta1 := b.scale 2 * b * b - a.scale 9 * b * c + a.scale 27 * a * d
  let root := (delta1 * delta1 - delta0.scale 4 * delta0 * delta0).sqrt
  let first := ((delta1 + root).unscale 2).powReal (1 / 3)
  let big :=
    if first.modulus < doubleEpsilon then ((delta1 - root).unscale 2).powReal (1 / 3) else first
  if big.modulus < doubleEpsilon then [(-b) / a.scale 3]
  else
    let ζ : ComplexFloat := ⟨-0.5, (3 : Float).sqrt / 2⟩
    let rootAt (rotation : ComplexFloat) : ComplexFloat :=
      let turned := rotation * big
      (-(b + turned + delta0 / turned)) / a.scale 3
    [rootAt .one, rootAt (.one * ζ), rootAt (.one * ζ * ζ)]

/-! ### Roots -/

def compareDoubles (x y : Float) : Ordering :=
  if x < y then .lt else if y < x then .gt else .eq

/-- The list without repetitions, each item at its first place. -/
def distinct (roots : List Term) : List Term :=
  roots.foldl (fun found root => if root ∈ found then found else found ++ [root]) []

/-- Roots in ascending order of their values, if all of them are real. -/
def ascending (s : Settings) (roots : List Term) : List Term :=
  match roots.mapM fun root => (root.approximate s []).real? with
  | some values => (sortBy (fun x y => compareDoubles x.1 y.1) (values.zip roots)).map Prod.snd
  | none => roots

def finish (s : Settings) (delta : Term) (isApproximate : Bool) (roots : List Term) :
    PolynomialRoots :=
  ⟨ascending s (distinct roots), delta, isApproximate⟩

/-- The roots of `a x² + b x + c` for an `a` that is not null. -/
def ofQuadratic (s : Settings) (a b c : Term) : Build PolynomialRoots := do
  let (delta, roots) ← quadratic s a b c
  pure (finish s delta false roots)

def exactCoefficients? (p : Cubic Term) : Option (Cubic Rat) := do
  pure ⟨← p.a.rational?, ← p.b.rational?, ← p.c.rational?, ← p.d.rational?⟩

/-- A root and the roots of the quadratic that is left after dividing by it. -/
def rootAndQuadratic (s : Settings) (root a b c : Term) : Build (List Term) := do
  let (_, others) ← quadratic s a b c
  pure (root :: others)

def dividedRoots (s : Settings) (a : Term) (p : Cubic Rat) (r : Rat) : Build (List Term) := do
  let b := p.b + r * p.a
  let c := p.c + r * b
  let root ← Build.number r
  let b ← Build.number b
  let c ← Build.number c
  rootAndQuadratic s root a b c

/-- The roots of a cubic without a rational root and without multiple roots, and whether
    they are numeric. -/
def irrationalRoots (s : Settings) (delta : Term) (p : Cubic Term) : Build (List Term × Bool) :=
  match value? s p.a, value? s p.b, value? s p.c, value? s p.d with
  | some a, some b, some c, some d =>
    let isReal := a.im == 0 && b.im == 0 && c.im == 0 && d.im == 0
    let discriminant := ((value? s delta).map ComplexFloat.re).getD (0 / 0)
    if isReal && discriminant < 0 then do
      let roots ← cardano s p
      pure (roots, false)
    else if isReal && 0 < discriminant then do
      let roots ← Build.each (fun x => Build.make (Term.ofDouble x))
        (trigonometricRoots ⟨a.re, b.re, c.re, d.re⟩)
      pure (roots, true)
    else do
      let roots ← Build.each (numericRoot s) (numericCardano ⟨a, b, c, d⟩)
      pure (roots, true)
  | _, _, _, _ => do
    let roots ← cardano s p
    pure (roots, false)

/-- The roots of `a x³ + b x² + c x + d` for an `a` that is not null. -/
def ofCubic (s : Settings) (p : Cubic Term) : Build PolynomialRoots := do
  let delta ← cubicDiscriminant s p
  if p.d.nullity s = .yes then
    let zero ← Build.make .zero
    let roots ← rootAndQuadratic s zero p.a p.b p.c
    pure (finish s delta false roots)
  else
    match (exactCoefficients? p).bind fun exact =>
      exact.rationalRoot?.map fun r => (exact, r) with
    | some (exact, r) =>
      let roots ← dividedRoots s p.a exact r
      pure (finish s delta false roots)
    | none =>
      if delta.nullity s = .yes then
        let roots ← multipleRoots s p
        pure (finish s delta false roots)
      else
        let (roots, isApproximate) ← irrationalRoots s delta p
        pure (finish s delta isApproximate roots)

def isNonreal (root : Term) : Bool :=
  root matches .nonreal

end Roots

end EquationSolver
