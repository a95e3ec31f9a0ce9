import EquationSolver.Evaluation.Approximation
import EquationSolver.Reduction.Reduce

/-!
# Coefficients

The coefficients of a reduced term as an affine function of several variables, and as a
polynomial in one.  The term has to be reduced for analysis: a sum of products in which a
variable occurs in at most one factor of each.
-/

namespace EquationSolver

namespace Coefficients

def maxDegree : Nat := 64

/-- The factors of a product; any other term is its own only one. -/
def factors : Term → List Term
  | .product factors => factors
  | t => [t]

/-! ### Affine functions -/

/-- A term of an affine function: the variable that it is a multiple of, if any, by its
    place, and the factors of its coefficient. -/
structure AffineTerm where
  unknown : Option Nat := none
  coefficient : List Term := []

/-- Take a factor into an affine term.  A factor that depends on a variable has to be
    the only such one and a variable itself. -/
def AffineTerm.addFactor (names : List String) (t : AffineTerm) (factor : Term) :
    Option AffineTerm :=
  if !factor.dependsOn names then some { t with coefficient := t.coefficient ++ [factor] }
  else
    match t.unknown, factor with
    | none, .symbol name => some { t with unknown := names.idxOf? name }
    | _, _ => none

def affineTerm? (names : List String) (t : Term) : Option AffineTerm :=
  (factors t).foldlM (AffineTerm.addFactor names) {}

/-- The sum of the coefficients of the terms that `selects` picks. -/
def sumSelected {α : Type} (selects : α → Bool) (products : List (α × Term)) : Build Term :=
  Reduction.add ((products.filter fun product => selects product.1).map Prod.snd)

def multiplyEach {α : Type} (s : Reduction.Settings) (parts : List (α × List Term)) :
    Build (List (α × Term)) :=
  Build.each
    (fun part => do
      let product ← Reduction.mul s part.2
      pure (part.1, product))
    parts

/-- The coefficients of the variables and the constant of an affine function; none for a
    term that is not affine in the variables. -/
def linear? (s : Reduction.Settings) (names : List String) (t : Term) :
    Option (Build (List Term × Term)) :=
  ((Reduction.summands t).mapM (affineTerm? names)).map fun terms => do
    let products ← multiplyEach s (terms.map fun t => (t.unknown, t.coefficient))
    let coefficients ← Build.each
      (fun place => sumSelected (fun v => v = some place) products) (List.range names.length)
    let constant ← sumSelected (fun v => v = none) products
    pure (coefficients, constant)

/-! ### Polynomials -/

/-- The power of a variable that a factor is, if it is one with a positive exponent. -/
def variablePower? (name : String) : Term → Option Nat
  | .symbol other => if other = name then some 1 else none
  | .power (.symbol other) (.number e) =>
    if other = name then
      (Rational.toInt64Range? e).bind fun n => if 0 < n then some n.toNat else none
    else none
  | _ => none

/-- A term of a polynomial: its degree and the factors of its coefficient. -/
structure PolynomialTerm where
  degree : Nat := 0
  coefficient : List Term := []

/-- Take a factor into a term of a polynomial.  Degrees are 64-bit words, whose sums wrap
    around. -/
def PolynomialTerm.addFactor (name : String) (t : PolynomialTerm) (factor : Term) :
    Option PolynomialTerm :=
  if !factor.dependsOn [name] then some { t with coefficient := t.coefficient ++ [factor] }
  else
    (variablePower? name factor).map fun n =>
      { t with degree := (t.degree + n) % Integer.wordCount }

def polynomialTerm? (name : String) (t : Term) : Option PolynomialTerm :=
  ((factors t).foldlM (PolynomialTerm.addFactor name) {}).filter fun t => t.degree ≤ maxDegree

/-- Drop the coefficients known to be null from the end, but never the last one left. -/
def trimLeading (s : Reduction.Settings) : List Term → List Term
  | [] => []
  | constant :: others =>
    constant :: (others.reverse.dropWhile fun c => c.nullity s = .yes).reverse

/-- The coefficients of a polynomial in a variable, constant first, the last of them being
    the leading one; none for a term that is no polynomial in the variable. -/
def polynomial? (s : Reduction.Settings) (name : String) (t : Term) :
    Option (Build (List Term)) :=
  ((Reduction.summands t).mapM (polynomialTerm? name)).map fun terms => do
    let products ← multiplyEach s (terms.map fun t => (t.degree, t.coefficient))
    let top := (terms.map PolynomialTerm.degree).foldl max 0
    let coefficients ← Build.each
      (fun degree => sumSelected (fun d => d = degree) products) (List.range (top + 1))
    pure (trimLeading s coefficients)

end Coefficients

end EquationSolver
