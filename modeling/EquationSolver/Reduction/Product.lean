import EquationSolver.Reduction.Sum

/-!
# Products in standard form

A reduced product is flat and has at most one numeric factor, which comes first; powers
of one base are merged by adding their exponents, and the factors are sorted.  Where
products of sums are multiplied out, the sums among the factors are.  Merging and
multiplying out need powers and smaller products; the functions here take these as
parameters.
-/

namespace EquationSolver

namespace Reduction

/-! ### Factors of a product -/

mutual

def flatFactors : Term → List Term
  | .product factors => flatFactorsOfAll factors
  | t => [t]

def flatFactorsOfAll : List Term → List Term
  | [] => []
  | t :: ts => flatFactors t ++ flatFactorsOfAll ts

end

def multiplyNumbers (coefficient : Coefficient) (factors : List Term) : Coefficient :=
  factors.foldl
    (fun c t =>
      match Coefficient.of? t with
      | some d => c.mul d
      | none => c)
    coefficient

/-- Move the numbers among factors into the coefficient and flatten the rest. -/
def absorb (coefficient : Coefficient) (factors : List Term) : Coefficient × List Term :=
  let flat := flatFactorsOfAll factors
  (multiplyNumbers coefficient flat, flat.filter fun t => !t.isNumeric)

/-- A product of a coefficient and sorted factors, without merging. -/
def sortedProduct (coefficient : Coefficient) (factors : List Term) : Build Term := do
  let sorted := sortBy Term.compare factors
  if sorted.isEmpty then Build.make coefficient.toTerm
  else if coefficient.isOne then Build.product sorted
  else
    let first ← Build.make coefficient.toTerm
    Build.product (first :: sorted)

/-! ### Powers of one base -/

/-- The factors of one base: their exponents and the first of the factors. -/
structure PowerGroup (κ : Type) where
  base : κ
  exponents : List κ
  first : κ

/-- The base and the exponent of a factor; a factor that is no power is a first power. -/
def asPower : Term → Term × Term
  | .power base exponent => (base, exponent)
  | t => (t, .one)

/-- Add a factor to the group of its base, or behind the groups. -/
def addToGroups (factor : Term) : List (PowerGroup Term) → List (PowerGroup Term)
  | [] => [⟨(asPower factor).1, [(asPower factor).2], factor⟩]
  | group :: rest =>
    if group.base = (asPower factor).1 then
      { group with exponents := group.exponents ++ [(asPower factor).2] } :: rest
    else group :: addToGroups factor rest

def powerGroups (factors : List Term) : List (PowerGroup Term) :=
  factors.foldl (fun groups factor => addToGroups factor groups) []

/-- The factor of a group: the factor itself if it is alone, and otherwise the base to
    the sum of the exponents. -/
def mergeGroup (pow : Term → Term → Build Term) (group : PowerGroup Term) : Build Term :=
  match group.exponents with
  | [_] => pure group.first
  | exponents => do
    let exponent ← add exponents
    pow group.base exponent

/-- Merge the powers of each base; true if there was something to merge. -/
def mergePowers (pow : Term → Term → Build Term) (factors : List Term) :
    Build (List Term × Bool) := do
  let _ ← Build.make .one
  let groups := powerGroups factors
  let merged ← Build.each (mergeGroup pow) groups
  pure (merged, groups.any fun group => group.exponents.length ≠ 1)

def maxMergePasses : Nat := 4

/-- Merge powers until nothing changes, a number of times at most. -/
def mergeRepeatedly (pow : Term → Term → Build Term) :
    Nat → Coefficient → List Term → Build (Coefficient × List Term)
  | 0, coefficient, factors => pure (coefficient, factors)
  | passes + 1, coefficient, factors =>
    if coefficient.isZero then pure (coefficient, factors)
    else do
      let (merged, changed) ← mergePowers pow factors
      let (coefficient, factors) := absorb coefficient merged
      if changed then mergeRepeatedly pow passes coefficient factors
      else pure (coefficient, factors)

/-! ### Multiplying out -/

/-- All products of a term of the first list and a term of the second. -/
def pairwise (mul : List Term → Build Term) (left right : List Term) : Build (List Term) :=
  Build.each (fun pair => mul [pair.1, pair.2]) (left.flatMap fun a => right.map fun b => (a, b))

/-- Multiply the terms of sums, one sum after the other, to the terms found so far. -/
def multiplySums (mul : List Term → Build Term) :
    List Term → List Term → Build (List Term)
  | found, [] => pure found
  | found, sum :: sums => do
    let longer ← pairwise mul found (summands sum)
    multiplySums mul longer sums

/-- Multiply out the sums among the factors, unless there would be too many terms. -/
def distribute (s : Settings) (mul : List Term → Build Term) (coefficient : Coefficient)
    (factors : List Term) : Build Term := do
  let (sums, others) := factors.partition Term.isSum
  let count := (sums.map fun sum => (summands sum).length).foldl (· * ·) 1
  if s.limits.maxExpandedTerms < count then sortedProduct coefficient factors
  else
    let first ← sortedProduct coefficient others
    let terms ← multiplySums mul [first] sums
    add terms

/-! ### Products -/

/-- A product with a matrix is only flattened. -/
def matrixProduct (coefficient : Coefficient) (factors : List Term) : Build Term := do
  if coefficient.isOne then Build.product factors
  else
    let first ← Build.make coefficient.toTerm
    Build.product (first :: factors)

/-- The product of reduced factors in standard form, given the power of reduced terms and
    the product of fewer factors. -/
def mulWith (s : Settings) (pow : Term → Term → Build Term) (mul : List Term → Build Term)
    (factors : List Term) : Build Term := do
  let (coefficient, others) := absorb .one factors
  match poison? others with
  | some poison => Build.make poison
  | none =>
    if hasMatrix others then matrixProduct coefficient others
    else
      let (coefficient, others) ← mergeRepeatedly pow maxMergePasses coefficient others
      match poison? others with
      | some poison => Build.make poison
      | none =>
        if coefficient.isZero then Build.make coefficient.toTerm
        else if s.expands && others.any Term.isSum then distribute s mul coefficient others
        else sortedProduct coefficient others

def plainMul (factors : List Term) : Build Term := do
  let (coefficient, others) := absorb .one factors
  match poison? others with
  | some poison => Build.make poison
  | none =>
    if hasMatrix others then matrixProduct coefficient others
    else if coefficient.isZero then Build.make coefficient.toTerm
    else sortedProduct coefficient others

end Reduction

end EquationSolver
