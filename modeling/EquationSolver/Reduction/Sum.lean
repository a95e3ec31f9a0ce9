import EquationSolver.Reduction.Settings
import EquationSolver.Term.Build
import EquationSolver.Term.Order

/-!
# Sums in standard form

The numeric factor of a term is exact as long as everything that went into it is.  One
approximate number makes sums and products approximate.

A reduced sum is flat, its like terms are collected and its terms sorted.  A term is
split into a coefficient and a body; the constant term has no body.  An undefined
operand makes the sum undefined, and otherwise a nonreal one makes it nonreal.  Sums with
matrices are only flattened.
-/

namespace EquationSolver

/-! ### Numeric coefficients -/

inductive Coefficient where
  | exact (a : Rat)
  | approximate (x : Float)

namespace Coefficient

def of? : Term → Option Coefficient
  | .number a => some (.exact a)
  | .decimal bits => some (.approximate (Float.ofBits bits))
  | _ => none

def one : Coefficient := .exact 1

def toDouble : Coefficient → Float
  | exact a => Binary64.nearest a
  | approximate x => x

def add : Coefficient → Coefficient → Coefficient
  | exact a, exact b => exact (a + b)
  | a, b => approximate (a.toDouble + b.toDouble)

def mul : Coefficient → Coefficient → Coefficient
  | exact a, exact b => exact (a * b)
  | a, b => approximate (a.toDouble * b.toDouble)

def isZero : Coefficient → Bool
  | exact a => a = 0
  | approximate x => x == 0

/-- The exact one, and no approximate one. -/
def isOne : Coefficient → Bool
  | exact a => a = 1
  | approximate _ => false

/-- The term of a coefficient; there is none for a double that is not finite. -/
def toTerm : Coefficient → Term
  | exact a => .number a
  | approximate x => Term.ofDouble x

end Coefficient

namespace Reduction

/-! ### Operands that decide the result -/

/-- The undefined or, failing that, the nonreal term among operands. -/
def poison? (operands : List Term) : Option Term :=
  if operands.any (fun t => t matches .undefined) then some .undefined
  else if operands.any (fun t => t matches .nonreal) then some .nonreal
  else none

def hasMatrix (operands : List Term) : Bool :=
  operands.any fun t => t matches .matrix _ _ _

/-! ### Terms of a sum -/

/-- The terms of a sum; any other term is its own only one. -/
def summands : Term → List Term
  | .sum terms => terms
  | t => [t]

/-- Split a reduced term into its coefficient and its body, which is built anew when the
    coefficient was a factor of it. -/
def splitTerm : Term → Build (Coefficient × Option Term)
  | .product (first :: rest) =>
    match Coefficient.of? first with
    | some c => do
      let body ← Build.product rest
      pure (c, some body)
    | none => pure (.one, some (.product (first :: rest)))
  | t =>
    match Coefficient.of? t with
    | some c => pure (c, none)
    | none => pure (.one, some t)

/-- Add a split term to collected ones: to the coefficient of its body, if the body is
    there, and behind the others if not.  Bodies are told apart by a key. -/
def collect {κ : Type} [DecidableEq κ] (coefficient : Coefficient) (body : Option κ) :
    List (Option κ × Coefficient) → List (Option κ × Coefficient)
  | [] => [(body, coefficient)]
  | (other, present) :: rest =>
    if other = body then (other, present.add coefficient) :: rest
    else (other, present) :: collect coefficient body rest

/-- Join a coefficient and a body again.  A body that is a product takes the coefficient
    as its first factor. -/
def joinTerm (coefficient : Coefficient) (body : Option Term) : Build Term :=
  match body with
  | none => Build.make coefficient.toTerm
  | some body =>
    if coefficient.isOne then pure body
    else do
      let first ← Build.make coefficient.toTerm
      match body with
      | .product factors => Build.product (first :: factors)
      | body => Build.product [first, body]

def add (terms : List Term) : Build Term := do
  let flat := terms.flatMap summands
  match poison? flat with
  | some poison => Build.make poison
  | none =>
    if hasMatrix flat then Build.sum flat
    else
      let parts ← Build.each splitTerm flat
      let collected := parts.foldl (fun done part => collect part.1 part.2 done) []
      let kept := collected.filter fun part => !part.2.isZero
      let joined ← Build.each (fun part => joinTerm part.2 part.1) kept
      Build.sum (Term.sortTerms joined)

end Reduction

end EquationSolver
