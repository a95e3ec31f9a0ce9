import EquationSolver.Evaluation.Approximation
import EquationSolver.Reduction.Reduce
import EquationSolver.Term.Parser

/-!
# Standard forms and displayed values

The operations on terms that solving is made of: bringing an equation to the form of one
term that is to be zero, and showing a term exactly and approximately.
-/

namespace EquationSolver

def standardForm (s : Reduction.Settings) (definitions : Definitions) (left right : Term) :
    Build Term := do
  let difference ← Build.difference left right
  Reduction.reduce s definitions difference

/-- The settings that reduce a term for display. -/
def Reduction.Settings.forDisplay (s : Reduction.Settings) : Reduction.Settings :=
  { s with target := .user }

/-- The exact form of a term for display, and the term that shows its approximate value. -/
def simplifyAndApproximate (s : Reduction.Settings) (definitions : Definitions) (t : Term) :
    Build (Term × Term) := do
  let exact ← Reduction.reduce s.forDisplay definitions t
  let approximate ← (exact.approximate s.forDisplay []).toTerm s.complexFormat
  pure (exact, approximate)

/-- An approximate text, its decimals read as exact numbers, denotes the exact term: their
    difference reduces to zero. -/
def exactEqualsText (s : Reduction.Settings) (definitions : Definitions) (exact : Term)
    (text : String) : Build Bool := do
  match ← parseExpression text with
  | .error _ => pure false
  | .ok read =>
    let difference ← Build.difference exact read
    let reduced ← Reduction.reduce s.forDisplay definitions difference
    pure reduced.isZero

end EquationSolver
