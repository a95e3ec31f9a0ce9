import EquationSolver.Proofs.Polynomial.Linear
import EquationSolver.Proofs.Solver.Answers
import EquationSolver.Proofs.Solver.Dispatch
import EquationSolver.Proofs.Solver.Passes

/-!
# Unknowns and their solutions

A system has a row for each of its forms, with the coefficients of the unknowns in their order.
Elimination, and pins where there are fewer pivots than unknowns, bring the rows to solved form.
The values of the unknowns are read off the column of the constants, each in the row in which
its unknown has its pivot, and are listed in the order of the unknowns.  But a value that is
not real is dropped, and then the solutions behind it are listed one place further ahead than
their unknowns: only when none is dropped do the two line up.
-/

namespace EquationSolver

open Reduction (Settings DrawsRoots)
open SymbolicMatrix

/-! ### The rows of a system -/

namespace Linear

section Rows

variable {s : Settings} {names : List String} {form : Term} {forms : List Term}
  {rows : List (List Term)}

variable (K : Type*) [Field K] [CharZero K]

end Rows

/-! ### Where the values are read off -/

variable {settings : ReductionTarget → Settings} {definitions : Definitions} {s : Settings}
  {count rank : Nat} {rows : List (List Term)} {m m' : SymbolicMatrix} {values : List Term}

end Linear

/-! ### What is listed for a store -/

namespace EquationSystem

end EquationSystem

/-! ### A value that is dropped -/

namespace EquationSystem

end EquationSystem

end EquationSolver
