import EquationSolver.Search.Scanner

/-!
# Settings of a solver

The bounds of the numeric search, the length of exact forms and the settings of the scanner.
-/

namespace EquationSolver

structure SolverSettings where
  interval : Interval Float := ⟨-10, 10⟩
  maxExactLength : Nat := 120
  scanner : ScanSettings Float := .standard

/-- The bounds of a search, the lower one first. -/
def Interval.ofBounds (low high : Float) : Except Fault (Interval Float) :=
  if low ≤ high then .ok ⟨low, high⟩ else .error .emptySearchInterval

def SolverSettings.withBounds (settings : SolverSettings) (low high : Float) :
    Except Fault SolverSettings := do
  let interval ← Interval.ofBounds low high
  pure { settings with interval }

end EquationSolver
