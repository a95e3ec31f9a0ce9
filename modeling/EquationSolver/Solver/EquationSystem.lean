import EquationSolver.Solver.Attempt

/-!
# Systems of equations

A system keeps what the last solve found out about the equations of a store.  An exact
solve first replaces the symbols that the user has defined by their values; when that finds
no solution, the system is solved again with those symbols as unknowns.  Where no closed
form exists, a numeric search looks for roots in an interval.
-/

namespace EquationSolver

structure EquationSystem where
  settings : SolverSettings
  attempt : Attempt Handle
  lastResult : Option SolveResult := none

namespace EquationSystem

/-- A system that has not been solved. -/
def unsolved (preferences : Preferences) (settings : SolverSettings) : EquationSystem :=
  { settings, attempt := { keepsDefined := false, complexFormat := preferences.complexFormat } }

/-! ### Exact solutions -/

def isSettled (found : Attempted Handle) : Bool :=
  found.result matches .ok .solved && !found.attempt.registry.solutions.isEmpty

/-- Which of two attempts to adopt: the second, unless it fails after the first has shown
    that there is no solution. -/
def preferred (first second : Attempted Handle) : Attempted Handle :=
  match first.result, second.result with
  | .ok .solved, .error _ => first
  | _, _ => second

def adopt (system : EquationSystem) (found : Attempted Handle) : EquationSystem :=
  { system with attempt := found.attempt, lastResult := some found.result }

/-- Solve the equations of a store exactly.  The result is the last one of the system. -/
def exactSolve (system : EquationSystem) (preferences : Preferences) (store : EquationStore)
    (context : Context) : Except Fault (EquationSystem × Context) := do
  let (first, context) ← Attempted.ofStore preferences system.settings false store context
  if isSettled first then .ok (system.adopt first, context)
  else
    let (second, context) ← Attempted.ofStore preferences system.settings true store context
    .ok (system.adopt (preferred first second), context)

/-! ### Numeric solutions -/

/-- Search for the roots of a form in an interval, in ascending order.  The interval is
    stretched, so that a root at one of its ends lies between samples. -/
def searchRoots (scanner : Scanner Float) (interval : Interval Float) (f : Float → Float) :
    Option (Found Float) :=
  interval.collect? (Scanner.draw f) maxApproximateSolutions scanner.stretch

def withFound (system : EquationSystem) (found : Found Float) : EquationSystem :=
  { system with
    attempt :=
      { system.attempt with
        registry := found.places.foldl SolutionRegistry.addValue {}
        hasMore := found.more } }

/-- Search for the roots of the equation of a system that the last exact solve has found to
    be one general equation in one unknown. -/
def approximateSolve (system : EquationSystem) (preferences : Preferences)
    (store : EquationStore) (context : Context) :
    Unbounded (Except SolverError EquationSystem × Context) :=
  match system.attempt.kind, store.equations with
  | some (.general unknown interval), [equation] => do
    let scanner ← Scanner.start system.settings.scanner interval.low interval.high
    let s := system.attempt.reduction preferences .approximation
    let left ← context.pool.get equation.left
    let right ← context.pool.get equation.right
    let (form, context) := context.record (standardForm s context.definedTerms left right)
    let found ← (searchRoots scanner interval (form.approximateAt s unknown) : Option _)
    pure (.ok (system.withFound found), context)
  | _, _ => pure (.error .approximationUnavailable, context)

/-! ### Other operations -/

/-- Blank the solutions that show a term downstream of a cursor, or all of them when there
    is no cursor. -/
def tidy (system : EquationSystem) (cursor : Option Cursor) : EquationSystem :=
  { system with
    attempt := { system.attempt with registry := system.attempt.registry.tidy cursor } }

def setBounds (system : EquationSystem) (low high : Float) : Except Fault EquationSystem := do
  let settings ← system.settings.withBounds low high
  let kind := match system.attempt.kind with
    | some (.general unknown _) => some (.general unknown settings.interval)
    | kind => kind
  .ok { system with settings, attempt := { system.attempt with kind } }

def degree? (system : EquationSystem) : Option Nat :=
  match system.attempt.kind with
  | some .linear => some 1
  | some (.polynomial degree) => some degree
  | _ => none

def solutions (system : EquationSystem) : List (Solution Handle) :=
  system.attempt.registry.solutions

end EquationSystem

end EquationSolver
