import EquationSolver.Polynomial.Roots
import EquationSolver.Solver.Equations
import EquationSolver.Solver.Linear
import EquationSolver.Solver.Settings
import EquationSolver.Solver.Solution

/-!
# Attempts at a system

An attempt reads the equations of a system once, with defined symbols either replaced by
their values or kept as unknowns, recognises what kind of system it is and solves it:
first as a linear system and then, for one equation in one unknown, as a polynomial of
degree two or three.  Anything else in one unknown is left to a numeric search.
-/

namespace EquationSolver

inductive SystemKind where
  | linear
  /-- One polynomial equation of degree two or three in one unknown. -/
  | polynomial (degree : Nat)
  /-- One equation in one unknown without a closed form, and where to search for roots. -/
  | general (unknown : String) (interval : Interval Float)
deriving Repr

/-- What is known about a system after an attempt. -/
structure Attempt (ν : Type) where
  /-- Defined symbols are unknowns. -/
  keepsDefined : Bool
  /-- The complex format, which the imaginary unit in an equation widens. -/
  complexFormat : ComplexFormat
  kind : Option SystemKind := none
  unknowns : VariableSet String := {}
  /-- The defined symbols that the equations mention. -/
  userVariables : VariableSet String := {}
  hasMore : Bool := false
  registry : SolutionRegistry ν := {}

structure Attempted (ν : Type) where
  attempt : Attempt ν
  result : SolveResult

variable {ν μ : Type}

/-- Refer to the same terms in another way. -/
def Attempt.map (f : ν → μ) (attempt : Attempt ν) : Attempt μ :=
  { attempt with registry := attempt.registry.map f }

namespace Attempt

open Reduction (Settings)

/-! ### Settings -/

def reduction (attempt : Attempt ν) (preferences : Preferences) (target : ReductionTarget) :
    Settings :=
  { Settings.ofPreferences preferences target with
    complexFormat := attempt.complexFormat
    symbols := .ofOverride attempt.keepsDefined }

def displayPolicy (preferences : Preferences) (settings : SolverSettings) : DisplayPolicy :=
  ⟨preferences.significantDigits, settings.maxExactLength⟩

/-! ### Reading equations -/

/-- An equation whose sides reduce to the given form can be solved unless the form is
    undefined, is not real or mentions a matrix. -/
def checkForm (form : Term) : Except SolverError Unit :=
  match form with
  | .undefined => .error .equationUndefined
  | .nonreal => .error .equationNonreal
  | form => if form.containsMatrix then .error .equationUndefined else .ok ()

/-- Add the unknowns of a standard form and widen the complex format to it. -/
def addForm (attempt : Attempt ν) (form : Term) : Attempt ν × Except SolverError Term :=
  match checkForm form with
  | .error e => (attempt, .error e)
  | .ok () =>
    let (unknowns, overflow) := VariableSet.collect (fun _ => true) attempt.unknowns form
    let attempt :=
      { attempt with complexFormat := attempt.complexFormat.updatedFor form, unknowns }
    (attempt, if overflow.isSome then .error .tooManyVariables else .ok form)

/-- Bring an equation to standard form, and take note of the unknowns and the defined
    symbols in it. -/
def readEquation (preferences : Preferences) (definitions : Definitions) (attempt : Attempt ν)
    (left right : Term) : Build (Attempt ν × Except SolverError Term) := do
  let s := attempt.reduction preferences .analysis
  let kept ← standardForm { s with symbols := .keepAll } definitions left right
  let isDefined (name : String) : Bool := (definitions.lookup name).isSome
  let (userVariables, _) := VariableSet.collect isDefined attempt.userVariables kept
  let form ←
    if attempt.keepsDefined then pure kept else standardForm s definitions left right
  pure (addForm { attempt with userVariables } form)

/-- Read equations up to the first that cannot be solved.  A side that is no longer in the
    pool is only missed when its turn comes. -/
def readEquations (preferences : Preferences) (attempt : Attempt ν) (context : Context) :
    List StoredEquation → Except Fault ((Attempt ν × Except SolverError (List Term)) × Context)
  | [] => .ok ((attempt, .ok []), context)
  | equation :: rest => do
    let left ← context.pool.get equation.left
    let right ← context.pool.get equation.right
    let ((attempt, form), context) :=
      context.record (readEquation preferences context.definedTerms attempt left right)
    match form with
    | .error e => .ok ((attempt, .error e), context)
    | .ok form => do
      let ((attempt, forms), context) ← readEquations preferences attempt context rest
      .ok ((attempt, forms.map (form :: ·)), context)

/-! ### Solving -/

variable (preferences : Preferences) (settings : SolverSettings) (definitions : Definitions)

/-- Register terms as solutions for display; the first that is refused is the result. -/
def registerAll (attempt : Attempt Term) (s : Settings) (type : SolutionType)
    (terms : List Term) : CheckedBuild (Attempted Term) := do
  let (registry, refusal) ← attempt.registry.addTerms s definitions
    (displayPolicy preferences settings) type terms
  pure ⟨{ attempt with registry }, match refusal with
    | some e => .error e
    | none => .ok .solved⟩

def solveRows (attempt : Attempt Term) (rows : List (List Term)) :
    CheckedBuild (Attempted Term) := do
  let linear := { attempt with kind := some .linear, hasMore := false }
  let underdetermined := { linear with hasMore := true }
  let user := attempt.reduction preferences .user
  match ← Linear.solve (attempt.reduction preferences) definitions
      attempt.unknowns.items.length rows with
  | .undefined => pure ⟨linear, .error .equationUndefined⟩
  | .inconsistent => pure ⟨linear, .ok .solved⟩
  | .unique values => linear.registerAll preferences settings definitions user .exact values
  | .unresolved => pure ⟨underdetermined, .error .equationUndefined⟩
  | .parametric values =>
    underdetermined.registerAll preferences settings definitions
      { user with symbols := .keepAll } .formal values

/-- Solve standard forms as a linear system, if they are one. -/
def solveLinear (attempt : Attempt Term) (forms : List Term) :
    CheckedBuild (Attempted Term) := do
  match ← (Linear.augmentedRows (attempt.reduction preferences .analysis)
      attempt.unknowns.items forms : Build _) with
  | none => pure ⟨attempt, .error .nonlinearSystem⟩
  | some rows => solveRows preferences settings definitions attempt rows

/-- The roots of a standard form in closed form, if it is a polynomial of degree two or
    three in the unknown.  They come with the degree. -/
def closedRoots (s : Settings) (unknown : String) (form : Term) :
    Build (Option (Nat × PolynomialRoots)) :=
  match Coefficients.polynomial? s unknown form with
  | none => pure none
  | some coefficients => do
    match ← coefficients with
    | [c, b, a] =>
      let roots ← Roots.ofQuadratic s a b c
      pure (some (2, roots))
    | [d, c, b, a] =>
      let roots ← Roots.ofCubic s ⟨a, b, c, d⟩
      pure (some (3, roots))
    | _ => pure none

/-- The discriminant as it is registered: numeric when the roots are. -/
def shownDiscriminant (s : Settings) (roots : PolynomialRoots) : Build Term :=
  if roots.isApproximate then (roots.delta.approximate s []).toTerm s.complexFormat
  else pure roots.delta

def registerRoots (attempt : Attempt Term) (roots : PolynomialRoots) :
    CheckedBuild (Attempted Term) := do
  let user := attempt.reduction preferences .user
  let type : SolutionType := if roots.isApproximate then .approximate else .exact
  let found ← attempt.registerAll preferences settings definitions user type roots.roots
  match found.result with
  | .error _ => pure found
  | .ok _ => do
    let delta ← (shownDiscriminant user roots : Build Term)
    found.attempt.registerAll preferences settings definitions user type [delta]

/-- Solve one standard form in one unknown by the closed formulas; without one, a numeric
    search is to follow. -/
def solvePolynomial (attempt : Attempt Term) (unknown : String) (form : Term) :
    CheckedBuild (Attempted Term) := do
  match ← (closedRoots (attempt.reduction preferences .analysis) unknown form : Build _) with
  | some (degree, roots) =>
    let polynomial := { attempt with kind := some (.polynomial degree) }
    polynomial.registerRoots preferences settings definitions roots
  | none =>
    let general := { attempt with kind := some (.general unknown settings.interval) }
    pure ⟨general, .ok .needsApproximation⟩

/-- Solve standard forms as a linear system, and otherwise as one equation in one
    unknown. -/
def solveForms (attempt : Attempt Term) (forms : List Term) :
    CheckedBuild (Attempted Term) := do
  let linear ← attempt.solveLinear preferences settings definitions forms
  match linear.result, attempt.unknowns.items, forms with
  | .error .nonlinearSystem, [unknown], [form] =>
    linear.attempt.solvePolynomial preferences settings definitions unknown form
  | _, _, _ => pure linear

end Attempt

/-! ### Whole attempts -/

/-- Keep what a checked construction built, unless it came to a fault. -/
def Context.recordChecked {α : Type} (context : Context) (b : CheckedBuild α) :
    Except Fault (α × Context) :=
  let (result, context) := context.record b.run
  result.map fun a => (a, context)

/-- Solve the equations of a store, with defined symbols kept as unknowns or replaced.  The
    solutions refer to the terms of the pool. -/
def Attempted.ofStore (preferences : Preferences) (settings : SolverSettings)
    (keepsDefined : Bool) (store : EquationStore) (context : Context) :
    Except Fault (Attempted Handle × Context) := do
  let fresh : Attempt Term := { keepsDefined, complexFormat := preferences.complexFormat }
  let ((attempt, forms), context) ←
    fresh.readEquations preferences context store.equations
  match forms with
  | .error e => .ok (⟨attempt.map context.pool.handleOf, .error e⟩, context)
  | .ok forms => do
    let (found, context) ←
      context.recordChecked
        (attempt.solveForms preferences settings context.definedTerms forms)
    .ok (⟨found.attempt.map context.pool.handleOf, found.result⟩, context)

end EquationSolver
