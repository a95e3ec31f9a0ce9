import EquationSolver.Context
import EquationSolver.StandardForm
import EquationSolver.Term.Content
import EquationSolver.Term.Printer
import EquationSolver.Variables

/-!
# Solutions

A system may be solved, need a numeric search, or have no answer for a reason that an error
names.  A solution shows a value exactly and approximately, as far as either is worth
showing.  A registry is a bounded list of solutions in the order in which they were
accepted: values that are not real are passed over, undefined ones are refused unless they
depend on parameters.
-/

namespace EquationSolver

/-! ### Outcomes of solving -/

inductive SolverError where
  /-- An equation has an undefined value or mentions a matrix. -/
  | equationUndefined
  | equationNonreal
  | tooManyVariables
  /-- There are several equations or unknowns, and not all equations are linear. -/
  | nonlinearSystem
  /-- A numeric search was asked for something else than one general equation in one
      unknown. -/
  | approximationUnavailable
deriving DecidableEq, Repr

def SolverError.message : SolverError → String
  | equationUndefined => "an equation is undefined"
  | equationNonreal => "an equation is not real"
  | tooManyVariables => "too many variables"
  | nonlinearSystem => "the system is not linear"
  | approximationUnavailable => "the system cannot be solved numerically"

inductive Outcome where
  | solved
  | needsApproximation
deriving DecidableEq, Repr

abbrev SolveResult := Except SolverError Outcome

/-! ### Solutions -/

def maxPolynomialDegree : Nat := 3

def maxApproximateSolutions : Nat := 10

/-- The room of a registry, with one place in reserve: the unknowns of a linear system, the
    roots of a polynomial with its discriminant, or the roots of a numeric search. -/
def maxSolutions : Nat :=
  max (max maxVariables (maxPolynomialDegree + 1)) maxApproximateSolutions + 1

inductive SolutionType where
  | exact
  | formal
  | approximate
deriving DecidableEq, Repr

structure Layout (ν : Type) where
  node : ν
  text : String
deriving DecidableEq, Repr

/-- A solution of a system, which refers to terms by `ν`. -/
structure Solution (ν : Type) where
  /-- The exact form, when it is worth displaying. -/
  exact : Option (Layout ν) := none
  approximate : Option (Layout ν) := none
  /-- The real value, and no number when there is no single real value. -/
  value : Float := 0 / 0
  /-- The text of the approximate form denotes the exact value. -/
  formsAgree : Bool := false
  type : SolutionType := .exact

structure DisplayPolicy where
  significantDigits : Nat
  maxExactLength : Nat
deriving DecidableEq, Repr

variable {ν μ : Type}

/-- Refer to the same term in another way. -/
def Layout.map (f : ν → μ) (layout : Layout ν) : Layout μ :=
  ⟨f layout.node, layout.text⟩

namespace Solution

def map (f : ν → μ) (solution : Solution ν) : Solution μ :=
  { solution with
    exact := solution.exact.map (Layout.map f)
    approximate := solution.approximate.map (Layout.map f) }

def layouts (solution : Solution ν) : List (Layout ν) :=
  solution.exact.toList ++ solution.approximate.toList

/-! ### Forms of a term -/

def layout (policy : DisplayPolicy) (t : Term) : Layout Term :=
  ⟨t, t.text policy.significantDigits⟩

/-- The layout of an exact form, unless it holds decimals or is too long. -/
def exactLayout? (policy : DisplayPolicy) (t : Term) : Option (Layout Term) :=
  let layout := layout policy t
  if t.containsDecimal || policy.maxExactLength < layout.text.length then none
  else some layout

/-- The exact form of a term, if there is one, and the approximate one.  The term of a
    numeric value is its own approximate form. -/
def forms (s : Reduction.Settings) (definitions : Definitions) (type : SolutionType)
    (t : Term) : Build (Option Term × Term) :=
  match type with
  | .approximate => pure (none, t)
  | _ => do
    let (exact, approximate) ← simplifyAndApproximate s definitions t
    pure (some exact, approximate)

/-- Leave out the exact layout of a closed form when it reads the same as the approximate
    one; otherwise tell whether the approximate text denotes the exact value. -/
def compareLayouts (s : Reduction.Settings) (definitions : Definitions) (type : SolutionType)
    (exact approximate : Option (Layout Term)) : Build (Option (Layout Term) × Bool) :=
  match type, exact, approximate with
  | .exact, some exact, some approximate =>
    if exact.text = approximate.text then pure (none, false)
    else do
      let agree ← exactEqualsText s definitions exact.node approximate.text
      pure (some exact, agree)
  | _, exact, _ => pure (exact, false)

def ofForms (s : Reduction.Settings) (definitions : Definitions) (policy : DisplayPolicy)
    (type : SolutionType) (exact : Option Term) (approximate : Term) :
    Build (Solution Term) := do
  let approximateLayout := if type = .formal then none else some (layout policy approximate)
  let (exactLayout, formsAgree) ←
    compareLayouts s definitions type (exact.bind (exactLayout? policy)) approximateLayout
  let value := if type = .formal then 0 / 0 else (approximate.approximate s []).toDouble
  pure { exact := exactLayout, approximate := approximateLayout, value, formsAgree, type }

/-- The solution that a term is, or none for a value that is not real. -/
def ofTerm? (s : Reduction.Settings) (definitions : Definitions) (policy : DisplayPolicy)
    (type : SolutionType) (t : Term) : Build (Except SolverError (Option (Solution Term))) := do
  let (exact, approximate) ← forms s definitions type t
  match approximate with
  | .nonreal => pure (.ok none)
  | approximate =>
    if approximate matches .undefined && type ≠ .formal then pure (.error .equationUndefined)
    else
      let solution ← ofForms s definitions policy type exact approximate
      pure (.ok (some solution))

end Solution

/-! ### The registry -/

structure SolutionRegistry (ν : Type) where
  solutions : List (Solution ν) := []

namespace SolutionRegistry

def map (f : ν → μ) (registry : SolutionRegistry ν) : SolutionRegistry μ :=
  ⟨registry.solutions.map (Solution.map f)⟩

/-- Append a solution, if there is one.  The place in reserve stays free. -/
def add (registry : SolutionRegistry ν) (solution : Option (Solution ν)) :
    Except Fault (SolutionRegistry ν) :=
  match solution with
  | none => .ok registry
  | some solution =>
    if registry.solutions.length < maxSolutions - 1 then
      .ok ⟨registry.solutions ++ [solution]⟩
    else .error .registryOverflow

def addTerm (registry : SolutionRegistry Term) (s : Reduction.Settings)
    (definitions : Definitions) (policy : DisplayPolicy) (type : SolutionType) (t : Term) :
    CheckedBuild (Except SolverError (SolutionRegistry Term)) := do
  match ← (Solution.ofTerm? s definitions policy type t : Build _) with
  | .error e => pure (.error e)
  | .ok solution =>
    let registry ← registry.add solution
    pure (.ok registry)

/-- Append the solutions that terms are, up to the first that is refused. -/
def addTerms (registry : SolutionRegistry Term) (s : Reduction.Settings)
    (definitions : Definitions) (policy : DisplayPolicy) (type : SolutionType) :
    List Term → CheckedBuild (SolutionRegistry Term × Option SolverError)
  | [] => pure (registry, none)
  | t :: ts => do
    match ← registry.addTerm s definitions policy type t with
    | .error e => pure (registry, some e)
    | .ok registry => addTerms registry s definitions policy type ts

def register (registry : SolutionRegistry Handle) (context : Context) (s : Reduction.Settings)
    (policy : DisplayPolicy) (type : SolutionType) (t : Term) :
    Except Fault (Except SolverError (SolutionRegistry Handle) × Context) :=
  let (solution, context) :=
    context.record (Solution.ofTerm? s context.definedTerms policy type t)
  match solution with
  | .error e => .ok (.error e, context)
  | .ok solution => do
    let registry ← registry.add (solution.map (Solution.map context.pool.handleOf))
    pure (.ok registry, context)

/-- Append the solution that a number is, unless it is not finite or there is no room. -/
def addValue (registry : SolutionRegistry ν) (x : Float) : SolutionRegistry ν :=
  if x.isFinite && registry.solutions.length < maxSolutions then
    ⟨registry.solutions ++ [{ value := x, type := .approximate }]⟩
  else registry

/-- Blank the solutions that show a term downstream of a cursor, or all of them when there
    is no cursor. -/
def tidy (registry : SolutionRegistry Handle) (cursor : Option Cursor) :
    SolutionRegistry Handle :=
  let isStale (solution : Solution Handle) : Bool :=
    match cursor with
    | none => true
    | some cursor => solution.layouts.any fun layout => layout.node.isDownstreamOf cursor
  ⟨registry.solutions.map fun solution => if isStale solution then {} else solution⟩

end SolutionRegistry

end EquationSolver
