import EquationSolver.Matrix
import EquationSolver.Polynomial.Coefficients

/-!
# Linear systems

A linear system is solved by elimination on its augmented matrix, whose last column holds
the constants.  When there are fewer pivots than unknowns, free unknowns are pinned to
parameters, from the last to the first, by a further row each.
-/

namespace EquationSolver

inductive LinearAnswer where
  | undefined
  | inconsistent
  /-- There is one solution, with these values of the unknowns. -/
  | unique (values : List Term)
  /-- There are more solutions than one, but the unknowns could not be expressed by
      parameters. -/
  | unresolved
  /-- There are more solutions than one; the unknowns are expressed by parameters. -/
  | parametric (values : List Term)

namespace Linear

open Reduction (Settings)

/-- The rows of the augmented matrix of equations; none when one of them is not linear. -/
def augmentedRows (s : Settings) (unknowns : List String) :
    List Term → Build (Option (List (List Term)))
  | [] => pure (some [])
  | equation :: rest =>
    match Coefficients.linear? s unknowns equation with
    | none => pure none
    | some build => do
      let (coefficients, constant) ← build
      let opposite ← Build.make (.negation constant)
      let rows ← augmentedRows s unknowns rest
      pure (rows.map fun rows => (coefficients ++ [opposite]) :: rows)

/-- A row of an augmented matrix says that zero is something else: its coefficients are
    known to be zero and its constant is not. -/
def isContradiction (s : Settings) (count : Nat) (row : List Term) : Bool :=
  (row.take count).all (fun t => t.nullity s = .yes)
    && (SymbolicMatrix.entryAt row count).nullity s ≠ .yes

/-- The constants of the first rows: the values of the unknowns once each has a pivot. -/
def values (count : Nat) (m : SymbolicMatrix) : Except Fault (List Term) :=
  (List.range count).mapM fun i =>
    match m.entry? i count with
    | some value => .ok value
    | none => .error .dangling

/-- The name of a parameter: `t`, or `t1`, `t2`, … when there are several. -/
def parameterName (place count : Nat) : String :=
  if count = 1 then "t" else "t" ++ toString place

def freeUnknown? (s : Settings) (count : Nat) (m : SymbolicMatrix) : Option Nat :=
  let pivots := m.pivotColumns s
  (List.range count).reverse.find? fun column => column ∉ pivots

def pinned (count place : Nat) (name : String) (m : SymbolicMatrix) :
    CheckedBuild SymbolicMatrix := do
  let zero ← (Build.make .zero : Build Term)
  let one ← (Build.make .one : Build Term)
  let parameter ← (Build.make (.symbol name) : Build Term)
  m.pushRow ((List.replicate count zero).set place one ++ [parameter])

/-- Pin free unknowns to parameters until each of the `count` unknowns has a pivot.  There
    are `missing` pivots less than that, and `pins` parameters so far out of `parameters`.
    Every pin has to bring a pivot. -/
def pinFree (s : Settings) (definitions : Definitions) (count parameters : Nat) :
    Nat → Nat → Nat → SymbolicMatrix → CheckedBuild (Option SymbolicMatrix)
  | 0, _, _, m => pure (some m)
  | missing + 1, pins, rank, m =>
    if count ≤ rank then pure (some m)
    else
      match freeUnknown? s count m with
      | none => pure none
      | some place => do
        let m ← pinned count place (parameterName (pins + 1) parameters) m
        match ← (m.rank s definitions : Build _) with
        | (_, none) => pure none
        | (m, some next) =>
          if next ≤ rank then pure none
          else pinFree s definitions count parameters missing (pins + 1) next m

def solve (settings : ReductionTarget → Settings) (definitions : Definitions) (count : Nat)
    (rows : List (List Term)) : CheckedBuild LinearAnswer := do
  let augmented ← SymbolicMatrix.ofRows rows
  match ← (augmented.rank (settings .approximation) definitions : Build _) with
  | (_, none) => pure .undefined
  | (m, some rank) =>
    if m.rows.any (isContradiction (settings .approximation) count) then pure .inconsistent
    else if rank = count ∧ 0 < count then do
      let values ← values count m
      pure (.unique values)
    else do
      let parametric := { settings .analysis with symbols := .keepAll }
      let missing := count - rank
      match ← pinFree parametric definitions count missing missing 0 rank m with
      | none => pure .unresolved
      | some m => do
        let values ← values count m
        pure (.parametric values)

end Linear

end EquationSolver
