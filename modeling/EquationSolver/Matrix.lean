import EquationSolver.Evaluation.Approximation
import EquationSolver.Fault
import EquationSolver.Reduction.Reduce

/-!
# Matrices of terms

Matrices whose entries are kept in standard form, so that exact cancellations show as exact
zeros.  `rank` brings a matrix to reduced row echelon form by Gauss-Jordan elimination.
A pivot is the first entry of its column that is known to differ from zero, or else the
first one that cannot be decided.
-/

namespace EquationSolver

/-- A matrix of terms; every row has `columns` entries. -/
structure SymbolicMatrix where
  rows : List (List Term)
  columns : Nat
deriving DecidableEq

namespace SymbolicMatrix

/-! ### Construction and access -/

/-- Cut a list into `count` pieces of the same length. -/
def pieces {α : Type} (length : Nat) : Nat → List α → List (List α)
  | 0, _ => []
  | count + 1, items => items.take length :: pieces length count (items.drop length)

def zeros (rows columns : Nat) : Build SymbolicMatrix := do
  let zero ← Build.make .zero
  pure ⟨List.replicate rows (List.replicate columns zero), columns⟩

/-- The matrix of the given rows.  The first row gives the number of columns, and the
    entries of all rows together have to fill the matrix. -/
def ofRows (rows : List (List Term)) : Except Fault SymbolicMatrix :=
  let columns := (rows.headD []).length
  let entries := rows.flatten
  if entries.length = rows.length * columns then
    .ok ⟨pieces columns rows.length entries, columns⟩
  else .error .sizeMismatch

def rowCount (m : SymbolicMatrix) : Nat := m.rows.length

def entries (m : SymbolicMatrix) : List Term := m.rows.flatten

def entry? (m : SymbolicMatrix) (i j : Nat) : Option Term :=
  (m.rows[i]?).bind fun row => row[j]?

/-- The entry of a row in a column; beyond the end of the row there are zeros. -/
def entryAt (row : List Term) (j : Nat) : Term :=
  row.getD j .zero

def row (m : SymbolicMatrix) (i : Nat) : Except Fault (List Term) :=
  match m.rows[i]? with
  | some row => .ok row
  | none => if m.columns = 0 then .ok [] else .error .dangling

def column (m : SymbolicMatrix) (j : Nat) : Except Fault (List Term) :=
  if j < m.columns ∨ m.rows = [] then .ok (m.rows.map fun row => entryAt row j)
  else .error .dangling

def exchange (rows : List (List Term)) (i j : Nat) : List (List Term) :=
  (rows.set i (rows.getD j [])).set j (rows.getD i [])

def swapRows (m : SymbolicMatrix) (i j : Nat) : Except Fault SymbolicMatrix :=
  if i = j ∨ m.columns = 0 then .ok m
  else if i < m.rowCount ∧ j < m.rowCount then .ok { m with rows := exchange m.rows i j }
  else .error .dangling

/-- Append a row, which has to have as many entries as there are columns. -/
def pushRow (m : SymbolicMatrix) (row : List Term) : Except Fault SymbolicMatrix :=
  if row.length = m.columns then .ok { m with rows := m.rows ++ [row] }
  else .error .sizeMismatch

def toTerm (m : SymbolicMatrix) : Build Term :=
  Build.make (.matrix m.rowCount m.columns m.entries)

/-! ### Standard form of the entries -/

def hasUndefined (m : SymbolicMatrix) : Bool :=
  m.entries.any fun t => t matches .undefined

def reduce (s : Reduction.Settings) (definitions : Definitions) (m : SymbolicMatrix) :
    Build SymbolicMatrix := do
  let entries ← Reduction.reduceAll s definitions m.entries
  pure { m with rows := pieces m.columns m.rowCount entries }

/-! ### Elimination -/

/-- The first row from `start` on whose entry in a column is known to differ from zero, or
    else the first whose entry cannot be decided. -/
def findPivot? (s : Reduction.Settings) (rows : List (List Term)) (start column : Nat) :
    Option Nat :=
  let find (verdict : Verdict) :=
    (rows.drop start).findIdx? fun row => (entryAt row column).nullity s = verdict
  ((find .no).or (find .unknown)).map (start + ·)

/-- Divide a row by its pivot, which becomes one. -/
def normalizeRow (s : Reduction.Settings) (column : Nat) (row : List Term) :
    Build (List Term) := do
  let minusOne ← Build.number (-1)
  let one ← Build.make .one
  let inverse ← Reduction.pow s (entryAt row column) minusOne
  let scaled ← Build.each (fun entry => Reduction.mul s [entry, inverse]) (row.drop (column + 1))
  pure (row.take column ++ one :: scaled)

/-- Subtract that multiple of the pivot row from a row which clears its entry in the
    pivot's column, unless the entry is known to be zero. -/
def clearRow (s : Reduction.Settings) (column : Nat) (pivotRow row : List Term) :
    Build (List Term) := do
  let factor := entryAt row column
  if factor.nullity s = .yes then pure row
  else
    let scale ← Reduction.mul s [.number (-1), factor]
    let cleared ← Build.each
      (fun pair => do
        let shift ← Reduction.mul s [scale, pair.2]
        Reduction.add [pair.1, shift])
      ((row.drop column).zip (pivotRow.drop column))
    pure (row.take column ++ cleared)

/-- Bring the row with a pivot to its place, normalise it and clear its column in all
    other rows. -/
def eliminateColumn (s : Reduction.Settings) (place pivot column : Nat)
    (rows : List (List Term)) : Build (List (List Term)) := do
  let rows := exchange rows place pivot
  let pivotRow ← normalizeRow s column (rows.getD place [])
  let above ← Build.each (clearRow s column pivotRow) (rows.take place)
  let below ← Build.each (clearRow s column pivotRow) (rows.drop (place + 1))
  pure (above ++ pivotRow :: below)

/-- Eliminate column after column; `place` rows have a pivot so far.  The result comes
    with the number of pivots. -/
def eliminate (s : Reduction.Settings) :
    Nat → Nat → Nat → List (List Term) → Build (List (List Term) × Nat)
  | 0, place, _, rows => pure (rows, place)
  | columnsLeft + 1, place, column, rows =>
    if rows.length ≤ place then pure (rows, place)
    else
      match findPivot? s rows place column with
      | none => eliminate s columnsLeft place (column + 1) rows
      | some pivot => do
        let rows ← eliminateColumn s place pivot column rows
        eliminate s columnsLeft (place + 1) (column + 1) rows

/-- Bring a matrix to reduced row echelon form and count its pivots.  There is no rank
    when an entry is undefined, at first or in the end. -/
def rank (s : Reduction.Settings) (definitions : Definitions) (m : SymbolicMatrix) :
    Build (SymbolicMatrix × Option Nat) := do
  let reduced ← m.reduce s definitions
  if reduced.hasUndefined then pure (reduced, none)
  else
    let _ ← Build.number (-1)
    let _ ← Build.make .one
    let (rows, pivots) ← eliminate s reduced.columns 0 0 reduced.rows
    let echelon := { reduced with rows }
    pure (echelon, if echelon.hasUndefined then none else some pivots)

/-- The columns of the pivots of a matrix in reduced row echelon form: in each row the
    first that is not known to be zero. -/
def pivotColumns (s : Reduction.Settings) (m : SymbolicMatrix) : List Nat :=
  m.rows.filterMap fun row => row.findIdx? fun t => t.nullity s ≠ .yes

end SymbolicMatrix

end EquationSolver
