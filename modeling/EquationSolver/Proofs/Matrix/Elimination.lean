import EquationSolver.Proofs.Matrix.Rows
import Mathlib.Logic.Relation

/-!
# Elimination column by column

Elimination passes through states: the rows, how many of them have a pivot so far, and the
column that comes next.  Every state is regular, whatever the verdicts on entries are: the
rows keep their number and their width, and a pivot stays the one that it was made.  That
the rows behind the pivots are known to be zero is another matter, since an entry that has
been cleared need not be recognised as zero.
-/

namespace EquationSolver

open Reduction (Settings)
open SymbolicMatrix

/-- Where an elimination stands. -/
structure Elimination where
  rows : List (List Term)
  place : Nat
  column : Nat

namespace Elimination

variable {s : Settings} {rowCount columns : Nat} {e e' : Elimination}

/-- The state before the first column. -/
def start (rows : List (List Term)) : Elimination := ⟨rows, 0, 0⟩

/-- Elimination passes a column, with or without a pivot in it. -/
inductive Step (s : Settings) (columns : Nat) : Elimination → Elimination → Prop
  | skip {rows : List (List Term)} {place column : Nat} (hrow : place < rows.length)
      (hcolumn : column < columns) (hpivot : findPivot? s rows place column = none) :
      Step s columns ⟨rows, place, column⟩ ⟨rows, place, column + 1⟩
  | pivot {rows : List (List Term)} {place column pivot : Nat} (hrow : place < rows.length)
      (hcolumn : column < columns) (hpivot : findPivot? s rows place column = some pivot) :
      Step s columns ⟨rows, place, column⟩
        ⟨(eliminateColumn s place pivot column rows).value, place + 1, column + 1⟩

/-- Elimination passes any number of columns. -/
abbrev Run (s : Settings) (columns : Nat) : Elimination → Elimination → Prop :=
  Relation.ReflTransGen (Step s columns)

/-- Elimination ends when no row without a pivot is left, or no column. -/
def IsFinished (columns : Nat) (e : Elimination) : Prop :=
  e.rows.length ≤ e.place ∨ e.column = columns

/-- What elimination computes is a state that it comes to and ends with. -/
theorem run_eliminate (left : Nat) (e : Elimination) (h : e.column + left = columns) :
    ∃ column, Run s columns e
        ⟨(eliminate s left e.place e.column e.rows).value.1,
          (eliminate s left e.place e.column e.rows).value.2, column⟩ ∧
      IsFinished columns
        ⟨(eliminate s left e.place e.column e.rows).value.1,
          (eliminate s left e.place e.column e.rows).value.2, column⟩ := by
  induction left generalizing e with
  | zero => exact ⟨e.column, .refl, .inr h⟩
  | succ left ih =>
    obtain ⟨rows, place, column⟩ := e
    dsimp only at h ⊢
    unfold eliminate
    by_cases hend : rows.length ≤ place
    · rw [if_pos hend]
      exact ⟨column, .refl, .inl hend⟩
    · rw [if_neg hend]
      split
      case h_1 hpivot =>
        obtain ⟨last, hrun, hfinished⟩ := ih ⟨rows, place, column + 1⟩ (by dsimp only; omega)
        exact ⟨last, .head (.skip (by omega) (by omega) hpivot) hrun, hfinished⟩
      case h_2 pivot hpivot =>
        obtain ⟨last, hrun, hfinished⟩ := ih
          ⟨(eliminateColumn s place pivot column rows).value, place + 1, column + 1⟩
          (by dsimp only; omega)
        exact ⟨last, .head (.pivot (by omega) (by omega) hpivot) hrun, hfinished⟩

/-! ### Regular states -/

/-- Two rows agree up to a column. -/
def AgreeBefore (column : Nat) (row row' : List Term) : Prop :=
  ∀ j < column, row[j]? = row'[j]?

/-- The row in a place has a pivot in a column.  Since every pivot stands in a column of its
    own, as many columns lie before it as rows above it, at least, and as many columns
    passed behind it as rows below it that have a pivot. -/
structure HasPivot (e : Elimination) (i j : Nat) (row : List Term) : Prop where
  row_eq : e.rows[i]? = some row
  one_eq : row[j]? = some .one
  le : i ≤ j
  le_column : j + e.place ≤ e.column + i

/-- A state with rows of the right number and width, some of which have a pivot. -/
structure IsRegular (rowCount columns : Nat) (e : Elimination) : Prop where
  length_rows : e.rows.length = rowCount
  width : HasWidth columns e.rows
  place_le : e.place ≤ rowCount
  place_le_column : e.place ≤ e.column
  column_le : e.column ≤ columns
  pivots : ∀ i < e.place, ∃ j row, e.HasPivot i j row

theorem isRegular_start {rows : List (List Term)} (h : HasWidth columns rows) :
    (start rows).IsRegular rows.length columns where
  length_rows := rfl
  width := h
  place_le := Nat.zero_le _
  place_le_column := Nat.le_refl 0
  column_le := Nat.zero_le columns
  pivots := fun i hi => absurd hi (Nat.not_lt_zero i)

/-- The rows of a state have the right number and width, and a pivot is found among those that
    have none so far. -/
structure InRange (s : Settings) (rowCount columns : Nat) (e : Elimination) : Prop where
  regular : e.IsRegular rowCount columns
  pivot_lt : ∀ pivot, findPivot? s e.rows e.place e.column = some pivot →
    e.place ≤ pivot ∧ pivot < rowCount

theorem IsRegular.inRange (h : e.IsRegular rowCount columns) (s : Settings) :
    e.InRange s rowCount columns where
  regular := h
  pivot_lt := fun pivot hpivot => by
    have hfound := lt_of_findPivot? hpivot
    rw [h.length_rows] at hfound
    exact hfound

/-! ### What a step keeps -/

namespace Step

theorem column_eq (h : Step s columns e e') : e'.column = e.column + 1 := by
  cases h <;> rfl

theorem column_lt (h : Step s columns e e') : e.column < columns := by
  cases h <;> assumption

theorem place_lt (h : Step s columns e e') : e.place < e.rows.length := by
  cases h <;> assumption

theorem place_cases (h : Step s columns e e') :
    e'.place = e.place ∨ e'.place = e.place + 1 := by
  cases h
  case skip => exact .inl rfl
  case pivot => exact .inr rfl

theorem length_rows (h : Step s columns e e') : e'.rows.length = e.rows.length := by
  cases h
  case skip => rfl
  case pivot hrow hcolumn hpivot =>
    obtain ⟨hplace, hlength⟩ := lt_of_findPivot? hpivot
    exact length_eliminateColumn hplace hlength s _

theorem width (h : Step s columns e e') (hwidth : HasWidth columns e.rows) :
    HasWidth columns e'.rows := by
  cases h
  case skip => exact hwidth
  case pivot hrow hcolumn hpivot =>
    obtain ⟨hplace, hlength⟩ := lt_of_findPivot? hpivot
    exact hasWidth_eliminateColumn hplace hlength hwidth hcolumn

/-- Rows with a pivot stay in their place, and stay as they are up to the column. -/
theorem above (h : Step s columns e e') (hwidth : HasWidth columns e.rows) {i : Nat}
    (hi : i < e.place) {row : List Term} (hrow : e.rows[i]? = some row) :
    ∃ row', e'.rows[i]? = some row' ∧ AgreeBefore e.column row' row := by
  cases h
  case skip => exact ⟨row, hrow, fun _ _ => rfl⟩
  case pivot rows place column pivot _ hcolumn hpivot =>
    obtain ⟨hplace, hlength⟩ := lt_of_findPivot? hpivot
    have hrowLength := hwidth.getElem? hrow
    have hpivotRow : (pivotRowOf s place pivot column rows).length = row.length := by
      rw [length_pivotRowOf hplace hlength hwidth hcolumn, hrowLength]
    refine ⟨(clearRow s column (pivotRowOf s place pivot column rows) row).value, ?_, ?_⟩
    · dsimp only at hrow ⊢
      rw [getElem?_eliminateColumn_of_lt hplace hlength s column hi, hrow]
      rfl
    · intro j hj
      exact getElem?_clearRow_of_lt s hpivotRow (by omega) hj

/-- A row that gets a pivot comes from one that had none. -/
theorem new (h : Step s columns e e') (hwidth : HasWidth columns e.rows)
    (hplace : e'.place = e.place + 1) :
    ∃ k before row, e.place ≤ k ∧ e.rows[k]? = some before ∧ e'.rows[e.place]? = some row ∧
      row[e.column]? = some .one ∧ AgreeBefore e.column row before := by
  cases h
  case skip => exact absurd hplace (by dsimp only; omega)
  case pivot rows place column pivot _ hcolumn hpivot =>
    obtain ⟨hle, hlength⟩ := lt_of_findPivot? hpivot
    obtain ⟨before, hbefore, hvalue⟩ := pivotRowOf_eq hle hlength s column
    have hcolumn' : column < before.length := by
      rw [hwidth.getElem? hbefore]
      exact hcolumn
    refine ⟨pivot, before, pivotRowOf s place pivot column rows, hle, hbefore,
      getElem?_eliminateColumn_place hle hlength s column, ?_, ?_⟩
    · rw [hvalue]
      exact getElem?_normalizeRow_self s hcolumn'
    · intro j hj
      rw [hvalue]
      exact getElem?_normalizeRow_of_lt s hcolumn' hj

/-- A row without a pivot comes from one that had none. -/
theorem below (h : Step s columns e e') (hwidth : HasWidth columns e.rows) {i : Nat}
    (hi : e'.place ≤ i) {row : List Term} (hrow : e'.rows[i]? = some row) :
    ∃ k before, e.place ≤ k ∧ e.rows[k]? = some before ∧ AgreeBefore e.column row before := by
  cases h
  case skip => exact ⟨i, row, hi, hrow, fun _ _ => rfl⟩
  case pivot rows place column pivot _ hcolumn hpivot =>
    obtain ⟨hle, hlength⟩ := lt_of_findPivot? hpivot
    obtain ⟨k, before, hk, -, hbefore, rfl⟩ :=
      exists_of_getElem?_eliminateColumn hle hlength (Nat.lt_of_succ_le hi) hrow
    have hbeforeLength := hwidth.getElem? hbefore
    have hpivotRow : (pivotRowOf s place pivot column rows).length = before.length := by
      rw [length_pivotRowOf hle hlength hwidth hcolumn, hbeforeLength]
    refine ⟨k, before, hk, hbefore, fun j hj => ?_⟩
    exact getElem?_clearRow_of_lt s hpivotRow (by omega) hj

end Step

/-- A pivot stays where it is. -/
theorem HasPivot.step {i j : Nat} {row : List Term} (h : e.HasPivot i j row)
    (hstep : Step s columns e e') (hwidth : HasWidth columns e.rows) (hi : i < e.place) :
    ∃ row', e'.HasPivot i j row' ∧ AgreeBefore e.column row' row := by
  obtain ⟨row', hrow', hagree⟩ := hstep.above hwidth hi h.row_eq
  have hj := h.le_column
  have hcolumn := hstep.column_eq
  have hplace := hstep.place_cases
  refine ⟨row', ⟨hrow', ?_, h.le, by omega⟩, hagree⟩
  rw [hagree j (by omega), h.one_eq]

theorem IsRegular.step (h : e.IsRegular rowCount columns) (hstep : Step s columns e e') :
    e'.IsRegular rowCount columns := by
  have hcolumn := hstep.column_eq
  have hcolumnLt := hstep.column_lt
  have hplaceLt := hstep.place_lt
  have hlength := h.length_rows
  have hplace := h.place_le_column
  constructor
  case length_rows => rw [hstep.length_rows, hlength]
  case width => exact hstep.width h.width
  case place_le => rcases hstep.place_cases with heq | heq <;> omega
  case place_le_column => rcases hstep.place_cases with heq | heq <;> omega
  case column_le => omega
  case pivots =>
    intro i hi
    by_cases hold : i < e.place
    · obtain ⟨j, row, hpivot⟩ := h.pivots i hold
      obtain ⟨row', hpivot', -⟩ := hpivot.step hstep h.width hold
      exact ⟨j, row', hpivot'⟩
    · -- the row is the one that got its pivot in this step
      have hnew : e'.place = e.place + 1 := by rcases hstep.place_cases with heq | heq <;> omega
      obtain rfl : i = e.place := by omega
      obtain ⟨-, -, row, -, -, hrow, hone, -⟩ := hstep.new h.width hnew
      exact ⟨e.column, row, hrow, hone, hplace, by omega⟩

theorem IsRegular.run (h : e.IsRegular rowCount columns) (hrun : Run s columns e e') :
    e'.IsRegular rowCount columns := by
  induction hrun with
  | refl => exact h
  | tail _ hstep ih => exact ih.step hstep

/-! ### Cleared states -/

/-- The entries of a row up to a column are known to be zero. -/
def IsZeroBefore (s : Settings) (column : Nat) (row : List Term) : Prop :=
  ∀ j < column, (entryAt row j).nullity s = .yes

theorem IsZeroBefore.of_agree {column : Nat} {row row' : List Term}
    (h : IsZeroBefore s column row) (hagree : AgreeBefore column row' row) :
    IsZeroBefore s column row' := by
  intro j hj
  rw [entryAt_congr (hagree j hj)]
  exact h j hj

/-- A step leaves zeros when the entries of its column in the rows without a pivot are known
    to be zero afterwards. -/
def LeavesZeros (s : Settings) (e e' : Elimination) : Prop :=
  ∀ i row, e'.place ≤ i → e'.rows[i]? = some row → (entryAt row e.column).nullity s = .yes

/-- The steps of an elimination through the first columns leave zeros. -/
def Clears (s : Settings) (columns first : Nat) (e : Elimination) : Prop :=
  ∀ e' e'', Run s columns e e' → Step s columns e' e'' → e'.column < first →
    LeavesZeros s e' e''

/-- The rows without a pivot are known to be zero up to the column that comes next. -/
def IsCleared (s : Settings) (e : Elimination) : Prop :=
  ∀ i row, e.place ≤ i → e.rows[i]? = some row → IsZeroBefore s e.column row

theorem isCleared_start (s : Settings) (rows : List (List Term)) : (start rows).IsCleared s :=
  fun _ _ _ _ j hj => absurd hj (Nat.not_lt_zero j)

theorem IsCleared.step (h : e.IsCleared s) (hwidth : HasWidth columns e.rows)
    (hstep : Step s columns e e') (hzeros : LeavesZeros s e e') : e'.IsCleared s := by
  have hcolumn := hstep.column_eq
  intro i row hi hrow j hj
  by_cases hlast : j = e.column
  · subst hlast
    exact hzeros i row hi hrow
  · obtain ⟨k, before, hk, hbefore, hagree⟩ := hstep.below hwidth hi hrow
    exact (h k before hk hbefore).of_agree hagree j (by omega)

theorem IsCleared.run {first : Nat} (h : e.IsCleared s) (hregular : e.IsRegular rowCount columns)
    (hclears : Clears s columns first e) (hrun : Run s columns e e') (hfirst : e'.column ≤ first) :
    e'.IsCleared s := by
  induction hrun with
  | refl => exact h
  | tail hrun hstep ih =>
    have hcolumn := hstep.column_eq
    exact (ih (by omega)).step (hregular.run hrun).width hstep
      (hclears _ _ hrun hstep (by omega))

/-- When elimination has left zeros before a column, the row of the pivot found there is known
    to be zero up to the pivot. -/
theorem Clears.exists_row {first : Nat} (hclears : Clears s columns first e)
    (hcleared : e.IsCleared s) (hregular : e.IsRegular rowCount columns)
    (hrun : Run s columns e e') (hstart : e.place ≤ first) (hplace : e'.place = first + 1)
    (hcolumn : e'.column = first + 1) :
    ∃ row, e'.rows[first]? = some row ∧ row[first]? = some .one ∧ IsZeroBefore s first row := by
  rcases hrun.cases_tail with rfl | ⟨last, hrunLast, hstep⟩
  · omega
  · have hlast := hregular.run hrunLast
    have hlastColumn := hstep.column_eq
    have hlastPlace := hlast.place_le_column
    have hnew : e'.place = last.place + 1 := by
      rcases hstep.place_cases with heq | heq <;> omega
    obtain rfl : first = last.place := by omega
    obtain ⟨k, before, row, hk, hbefore, hrow, hone, hagree⟩ := hstep.new hlast.width hnew
    have heq : last.column = last.place := by omega
    have hzero : IsZeroBefore s last.column before :=
      hcleared.run hregular hclears hrunLast (by omega) k before hk hbefore
    rw [heq] at hone hagree hzero
    exact ⟨row, hrow, hone, hzero.of_agree hagree⟩

end Elimination

end EquationSolver
