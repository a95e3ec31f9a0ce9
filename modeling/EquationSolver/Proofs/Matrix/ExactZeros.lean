import EquationSolver.Proofs.Matrix.Numbers

/-!
# Exact zeros

Elimination clears the column of a pivot by adding to each entry the product of its opposite and
the pivot.  Where the sum is the number zero for every entry that is cleared, and no other entry
than the number zero is known to be zero, the matrix that is left is in reduced row echelon form
as it stands: the zeros are numbers, not terms that vanish.  Exact numbers are cleared so.
-/

namespace EquationSolver

open Reduction (Settings)
open SymbolicMatrix

/-! ### Reduced echelon form -/

/-- The matrix is in reduced row echelon form as it stands, with its pivots in these columns. -/
structure SymbolicMatrix.IsReducedEchelon (m : SymbolicMatrix) (pivots : List Nat) : Prop where
  rectangular : m.IsRectangular
  ascending : pivots.Pairwise (· < ·)
  length_le : pivots.length ≤ m.rowCount
  lt_columns : ∀ j ∈ pivots, j < m.columns
  one : ∀ i j : Nat, pivots[i]? = some j → m.entry? i j = some .one
  /-- A row is zero before its pivot. -/
  zero_before : ∀ i j k : Nat, pivots[i]? = some j → k < j → m.entry? i k = some .zero
  /-- A pivot is alone in its column. -/
  zero_beside : ∀ i j k : Nat, pivots[i]? = some j → k ≠ i → k < m.rowCount →
    m.entry? k j = some .zero
  /-- Rows without a pivot are zero. -/
  zero_below : ∀ i j : Nat, pivots.length ≤ i → i < m.rowCount → j < m.columns →
    m.entry? i j = some .zero

/-! ### Entries that are cleared -/

/-- Adding the opposite of a term to it, as a column is cleared, leaves the number zero. -/
def Reduction.Cancels (s : Settings) (t : Term) : Prop :=
  (add [t, (mul s [(mul s [.number (-1), t]).value, .one]).value]).value = .zero

/-- An entry is the number zero once it is cleared, be it that it was known to be zero before or
    that its opposite has been added. -/
def Reduction.IsClearable (s : Settings) (t : Term) : Prop :=
  if t.nullity s = .yes then t = .zero else Cancels s t

theorem Term.IsExact.isClearable {t : Term} (s : Settings) (h : t.IsExact) :
    Reduction.IsClearable s t := by
  obtain ⟨a, rfl⟩ := h
  have hopposite : (Reduction.mul s [.number (-1), .number a]).value = .number (-1 * (a * 1)) :=
    Reduction.mul_numbers s [-1, a]
  have hshift : (Reduction.mul s [.number (-1 * (a * 1)), .one]).value =
      .number (-1 * (a * 1) * (1 * 1)) := Reduction.mul_numbers s [-1 * (a * 1), 1]
  have hsum : (Reduction.add [.number a, .number (-1 * (a * 1) * (1 * 1))]).value =
      .number (a + (-1 * (a * 1) * (1 * 1) + 0)) :=
    Reduction.add_numbers [a, -1 * (a * 1) * (1 * 1)]
  unfold Reduction.IsClearable
  split_ifs with hzero
  · rw [nullity_number_eq_yes_iff.1 hzero]
    rfl
  · rw [Reduction.Cancels, hopposite, hshift, hsum]
    exact congrArg Term.number (by ring)

namespace SymbolicMatrix

variable {s : Settings} {rows : List (List Term)} {row pivotRow : List Term}
  {column place pivot : Nat}

/-- A row is zero in the column that it has been cleared in. -/
theorem entryAt_clearRow_self (hone : pivotRow[column]? = some .one) (hcolumn : column < row.length)
    (hclears : Reduction.IsClearable s (entryAt row column)) :
    entryAt (clearRow s column pivotRow row).value column = .zero := by
  unfold Reduction.IsClearable at hclears
  split_ifs at hclears with hzero
  · rw [clearRow_of_zero s hclears, hclears]
  · rw [entryAt_eq (Elimination.getElem?_clearRow_self hone hcolumn hzero)]
    exact hclears

end SymbolicMatrix

/-! ### Elimination -/

namespace Elimination

variable {s : Settings} {rowCount columns : Nat} {e e' : Elimination} {pivots : List Nat}

/-- The rows hold exact zeros up to the column that comes next. -/
abbrev HasZeros (e : Elimination) (pivots : List Nat) : Prop :=
  e.HasZerosAround (fun row j => entryAt row j = .zero) pivots

/-- In the column that comes next each entry can be cleared, but for the pivot if there is one. -/
def IsClearable (s : Settings) (e : Elimination) : Prop :=
  ∀ (i : Nat) (row : List Term), e.rows[i]? = some row →
    findPivot? s e.rows e.place e.column ≠ some i →
      Reduction.IsClearable s (entryAt row e.column)

/-- Elimination meets only entries that can be cleared. -/
def ClearsEntries (s : Settings) (columns : Nat) (e : Elimination) : Prop :=
  ∀ e', Run s columns e e' → e'.place < e'.rows.length → e'.column < columns → e'.IsClearable s

/-- A column without a pivot is passed. -/
theorem HasZeros.passed {rows : List (List Term)} {place column : Nat}
    (h : HasZeros ⟨rows, place, column⟩ pivots) (hpivot : findPivot? s rows place column = none)
    (hclears : IsClearable s ⟨rows, place, column⟩) :
    HasZeros ⟨rows, place, column + 1⟩ pivots := by
  refine h.skipped fun i row hi hrow => ?_
  have hcleared := hclears i row hrow (by rw [hpivot]; exact (Option.some_ne_none i).symm)
  have hzero : (entryAt row column).nullity s = .yes := nullity_of_findPivot?_eq_none hpivot hi hrow
  rwa [Reduction.IsClearable, if_pos hzero] at hcleared

/-- A pivot leaves exact zeros in its column. -/
theorem HasZeros.cleared {rows : List (List Term)} {place column pivot : Nat}
    (h : HasZeros ⟨rows, place, column⟩ pivots) (hwidth : HasWidth columns rows)
    (hrow : place < rows.length) (hcolumn : column < columns)
    (hpivot : findPivot? s rows place column = some pivot)
    (hclears : IsClearable s ⟨rows, place, column⟩) :
    HasZeros ⟨(eliminateColumn s place pivot column rows).value, place + 1, column + 1⟩
      (pivots ++ [column]) := by
  obtain ⟨hplace, hlength⟩ := lt_of_findPivot? hpivot
  obtain ⟨q, hq, hvalue⟩ := pivotRowOf_eq hplace hlength s column
  have hqLength : column < q.length := hwidth.getElem? hq ▸ hcolumn
  have hpivotLength := length_pivotRowOf hplace hlength (s := s) hwidth hcolumn
  refine h.pivoted hwidth hrow hcolumn hpivot ?_ ?_ ?_
  · intro j hj
    rw [hvalue, entryAt_congr (getElem?_normalizeRow_of_lt s hqLength hj)]
    exact h.zero_below pivot q hplace hq j hj
  · intro k row hk j hj hzero
    have hrowLength := hwidth.getElem? hk
    rw [entryAt_congr (getElem?_clearRow_of_lt s (hpivotLength.trans hrowLength.symm)
      (hrowLength ▸ hcolumn) hj), hzero]
  · intro k row hne hk
    have hpivotOne : (pivotRowOf s place pivot column rows)[column]? = some .one :=
      hvalue ▸ getElem?_normalizeRow_self s hqLength
    refine entryAt_clearRow_self hpivotOne (hwidth.getElem? hk ▸ hcolumn) (hclears k row hk ?_)
    dsimp only
    rw [hpivot]
    exact fun heq => hne (Option.some.inj heq).symm

theorem HasZeros.step (h : e.HasZeros pivots) (hwidth : HasWidth columns e.rows)
    (hstep : Step s columns e e') (hclears : e.IsClearable s) : ∃ pivots', e'.HasZeros pivots' := by
  cases hstep
  case skip hrow hcolumn hpivot => exact ⟨pivots, HasZeros.passed h hpivot hclears⟩
  case pivot hrow hcolumn hpivot => exact ⟨_, HasZeros.cleared h hwidth hrow hcolumn hpivot hclears⟩

/-- Elimination leaves exact zeros as long as the entries that it meets can be cleared. -/
theorem HasZeros.run (h : e.HasZeros pivots) (hregular : e.IsRegular rowCount columns)
    (hrun : Run s columns e e') (hclears : e.ClearsEntries s columns) :
    ∃ pivots', e'.HasZeros pivots' := by
  induction hrun with
  | refl => exact ⟨pivots, h⟩
  | tail hrun hstep ih =>
    obtain ⟨pivots', hzeros⟩ := ih
    exact hzeros.step (hregular.run hrun).width hstep
      (hclears _ hrun hstep.place_lt hstep.column_lt)

/-- In the end the rows are in reduced echelon form. -/
theorem HasZeros.isReducedEchelon (h : e.HasZeros pivots) (hregular : e.IsRegular rowCount columns)
    (hend : e.IsFinished columns) :
    (⟨e.rows, columns⟩ : SymbolicMatrix).IsReducedEchelon pivots := by
  have hentry {i j : Nat} (hi : i < e.rows.length) (hj : j < columns)
      (hzero : ∀ row : List Term, e.rows[i]? = some row → entryAt row j = .zero) :
      SymbolicMatrix.entry? ⟨e.rows, columns⟩ i j = some .zero := by
    have hrow : e.rows[i]? = some e.rows[i] := List.getElem?_eq_getElem hi
    have hlength : j < e.rows[i].length := hregular.width _ (List.getElem_mem hi) ▸ hj
    have hget : e.rows[i][j]? = some e.rows[i][j] := List.getElem?_eq_getElem hlength
    rw [entry?_eq hrow, hget, ← entryAt_eq hget, hzero _ hrow]
  have hplace : pivots.length = e.place := h.hasPivots.length_eq
  have hle : e.place ≤ e.rows.length := hregular.length_rows.symm ▸ hregular.place_le
  have hltColumns : ∀ j ∈ pivots, j < columns := fun j hj =>
    (h.hasPivots.lt_column j hj).trans_le hregular.column_le
  constructor
  case rectangular => exact hregular.width
  case ascending => exact h.hasPivots.ascending
  case length_le => exact hplace.trans_le hle
  case lt_columns => exact hltColumns
  case one =>
    intro i j hj
    obtain ⟨row, hrow, hone⟩ := h.hasPivots.one i j hj
    rw [entry?_eq hrow, hone]
  case zero_before =>
    intro i j k hj hk
    have hi := (List.getElem?_eq_some_iff.1 hj).1
    exact hentry (by omega) (hk.trans (hltColumns j (List.mem_of_getElem? hj)))
      fun row hrow => h.zero_before i j row hj hrow k hk
  case zero_beside =>
    intro i j k hj hki hk
    exact hentry hk (hltColumns j (List.mem_of_getElem? hj))
      fun row hrow => h.zero_beside i j k row hj hki hrow
  case zero_below =>
    intro i j hi hirows hj
    have hcolumn : e.column = columns := by
      have hrows : i < e.rows.length := hirows
      exact hend.resolve_left (by omega)
    exact hentry hirows hj
      fun row hrow => h.zero_below i row (hplace ▸ hi) hrow j (hcolumn ▸ hj)

/-- Exact numbers can be cleared. -/
theorem HasExactEntries.clearsEntries (h : e.HasExactEntries)
    (hinverts : e.InvertsPivots s columns) : e.ClearsEntries s columns :=
  fun _ hrun _ _ _ row hrow _ =>
    (isExact_entryAt (h.run hrun hinverts row (List.mem_of_getElem? hrow)) _).isClearable s

end Elimination

namespace SymbolicMatrix

variable {s : Settings} {definitions : Definitions} {m m' : SymbolicMatrix} {rank : Nat}

/-- The rank counts the pivots of a matrix in reduced row echelon form, as long as the entries that
    elimination meets can be cleared. -/
theorem exists_isReducedEchelon (hm : m.IsRectangular)
    (h : (m.rank s definitions).value = (m', some rank))
    (hclears : (Elimination.start (m.reduce s definitions).value.rows).ClearsEntries s m.columns) :
    ∃ pivots, pivots.length = rank ∧ m'.IsReducedEchelon pivots := by
  obtain ⟨hcolumns, column, hrun, hend⟩ := finished_of_rank h
  have hregular := Elimination.isRegular_start (isRectangular_reduce s definitions hm)
  obtain ⟨pivots, hzeros⟩ :=
    Elimination.HasZeros.run (Elimination.hasZerosAround_start _) hregular hrun hclears
  refine ⟨pivots, hzeros.hasPivots.length_eq, ?_⟩
  have hechelon := hzeros.isReducedEchelon (hregular.run hrun) hend
  obtain ⟨rows, columns⟩ := m'
  obtain rfl : columns = m.columns := hcolumns
  exact hechelon

end SymbolicMatrix

end EquationSolver
