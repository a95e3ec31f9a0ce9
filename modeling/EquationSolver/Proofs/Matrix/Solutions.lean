import EquationSolver.Proofs.Matrix.Values

/-!
# Elimination keeps solutions

As long as no pivot has the value zero, each step of an elimination keeps the solutions of the
system that the rows stand for, and leaves the values in reduced echelon form: behind the pivots
the rows are zero, and each pivot is alone in its column.
-/

namespace EquationSolver

open Reduction (Settings DrawsRoots)
open SymbolicMatrix

variable {K : Type*} [Field K] {V : Valuation K} {s : Settings} {rowCount columns : Nat}

/-! ### Solutions -/

namespace SymbolicMatrix

/-- What a row makes of a number for each column. -/
def rowValue (V : Valuation K) (columns : Nat) (w : Nat → K) (row : List Term) : K :=
  ∑ j ∈ Finset.range columns, valueAt V row j * w j

/-- The numbers for the columns solve the system of the rows. -/
def Solves (V : Valuation K) (columns : Nat) (rows : List (List Term)) (w : Nat → K) : Prop :=
  ∀ row ∈ rows, rowValue V columns w row = 0

theorem solves_congr {rows : List (List Term)} {w w' : Nat → K} (h : ∀ j < columns, w j = w' j) :
    Solves V columns rows w ↔ Solves V columns rows w' := by
  have hrow (row : List Term) : rowValue V columns w row = rowValue V columns w' row :=
    Finset.sum_congr rfl fun j hj => by rw [h j (Finset.mem_range.1 hj)]
  simp only [Solves, hrow]

theorem rowValue_mul {row row' : List Term} {c : K}
    (h : ∀ j, valueAt V row' j = c * valueAt V row j) (columns : Nat) (w : Nat → K) :
    rowValue V columns w row' = c * rowValue V columns w row := by
  unfold rowValue
  simp only [h, Finset.mul_sum, mul_assoc]

theorem rowValue_sub {row row' other : List Term} {c : K}
    (h : ∀ j, valueAt V row' j = valueAt V row j - c * valueAt V other j) (columns : Nat)
    (w : Nat → K) :
    rowValue V columns w row' = rowValue V columns w row - c * rowValue V columns w other := by
  unfold rowValue
  simp only [h, sub_mul, Finset.sum_sub_distrib, Finset.mul_sum, mul_assoc]

end SymbolicMatrix

namespace Elimination

variable {e e' : Elimination} {pivots : List Nat}

/-- No entry of value zero is taken for a pivot. -/
def TakesNonzeroPivots (V : Valuation K) (s : Settings) (columns : Nat) (e : Elimination) : Prop :=
  ∀ e' pivot row, Run s columns e e' → e'.place < e'.rows.length → e'.column < columns →
    findPivot? s e'.rows e'.place e'.column = some pivot → e'.rows[pivot]? = some row →
      valueAt V row e'.column ≠ 0

/-- Nothing is taken for a pivot any more when all rows have one. -/
theorem TakesNonzeroPivots.of_finished (h : e.rows.length ≤ e.place) :
    e.TakesNonzeroPivots V s columns := by
  intro e' pivot row hrun hrow
  rcases hrun.cases_head with rfl | ⟨next, hstep, -⟩
  · omega
  · have := hstep.place_lt
    omega

/-- A pivot is taken, and then others. -/
theorem TakesNonzeroPivots.of_pivot {rows : List (List Term)} {place column pivot : Nat}
    {row : List Term} (hpivot : findPivot? s rows place column = some pivot)
    (hrow : rows[pivot]? = some row) (hne : valueAt V row column ≠ 0)
    (hnext : TakesNonzeroPivots V s columns
      ⟨(eliminateColumn s place pivot column rows).value, place + 1, column + 1⟩) :
    TakesNonzeroPivots V s columns ⟨rows, place, column⟩ := by
  intro e' pivot' row' hrun hplace hcolumn hpivot' hrow'
  rcases hrun.cases_head with rfl | ⟨next, hstep, hrest⟩
  · cases hpivot.symm.trans hpivot'
    cases hrow.symm.trans hrow'
    exact hne
  · cases hstep with
    | skip _ _ hnone => cases hpivot.symm.trans hnone
    | pivot _ _ hsome =>
      cases hpivot.symm.trans hsome
      exact hnext e' pivot' row' hrest hplace hcolumn hpivot' hrow'

/-- The values are in reduced echelon form up to the column that comes next. -/
structure IsReduced (V : Valuation K) (s : Settings) (e : Elimination) (pivots : List Nat) : Prop
    extends e.HasZerosAround (fun row j => valueAt V row j = 0) pivots where
  hasValues : ∀ row ∈ e.rows, RowHasValues V row
  /-- That rows without a pivot are zero in a column without one is known when it is passed. -/
  known_below : ∀ (i j : Nat) (row : List Term), e.column = j + 1 → j ∉ pivots → e.place ≤ i →
    e.rows[i]? = some row → (entryAt row j).nullity s = .yes

theorem isReduced_start {rows : List (List Term)} (h : ∀ row ∈ rows, RowHasValues V row) :
    (start rows).IsReduced V s [] where
  toHasZerosAround := hasZerosAround_start rows
  hasValues := h
  known_below := fun _ _ _ hcolumn => nomatch hcolumn

/-! ### What a pivot does -/

section Pivot

variable [CharZero K] {rows : List (List Term)} {place column pivot : Nat}

/-- The row of a pivot comes to its place and is divided by it; the multiples of it that clear the
    column are subtracted from all others. -/
theorem pivot_values (hroots : DrawsRoots V s) (hwidth : HasWidth columns rows)
    (hcolumn : column < columns) (hvalues : ∀ row ∈ rows, RowHasValues V row)
    (hplace : place ≤ pivot) {q : List Term} (hq : rows[pivot]? = some q)
    (hzero : ∀ j < column, valueAt V q j = 0) (hne : valueAt V q column ≠ 0) :
    (RowHasValues V (pivotRowOf s place pivot column rows) ∧
      ∀ j, valueAt V (pivotRowOf s place pivot column rows) j =
        (valueAt V q column)⁻¹ * valueAt V q j) ∧
    ∀ row ∈ rows, RowHasValues V
        (clearRow s column (pivotRowOf s place pivot column rows) row).value ∧
      ∀ j, valueAt V (clearRow s column (pivotRowOf s place pivot column rows) row).value j =
        valueAt V row j - valueAt V row column *
          valueAt V (pivotRowOf s place pivot column rows) j := by
  have hlength : pivot < rows.length := (List.getElem?_eq_some_iff.1 hq).1
  obtain ⟨q', hq', hrow⟩ := pivotRowOf_eq hplace hlength s column
  obtain rfl : q = q' := Option.some.inj (hq.symm.trans hq')
  have hpivotLength : (pivotRowOf s place pivot column rows).length = columns :=
    length_pivotRowOf hplace hlength hwidth hcolumn
  have hpivotRow : RowHasValues V (pivotRowOf s place pivot column rows) ∧
      ∀ j, valueAt V (pivotRowOf s place pivot column rows) j =
        (valueAt V q column)⁻¹ * valueAt V q j := by
    have hmem : q ∈ rows := List.mem_of_getElem? hq
    obtain ⟨hhas, hvalue⟩ := normalizeRow_values hroots (hvalues q hmem)
      (hwidth q hmem ▸ hcolumn) hne
    rw [hrow]
    refine ⟨hhas, fun j => ?_⟩
    rw [hvalue]
    split_ifs with hj
    · rw [hzero j hj, mul_zero]
    · rw [mul_comm]
  refine ⟨hpivotRow, fun row hrow => ?_⟩
  have hrowLength := hwidth row hrow
  obtain ⟨hhas, hvalue⟩ := clearRow_values hroots (hvalues row hrow) hpivotRow.1
    (hpivotLength.trans hrowLength.symm) (hrowLength ▸ hcolumn)
  refine ⟨hhas, fun j => ?_⟩
  rw [hvalue]
  split_ifs with hj
  · rw [hpivotRow.2 j, hzero j hj, mul_zero, mul_zero, sub_zero]
  · rfl

omit [CharZero K] in
/-- Each row but that of the pivot is cleared. -/
theorem mem_or_eq (hplace : place ≤ pivot) (hlength : pivot < rows.length) (s : Settings)
    (column : Nat) {row : List Term} (h : row ∈ rows) :
    rows[pivot]? = some row ∨ (clearRow s column (pivotRowOf s place pivot column rows) row).value ∈
      (eliminateColumn s place pivot column rows).value := by
  obtain ⟨k, hk⟩ := List.getElem?_of_mem h
  by_cases hpivot : k = pivot
  · exact .inl (hpivot ▸ hk)
  · -- the row stands in another place than that of the pivot once the rows are exchanged
    obtain ⟨k', hne, hk'⟩ : ∃ k' ≠ place, (exchange rows place pivot)[k']? = some row := by
      have hklt : k < rows.length := (List.getElem?_eq_some_iff.1 hk).1
      by_cases hkplace : k = place
      · subst hkplace
        refine ⟨pivot, fun heq => hpivot heq.symm, ?_⟩
        rw [exchange, List.getElem?_set_self (by simpa using hlength), List.getD_eq_getElem?_getD,
          hk, Option.getD_some]
      · refine ⟨k, hkplace, ?_⟩
        rw [exchange, List.getElem?_set_ne (fun h => hpivot h.symm),
          List.getElem?_set_ne (fun h => hkplace h.symm), hk]
    right
    rw [value_eliminateColumn]
    rcases Nat.lt_or_gt_of_ne hne with hlt | hgt
    · refine List.mem_append_left _ (List.mem_map_of_mem ?_)
      exact List.mem_of_getElem? (i := k') (by rw [List.getElem?_take_of_lt hlt, hk'])
    · refine List.mem_append_right _ (List.mem_cons_of_mem _ (List.mem_map_of_mem ?_))
      refine List.mem_of_getElem? (i := k' - (place + 1)) ?_
      rw [List.getElem?_drop, Nat.add_sub_cancel' hgt, hk']

/-- A pivot that is not zero keeps the solutions. -/
theorem solves_eliminateColumn_iff (hroots : DrawsRoots V s) (hwidth : HasWidth columns rows)
    (hcolumn : column < columns) (hvalues : ∀ row ∈ rows, RowHasValues V row)
    (hplace : place ≤ pivot) {q : List Term} (hq : rows[pivot]? = some q)
    (hzero : ∀ j < column, valueAt V q j = 0) (hne : valueAt V q column ≠ 0) (w : Nat → K) :
    Solves V columns (eliminateColumn s place pivot column rows).value w ↔
      Solves V columns rows w := by
  have hlength : pivot < rows.length := (List.getElem?_eq_some_iff.1 hq).1
  obtain ⟨⟨-, hpivotRow⟩, hcleared⟩ :=
    pivot_values hroots hwidth hcolumn hvalues hplace hq hzero hne
  have hpivotValue := rowValue_mul hpivotRow columns w
  have hclearedValue (row : List Term) (hrow : row ∈ rows) :=
    rowValue_sub (hcleared row hrow).2 columns w
  constructor
  · intro h row hrow
    have hpivotZero := h _ (List.mem_of_getElem?
      (getElem?_eliminateColumn_place hplace hlength s column))
    rcases mem_or_eq hplace hlength s column hrow with hpivot | hother
    · obtain rfl : q = row := Option.some.inj (hq.symm.trans hpivot)
      rw [hpivotValue] at hpivotZero
      exact (mul_eq_zero.1 hpivotZero).resolve_left (inv_ne_zero hne)
    · have hrowZero := h _ hother
      rwa [hclearedValue row hrow, hpivotZero, mul_zero, sub_zero] at hrowZero
  · intro h row' hrow'
    obtain ⟨k, hk⟩ := List.getElem?_of_mem hrow'
    have hpivotZero : rowValue V columns w (pivotRowOf s place pivot column rows) = 0 := by
      rw [hpivotValue, h q (List.mem_of_getElem? hq), mul_zero]
    rcases row_cases hplace hlength s column hk with ⟨-, rfl⟩ | ⟨-, k', row, -, hrow, -, rfl⟩
    · exact hpivotZero
    · have hmem := List.mem_of_getElem? hrow
      rw [hclearedValue row hmem, h row hmem, hpivotZero, mul_zero, sub_zero]

/-- A pivot that is not zero leaves the values in reduced echelon form. -/
theorem IsReduced.pivoted (hroots : DrawsRoots V s) {pivots : List Nat}
    (h : IsReduced V s ⟨rows, place, column⟩ pivots) (hwidth : HasWidth columns rows)
    (hrow : place < rows.length) (hcolumn : column < columns)
    (hpivot : findPivot? s rows place column = some pivot) {q : List Term}
    (hq : rows[pivot]? = some q) (hne : valueAt V q column ≠ 0) :
    IsReduced V s ⟨(eliminateColumn s place pivot column rows).value, place + 1, column + 1⟩
      (pivots ++ [column]) := by
  obtain ⟨hplace, hlength⟩ := lt_of_findPivot? hpivot
  have hzero := h.zero_below pivot q hplace hq
  dsimp only at hzero
  obtain ⟨⟨hpivotHas, hpivotRow⟩, hcleared⟩ :=
    pivot_values hroots hwidth hcolumn h.hasValues hplace hq hzero hne
  have hpivotZero : ∀ j < column, valueAt V (pivotRowOf s place pivot column rows) j = 0 := by
    intro j hj
    rw [hpivotRow, hzero j hj, mul_zero]
  have hpivotOne : valueAt V (pivotRowOf s place pivot column rows) column = 1 := by
    rw [hpivotRow, inv_mul_cancel₀ hne]
  refine ⟨h.toHasZerosAround.pivoted hwidth hrow hcolumn hpivot hpivotZero ?_ ?_, ?_, ?_⟩
  · intro k row hk j hj hzeroAt
    rw [(hcleared row (List.mem_of_getElem? hk)).2, hzeroAt, hpivotZero j hj, mul_zero, sub_zero]
  · intro k row _ hk
    rw [(hcleared row (List.mem_of_getElem? hk)).2, hpivotOne, mul_one, sub_self]
  · intro row' hrow'
    obtain ⟨k, hk⟩ := List.getElem?_of_mem hrow'
    rcases row_cases hplace hlength s column hk with ⟨-, rfl⟩ | ⟨-, k', row, -, hrow, -, rfl⟩
    · exact hpivotHas
    · exact (hcleared row (List.mem_of_getElem? hrow)).1
  · intro i j row' hj hnotMem
    obtain rfl : column = j := Nat.succ.inj hj
    exact absurd (List.mem_append_right pivots List.mem_cons_self) hnotMem

end Pivot

/-! ### Runs -/

variable [CharZero K]

/-- A step keeps the solutions, and the values in reduced echelon form. -/
theorem IsReduced.step (hroots : DrawsRoots V s) (h : e.IsReduced V s pivots)
    (hwidth : HasWidth columns e.rows) (hstep : Step s columns e e')
    (hnonzero : e.TakesNonzeroPivots V s columns) :
    (∃ pivots', e'.IsReduced V s pivots') ∧
      ∀ w, Solves V columns e'.rows w ↔ Solves V columns e.rows w := by
  cases hstep
  case skip rows place column hrow hcolumn hpivot =>
    refine ⟨⟨pivots, ?_⟩, fun w => Iff.rfl⟩
    have hknown {i : Nat} {row : List Term} (hi : place ≤ i) (hrow : rows[i]? = some row) :
        (entryAt row column).nullity s = .yes := nullity_of_findPivot?_eq_none hpivot hi hrow
    refine ⟨h.toHasZerosAround.skipped fun i row hi hrow => ?_, h.hasValues, ?_⟩
    · exact Term.value_of_nullity (hknown hi hrow)
        ((h.hasValues row (List.mem_of_getElem? hrow)).entryAt column)
    · intro i j row hj _ hi hrow
      obtain rfl : column = j := Nat.succ.inj hj
      exact hknown hi hrow
  case pivot rows place column pivot hrow hcolumn hpivot =>
    obtain ⟨hplace, hlength⟩ := lt_of_findPivot? hpivot
    have hq : rows[pivot]? = some rows[pivot] := List.getElem?_eq_getElem hlength
    have hne := hnonzero _ pivot rows[pivot] .refl hrow hcolumn hpivot hq
    refine ⟨⟨_, h.pivoted hroots hwidth hrow hcolumn hpivot hq hne⟩, fun w => ?_⟩
    exact solves_eliminateColumn_iff hroots hwidth hcolumn h.hasValues hplace hq
      (h.zero_below pivot _ hplace hq) hne w

/-- Elimination keeps the solutions, and the values in reduced echelon form. -/
theorem IsReduced.run (hroots : DrawsRoots V s) (h : e.IsReduced V s pivots)
    (hregular : e.IsRegular rowCount columns) (hrun : Run s columns e e')
    (hnonzero : e.TakesNonzeroPivots V s columns) :
    (∃ pivots', e'.IsReduced V s pivots') ∧
      ∀ w, Solves V columns e'.rows w ↔ Solves V columns e.rows w := by
  induction hrun with
  | refl => exact ⟨⟨pivots, h⟩, fun w => Iff.rfl⟩
  | tail hrun hstep ih =>
    obtain ⟨⟨pivots', hreduced⟩, hsolves⟩ := ih
    obtain ⟨hreduced', hsolves'⟩ := hreduced.step hroots (hregular.run hrun).width hstep
      fun e'' pivot row hrun' => hnonzero e'' pivot row (hrun.trans hrun')
    exact ⟨hreduced', fun w => (hsolves' w).trans (hsolves w)⟩

end Elimination

end EquationSolver
