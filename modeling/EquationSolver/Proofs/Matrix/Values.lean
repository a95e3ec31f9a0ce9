import EquationSolver.Proofs.Matrix.Clearing
import EquationSolver.Proofs.Matrix.Rank
import EquationSolver.Proofs.Value.Power
import Mathlib.Algebra.BigOperators.Ring.Finset

/-!
# Elimination and values

Elimination works on terms, but what it does to the values of the entries are row operations:
they keep the solutions of a system.  This needs that no pivot has the value zero, which the
verdicts on terms do not guarantee.
-/

namespace EquationSolver

open Reduction (Settings DrawsRoots)
open SymbolicMatrix

variable {K : Type*} [Field K] {V : Valuation K} {s : Settings}

/-! ### Entries -/

/-- Only numbers are known to be zero, and they are. -/
theorem Reading.value_of_nullity {R : Reading K} {t : Term} (h : t.nullity s = .yes)
    (ht : R.HasValue t) : R.value t = 0 := by
  have hnumeric := Term.isNumeric_of_nullity h
  cases t with
  | number a =>
    rw [Term.nullity_number_eq_yes_iff.1 h, R.value_number, Rat.cast_zero]
  | decimal bits => exact absurd ht (R.not_hasValue_decimal bits)
  | _ => cases hnumeric

theorem Term.value_of_nullity {t : Term} (h : t.nullity s = .yes) (ht : V.HasValue t) :
    V.value t = 0 :=
  Reading.value_of_nullity (R := V.reading) h ht

namespace SymbolicMatrix

/-- All entries of a row have values. -/
def RowHasValues (V : Valuation K) (row : List Term) : Prop :=
  ∀ t ∈ row, V.HasValue t

/-- The value of the entry of a row in a column. -/
def valueAt (V : Valuation K) (row : List Term) (j : Nat) : K :=
  V.value (entryAt row j)

theorem RowHasValues.entryAt {row : List Term} (h : RowHasValues V row) (j : Nat) :
    V.HasValue (entryAt row j) := by
  unfold SymbolicMatrix.entryAt
  rw [List.getD_eq_getElem?_getD]
  cases hentry : row[j]? with
  | none => exact Valuation.hasValue_number 0
  | some t => exact h t (List.mem_of_getElem? hentry)

theorem valueAt_eq_of_getElem? {row : List Term} {j : Nat} {t : Term} (h : row[j]? = some t) :
    valueAt V row j = V.value t := by
  rw [valueAt, entryAt_eq h]

theorem valueAt_eq_zero {row : List Term} {j : Nat} (h : row.length ≤ j) :
    valueAt V row j = 0 := by
  rw [valueAt, entryAt, List.getD_eq_getElem?_getD, List.getElem?_eq_none h]
  simp [Term.zero]

theorem valueAt_drop (row : List Term) (column j : Nat) :
    valueAt V (row.drop column) j = valueAt V row (column + j) := by
  rw [valueAt, valueAt, entryAt, entryAt, List.getD_eq_getElem?_getD, List.getD_eq_getElem?_getD,
    List.getElem?_drop]

/-- A row keeps its entries before a column. -/
theorem valueAt_take_append {row : List Term} {column : Nat} (h : column ≤ row.length)
    (rest : List Term) (j : Nat) : valueAt V (row.take column ++ rest) j =
      if j < column then valueAt V row j else valueAt V rest (j - column) := by
  have hlength : (row.take column).length = column := by
    rw [List.length_take]
    omega
  unfold valueAt entryAt
  rw [List.getD_eq_getElem?_getD, List.getD_eq_getElem?_getD, List.getD_eq_getElem?_getD]
  split_ifs with hj
  · rw [List.getElem?_append_left (by omega), List.getElem?_take_of_lt hj]
  · rw [List.getElem?_append_right (by omega), hlength]

theorem valueAt_map (f : Term → Term) {g : K → K} (hg : g 0 = 0) (row : List Term)
    (h : ∀ t ∈ row, V.value (f t) = g (V.value t)) (j : Nat) :
    valueAt V (row.map f) j = g (valueAt V row j) := by
  by_cases hj : j < row.length
  · have hentry : row[j]? = some row[j] := List.getElem?_eq_getElem hj
    have hmapped : (row.map f)[j]? = some (f row[j]) := by rw [List.getElem?_map, hentry]; rfl
    rw [valueAt_eq_of_getElem? hmapped, valueAt_eq_of_getElem? hentry, h _ (List.getElem_mem hj)]
  · rw [valueAt_eq_zero (by rw [List.length_map]; omega), valueAt_eq_zero (by omega), hg]

theorem valueAt_zip_map (f : Term → Term → Term) {c : K} (row row' : List Term)
    (hlength : row'.length = row.length)
    (h : ∀ t ∈ row, ∀ t' ∈ row', V.value (f t t') = V.value t - c * V.value t') (j : Nat) :
    valueAt V ((row.zip row').map fun pair => f pair.1 pair.2) j =
      valueAt V row j - c * valueAt V row' j := by
  by_cases hj : j < row.length
  · have hentry : row[j]? = some row[j] := List.getElem?_eq_getElem hj
    have hentry' : row'[j]? = some row'[j] := List.getElem?_eq_getElem (by omega)
    have hmapped : ((row.zip row').map fun pair => f pair.1 pair.2)[j]? =
        some (f row[j] row'[j]) := by
      rw [List.getElem?_map, (List.getElem?_zip_eq_some (z := (row[j], row'[j]))).2
        ⟨hentry, hentry'⟩]
      rfl
    rw [valueAt_eq_of_getElem? hmapped, valueAt_eq_of_getElem? hentry,
      valueAt_eq_of_getElem? hentry', h _ (List.getElem_mem hj) _ (List.getElem_mem _)]
  · rw [valueAt_eq_zero (by simp; omega), valueAt_eq_zero (by omega), valueAt_eq_zero (by omega),
      mul_zero, sub_zero]

/-! ### Row operations -/

section RowOperations

variable [CharZero K] {row pivotRow : List Term} {column : Nat}

theorem mul_pair_denotes (hroots : DrawsRoots V s) {t u : Term} {v w : K} (ht : V.Denotes t v)
    (hu : V.Denotes u w) : V.Denotes (Reduction.mul s [t, u]).value (v * w) :=
  .of_reading (Reduction.mul_pair_denotes hroots.reading ht.reading hu.reading)

theorem add_pair_denotes {t u : Term} {v w : K} (ht : V.Denotes t v) (hu : V.Denotes u w) :
    V.Denotes (Reduction.add [t, u]).value (v + w) :=
  .of_reading (Reduction.add_pair_denotes ht.reading hu.reading)

/-- A row is divided by its pivot, from the column of the pivot on. -/
theorem normalizeRow_values (hroots : DrawsRoots V s) (hrow : RowHasValues V row)
    (hlength : column < row.length) (hpivot : valueAt V row column ≠ 0) :
    RowHasValues V (normalizeRow s column row).value ∧
      ∀ j, valueAt V (normalizeRow s column row).value j =
        if j < column then valueAt V row j else valueAt V row j * (valueAt V row column)⁻¹ := by
  have hinverse := Valuation.inverse_denotes hroots (hrow.entryAt column) hpivot
  have hscaled {t : Term} (ht : t ∈ row.drop (column + 1)) : V.Denotes
      (Reduction.mul s [t, (Reduction.pow s (entryAt row column) (.number (-1))).value]).value
      (V.value t * (valueAt V row column)⁻¹) :=
    mul_pair_denotes hroots (.of_hasValue (hrow t (List.mem_of_mem_drop ht))) hinverse
  have hvalue : (normalizeRow s column row).value = row.take column ++ .one ::
      (row.drop (column + 1)).map fun entry => (Reduction.mul s
        [entry, (Reduction.pow s (entryAt row column) (.number (-1))).value]).value := by
    simp [normalizeRow]
  rw [hvalue]
  constructor
  · intro t ht
    rcases List.mem_append.1 ht with ht | ht
    · exact hrow t (List.mem_of_mem_take ht)
    · rcases List.mem_cons.1 ht with rfl | ht
      · exact Valuation.hasValue_number 1
      · obtain ⟨entry, hentry, rfl⟩ := List.mem_map.1 ht
        exact (hscaled hentry).hasValue
  · intro j
    rw [valueAt_take_append hlength.le]
    split_ifs with hj
    · rfl
    · obtain ⟨k, rfl⟩ := Nat.exists_eq_add_of_le (Nat.le_of_not_lt hj)
      rw [Nat.add_sub_cancel_left]
      cases k with
      | zero =>
        have hone : valueAt V row (column + 0) * (valueAt V row column)⁻¹ = 1 :=
          mul_inv_cancel₀ hpivot
        rw [hone, valueAt_eq_of_getElem? (t := .one) rfl]
        simp [Term.one]
      | succ k =>
        have hmapped := valueAt_map _ (g := fun v => v * (valueAt V row column)⁻¹) (zero_mul _)
          (row.drop (column + 1)) (fun t ht => (hscaled ht).value_eq) k
        rw [valueAt_drop, Nat.add_assoc, Nat.add_comm 1 k] at hmapped
        exact hmapped

/-- The multiple of the pivot row that clears the column is subtracted from a row, from the column
    on. -/
theorem clearRow_values (hroots : DrawsRoots V s) (hrow : RowHasValues V row)
    (hpivotRow : RowHasValues V pivotRow) (hlength : pivotRow.length = row.length)
    (hcolumn : column < row.length) :
    RowHasValues V (clearRow s column pivotRow row).value ∧
      ∀ j, valueAt V (clearRow s column pivotRow row).value j =
        if j < column then valueAt V row j
        else valueAt V row j - valueAt V row column * valueAt V pivotRow j := by
  by_cases hzero : (entryAt row column).nullity s = .yes
  · have hkept : (clearRow s column pivotRow row).value = row := by simp [clearRow, hzero]
    have hvalue : valueAt V row column = 0 := Term.value_of_nullity hzero (hrow.entryAt column)
    rw [hkept]
    refine ⟨hrow, fun j => ?_⟩
    rw [hvalue, zero_mul, sub_zero, ite_self]
  · have hscale : V.Denotes (Reduction.mul s [.number (-1), entryAt row column]).value
        (-valueAt V row column) :=
      (mul_pair_denotes hroots (.number (-1)) (.of_hasValue (hrow.entryAt column))).congr
        (by simp [valueAt])
    have hcleared {t t' : Term} (ht : t ∈ row.drop column) (ht' : t' ∈ pivotRow.drop column) :
        V.Denotes (Reduction.add [t, (Reduction.mul s [(Reduction.mul s
          [.number (-1), entryAt row column]).value, t']).value]).value
        (V.value t - valueAt V row column * V.value t') :=
      (add_pair_denotes (.of_hasValue (hrow t (List.mem_of_mem_drop ht)))
        (mul_pair_denotes hroots hscale
          (.of_hasValue (hpivotRow t' (List.mem_of_mem_drop ht'))))).congr (by ring)
    have hvalue : (clearRow s column pivotRow row).value = row.take column ++
        ((row.drop column).zip (pivotRow.drop column)).map fun pair => (Reduction.add [pair.1,
          (Reduction.mul s [(Reduction.mul s [.number (-1), entryAt row column]).value,
            pair.2]).value]).value := by
      simp [clearRow, hzero]
    rw [hvalue]
    constructor
    · intro t ht
      rcases List.mem_append.1 ht with ht | ht
      · exact hrow t (List.mem_of_mem_take ht)
      · obtain ⟨⟨u, u'⟩, hpair, rfl⟩ := List.mem_map.1 ht
        obtain ⟨hu, hu'⟩ := List.of_mem_zip hpair
        exact (hcleared hu hu').hasValue
    · intro j
      rw [valueAt_take_append hcolumn.le]
      split_ifs with hj
      · rfl
      · have hzipped := valueAt_zip_map _ (row.drop column) (pivotRow.drop column)
          (by simp [hlength]) (fun t ht t' ht' => (hcleared ht ht').value_eq) (j - column)
        rw [valueAt_drop, valueAt_drop, Nat.add_sub_cancel' (Nat.le_of_not_lt hj)] at hzipped
        exact hzipped

end RowOperations

end SymbolicMatrix

end EquationSolver
