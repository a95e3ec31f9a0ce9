import EquationSolver.Proofs.Matrix.Solutions
import EquationSolver.Proofs.Value.Reduction

/-!
# Systems in reduced echelon form

Of a system in reduced echelon form it can be told what its solutions are: there are none when
the column of the constants has a pivot; otherwise there is one when all other columns have one,
and there are infinitely many when a column has none.  As long as no pivot has the value zero,
these are the solutions of the matrix whose rank is taken.
-/

namespace EquationSolver

open Reduction (Settings DrawsRoots)
open SymbolicMatrix

variable {K : Type*} [Field K] {V : Valuation K} {s : Settings}

namespace Elimination

variable {columns : Nat} {e : Elimination} {pivots : List Nat}

/-! ### Solutions of a reduced system -/

/-- A row without a pivot is zero in the end. -/
theorem IsReduced.rowValue_below (h : e.IsReduced V s pivots) (hend : e.IsFinished columns) {i : Nat}
    {row : List Term} (hi : e.place ≤ i) (hrow : e.rows[i]? = some row) (w : Nat → K) :
    rowValue V columns w row = 0 := by
  refine Finset.sum_eq_zero fun j hj => ?_
  have hlt := (List.getElem?_eq_some_iff.1 hrow).1
  rcases hend with hrows | hcolumn
  · omega
  · rw [h.zero_below i row hi hrow j (hcolumn ▸ Finset.mem_range.1 hj), zero_mul]

/-- With a pivot in the last column there is no solution that is not zero there. -/
theorem IsReduced.not_solves {last : Nat} (h : e.IsReduced V s pivots) (hlast : last ∈ pivots)
    {w : Nat → K} (hw : w last ≠ 0) : ¬Solves V (last + 1) e.rows w := by
  intro hsolves
  obtain ⟨i, hi⟩ := List.getElem?_of_mem hlast
  obtain ⟨row, hrow, hone⟩ := h.hasPivots.one i last hi
  have hvalue := hsolves row (List.mem_of_getElem? hrow)
  have hbefore : ∑ j ∈ Finset.range last, valueAt V row j * w j = 0 :=
    Finset.sum_eq_zero fun j hj => by
      rw [h.zero_before i last row hi hrow j (Finset.mem_range.1 hj), zero_mul]
  rw [rowValue, Finset.sum_range_succ, hbefore, zero_add, valueAt_eq_of_getElem? hone, Term.one,
    Valuation.value_number, Rat.cast_one, one_mul] at hvalue
  exact hw hvalue

/-- With a pivot in each column but the last the solution is read off the last column. -/
theorem IsReduced.solves_iff {last : Nat} (h : e.IsReduced V s pivots)
    (hend : e.IsFinished (last + 1)) (hcolumn : e.column ≤ last + 1) (hplace : e.place = last)
    (hlast : last ∉ pivots) {w : Nat → K} (hw : w last = -1) :
    Solves V (last + 1) e.rows w ↔
      ∀ i < last, ∀ row, e.rows[i]? = some row → w i = valueAt V row last := by
  have hdiagonal : ∀ i < last, pivots[i]? = some i := by
    intro i hi
    have hlength : pivots.length = last := h.hasPivots.length_eq.trans hplace
    have hget : pivots[i]? = some pivots[i] := List.getElem?_eq_getElem (by omega)
    have hhigh : ∀ j ∈ pivots, j < last := by
      intro j hj
      have := h.hasPivots.lt_column j hj
      have : j ≠ last := fun heq => hlast (heq ▸ hj)
      omega
    obtain ⟨hge, hle⟩ := bounds_of_ascending h.hasPivots.ascending (fun _ _ => Nat.zero_le _)
      hhigh hget
    rw [hget, show pivots[i] = i by omega]
  have hrowValue : ∀ i < last, ∀ row, e.rows[i]? = some row →
      rowValue V (last + 1) w row = w i - valueAt V row last := by
    intro i hi row hrow
    obtain ⟨row', hrow', hone⟩ := h.hasPivots.one i i (hdiagonal i hi)
    obtain rfl : row = row' := Option.some.inj (hrow.symm.trans hrow')
    have hunit : ∀ j ∈ Finset.range last, valueAt V row j * w j = if j = i then w i else 0 := by
      intro j hj
      split_ifs with hji
      · rw [hji, valueAt_eq_of_getElem? hone, Term.one, Valuation.value_number, Rat.cast_one,
          one_mul]
      · rw [h.zero_beside j j i row (hdiagonal j (Finset.mem_range.1 hj))
          (fun heq => hji heq.symm) hrow, zero_mul]
    rw [rowValue, Finset.sum_range_succ, Finset.sum_congr rfl hunit, Finset.sum_ite_eq',
      if_pos (Finset.mem_range.2 hi), hw, mul_neg_one, sub_eq_add_neg]
  constructor
  · intro hsolves i hi row hrow
    have hzero := hsolves row (List.mem_of_getElem? hrow)
    rw [hrowValue i hi row hrow] at hzero
    exact sub_eq_zero.1 hzero
  · intro hread row hrow
    obtain ⟨i, hi⟩ := List.getElem?_of_mem hrow
    rcases Nat.lt_or_ge i last with hlt | hge
    · rw [hrowValue i hlt row hi, hread i hlt row hi, sub_self]
    · exact h.rowValue_below hend (hplace.trans_le hge) hi w

/-- The solution of a reduced system with a number for one column without a pivot, and zero for the
    others. -/
def freeSolution (V : Valuation K) (rows : List (List Term)) (pivots : List Nat)
    (free last : Nat) (v : K) (j : Nat) : K :=
  if j = last then -1
  else if j = free then v
  else
    match pivots.idxOf? j with
    | some i => valueAt V (rows.getD i []) last - valueAt V (rows.getD i []) free * v
    | none => 0

theorem IsReduced.rowValue_freeSolution {last free : Nat} (h : e.IsReduced V s pivots)
    (hlast : last ∉ pivots) (hfree : free ∉ pivots) (hne : free < last) (v : K) {k p : Nat}
    (hp : pivots[k]? = some p) (hplt : p < last) {row : List Term} (hrow : e.rows[k]? = some row) :
    rowValue V (last + 1) (freeSolution V e.rows pivots free last v) row = 0 := by
  have hmem : p ∈ pivots := List.mem_of_getElem? hp
  have hpfree : p ≠ free := fun heq => hfree (heq ▸ hmem)
  obtain ⟨row', hrow', hone⟩ := h.hasPivots.one k p hp
  obtain rfl : row = row' := Option.some.inj (hrow.symm.trans hrow')
  have hpivot : freeSolution V e.rows pivots free last v p =
      valueAt V row last - valueAt V row free * v := by
    obtain ⟨hk, hget⟩ := List.getElem?_eq_some_iff.1 hp
    have hindex : pivots.idxOf? p = some k := by
      refine List.idxOf?_eq_some_iff.2 ⟨hk, hget, fun i hi heq => ?_⟩
      have hlt := List.pairwise_iff_getElem.1 h.hasPivots.ascending i k (by omega) hk hi
      omega
    rw [freeSolution, if_neg hplt.ne, if_neg hpfree, hindex]
    dsimp only
    rw [List.getD_eq_getElem?_getD, hrow, Option.getD_some]
  have hsplit : ∀ j ∈ Finset.range (last + 1),
      valueAt V row j * freeSolution V e.rows pivots free last v j =
        ((if j = p then valueAt V row last - valueAt V row free * v else 0) +
          if j = free then valueAt V row free * v else 0) +
          if j = last then -valueAt V row last else 0 := by
    intro j _
    by_cases hjlast : j = last
    · subst hjlast
      simp [freeSolution, hplt.ne', hne.ne']
    · by_cases hjfree : j = free
      · subst hjfree
        simp [freeSolution, hjlast, hpfree.symm]
      · by_cases hjp : j = p
        · subst hjp
          rw [hpivot, valueAt_eq_of_getElem? hone]
          simp [Term.one, hjfree, hjlast]
        · rw [if_neg hjp, if_neg hjfree, if_neg hjlast, freeSolution, if_neg hjlast, if_neg hjfree]
          split
          case h_1 i hi =>
            obtain ⟨hilt, hget, -⟩ := List.idxOf?_eq_some_iff.1 hi
            have hij : pivots[i]? = some j := by rw [List.getElem?_eq_getElem hilt, hget]
            have hki : k ≠ i := by
              rintro rfl
              exact hjp (Option.some.inj (hij.symm.trans hp))
            rw [h.zero_beside i j k row hij hki hrow, zero_mul, add_zero, add_zero]
          case h_2 => rw [mul_zero, add_zero, add_zero]
  rw [rowValue, Finset.sum_congr rfl hsplit, Finset.sum_add_distrib, Finset.sum_add_distrib,
    Finset.sum_ite_eq', Finset.sum_ite_eq', Finset.sum_ite_eq',
    if_pos (Finset.mem_range.2 (by omega)), if_pos (Finset.mem_range.2 (by omega)),
    if_pos (Finset.mem_range.2 (by omega))]
  ring

/-- With fewer pivots than that some column has none, and its unknown may be any number. -/
theorem IsReduced.exists_free {last : Nat} (h : e.IsReduced V s pivots)
    (hend : e.IsFinished (last + 1)) (hcolumn : e.column ≤ last + 1) (hplace : e.place < last)
    (hlast : last ∉ pivots) :
    ∃ free < last, ∀ v : K, ∃ w, w last = -1 ∧ w free = v ∧ Solves V (last + 1) e.rows w := by
  obtain ⟨free, hfree, hnotMem⟩ : ∃ free < last, free ∉ pivots := by
    by_contra hall
    push Not at hall
    have hsubset : List.range last ⊆ pivots := fun j hj => hall j (List.mem_range.1 hj)
    have hle := (List.nodup_range.subperm hsubset).length_le
    rw [List.length_range, h.hasPivots.length_eq] at hle
    omega
  refine ⟨free, hfree, fun v => ⟨freeSolution V e.rows pivots free last v, by simp [freeSolution],
    by simp [freeSolution, hfree.ne], ?_⟩⟩
  intro row hrow
  obtain ⟨k, hk⟩ := List.getElem?_of_mem hrow
  rcases Nat.lt_or_ge k e.place with hlt | hge
  · rw [← h.hasPivots.length_eq] at hlt
    have hp : pivots[k]? = some pivots[k] := List.getElem?_eq_getElem hlt
    have hmem : pivots[k] ∈ pivots := List.getElem_mem _
    have hcolumnLt := h.hasPivots.lt_column _ hmem
    have hneLast : pivots[k] ≠ last := fun heq => hlast (heq ▸ hmem)
    exact h.rowValue_freeSolution hlast hnotMem hfree v hp (by omega) hk
  · exact h.rowValue_below hend hge hk _

end Elimination

/-! ### The rank -/

namespace SymbolicMatrix

variable {m m' : SymbolicMatrix} {rank : Nat}

/-- Without definitions the entries are reduced one by one. -/
theorem rows_reduce_nil (s : Settings) (hm : m.IsRectangular) :
    (m.reduce s []).value.rows =
      m.rows.map fun row => row.map fun t => (Reduction.reduceKept s t).value := by
  have hwidth : HasWidth m.columns
      (m.rows.map fun row => row.map fun t => (Reduction.reduceKept s t).value) := by
    intro row' hrow'
    obtain ⟨row, hrow, rfl⟩ := List.mem_map.1 hrow'
    rw [List.length_map, hm row hrow]
  have hpieces := pieces_flatten hwidth
  rw [← List.map_flatten, List.length_map] at hpieces
  unfold SymbolicMatrix.reduce
  rw [Build.value_bind, Reduction.reduceAll_nil]
  exact hpieces

variable [CharZero K]

/-- Reducing the entries keeps their values, and so the solutions. -/
theorem reduce_values (hroots : DrawsRoots V s) (hm : m.IsRectangular)
    (hvalues : ∀ row ∈ m.rows, RowHasValues V row) :
    (∀ row ∈ (m.reduce s []).value.rows, RowHasValues V row) ∧
      ∀ columns w, Solves V columns (m.reduce s []).value.rows w ↔ Solves V columns m.rows w := by
  have hdenotes {row : List Term} (hrow : row ∈ m.rows) {t : Term} (ht : t ∈ row) :=
    Reduction.denotes_reduceKept hroots t (hvalues row hrow t ht)
  have hrowValue {row : List Term} (hrow : row ∈ m.rows) (columns : Nat) (w : Nat → K) :
      rowValue V columns w (row.map fun t => (Reduction.reduceKept s t).value) =
        rowValue V columns w row := by
    unfold rowValue
    simp only [valueAt_map _ (g := id) rfl row fun t ht => (hdenotes hrow ht).value_eq, id]
  rw [rows_reduce_nil s hm]
  constructor
  · intro row' hrow' t ht
    obtain ⟨row, hrow, rfl⟩ := List.mem_map.1 hrow'
    obtain ⟨u, hu, rfl⟩ := List.mem_map.1 ht
    exact (hdenotes hrow hu).hasValue
  · intro columns w
    unfold Solves
    rw [List.forall_mem_map]
    exact forall₂_congr fun row hrow => by rw [hrowValue hrow]

/-- The rank is read off a reduced echelon form with the same solutions. -/
theorem exists_reduced (hroots : DrawsRoots V s) (hm : m.IsRectangular)
    (hvalues : ∀ row ∈ m.rows, RowHasValues V row)
    (h : (m.rank s []).value = (m', some rank))
    (hnonzero : (Elimination.start (m.reduce s []).value.rows).TakesNonzeroPivots V s m.columns) :
    ∃ column pivots, Elimination.IsReduced V s ⟨m'.rows, rank, column⟩ pivots ∧
      Elimination.IsFinished m.columns ⟨m'.rows, rank, column⟩ ∧ column ≤ m.columns ∧
      ∀ w, Solves V m.columns m'.rows w ↔ Solves V m.columns m.rows w := by
  obtain ⟨-, column, hrun, hend⟩ := finished_of_rank h
  obtain ⟨hreduced, hsolves⟩ := reduce_values hroots hm hvalues
  have hregular := Elimination.isRegular_start (isRectangular_reduce s [] hm)
  obtain ⟨⟨pivots, hpivots⟩, hrunSolves⟩ :=
    (Elimination.isReduced_start hreduced).run hroots hregular hrun hnonzero
  exact ⟨column, pivots, hpivots, hend, (hregular.run hrun).column_le,
    fun w => (hrunSolves w).trans (hsolves m.columns w)⟩

omit [CharZero K] in
theorem hasUndefined_eq_false (h : ∀ row ∈ m.rows, RowHasValues V row) :
    m.hasUndefined = false := by
  unfold hasUndefined entries
  rw [List.any_eq_false]
  intro t ht
  obtain ⟨row, hrow, ht⟩ := List.mem_flatten.1 ht
  have hvalue := h row hrow t ht
  cases t with
  | undefined => simp [Valuation.HasValue] at hvalue
  | _ => exact Bool.false_ne_true

/-- A matrix whose entries have values has a rank as long as no pivot has the value zero. -/
theorem exists_rank (hroots : DrawsRoots V s) (hm : m.IsRectangular)
    (hvalues : ∀ row ∈ m.rows, RowHasValues V row)
    (hnonzero : (Elimination.start (m.reduce s []).value.rows).TakesNonzeroPivots V s m.columns) :
    ∃ echelon rank, (m.rank s []).value = (echelon, some rank) ∧
      ∀ row ∈ echelon.rows, RowHasValues V row := by
  have hreduced := (reduce_values hroots hm hvalues).1
  obtain ⟨column, hrun, -⟩ := Elimination.run_eliminate (s := s) m.columns
    (.start (m.reduce s []).value.rows) (Nat.zero_add m.columns)
  obtain ⟨⟨pivots, hpivots⟩, -⟩ := (Elimination.isReduced_start hreduced).run hroots
    (Elimination.isRegular_start (isRectangular_reduce s [] hm)) hrun hnonzero
  have hechelon : ∀ row ∈
      (eliminate s m.columns 0 0 (m.reduce s []).value.rows).value.1, RowHasValues V row :=
    hpivots.hasValues
  generalize hresult : (eliminate s m.columns 0 0 (m.reduce s []).value.rows).value = result
    at hechelon
  refine ⟨⟨result.1, m.columns⟩, result.2, ?_, hechelon⟩
  unfold SymbolicMatrix.rank
  rw [Build.value_bind, hasUndefined_eq_false hreduced, if_neg Bool.false_ne_true]
  simp only [Build.value_bind, Build.value_pure, columns_reduce, hresult]
  rw [hasUndefined_eq_false hechelon, if_neg Bool.false_ne_true]

end SymbolicMatrix

end EquationSolver
