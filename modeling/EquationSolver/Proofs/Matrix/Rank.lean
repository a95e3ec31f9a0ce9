import EquationSolver.Proofs.Matrix.Elimination
import EquationSolver.Proofs.Reduction.Memory

/-!
# The rank of a matrix and the columns of its pivots

Taking the rank keeps the size of a matrix and counts the pivots of an elimination.  Each row with a
pivot has it in a column of its own, further to the right than the rows above.  So when there are as
many pivots as columns but one, either the last column is the one without a pivot, and all others
stand on the diagonal, or the last row has its pivot in the last column.
-/

namespace EquationSolver

open Reduction (Settings Step)

/-! ### Reduced entries -/

namespace Reduction

theorem length_reduceTerms (s : Settings) (symbol : String → Step Term) (terms : List Term)
    (memory : Memory) : (reduceTerms s symbol terms memory).value.1.length = terms.length := by
  induction terms generalizing memory with
  | nil => rw [reduceTerms]; rfl
  | cons t ts ih =>
    rw [reduceTerms]
    exact congrArg (· + 1) (ih (reduceTerm s symbol t memory).value.2)

theorem length_reduceAll (s : Settings) (definitions : Definitions) (terms : List Term) :
    (reduceAll s definitions terms).value.length = terms.length :=
  length_reduceTerms s _ terms {}

end Reduction

namespace SymbolicMatrix

variable {s : Settings} {definitions : Definitions} {m m' : SymbolicMatrix} {rank : Nat}

theorem IsRectangular.length_entries (h : m.IsRectangular) :
    m.entries.length = m.rowCount * m.columns := by
  rw [entries, List.length_flatten, List.map_congr_left (g := fun _ => m.columns) h,
    List.map_const', List.sum_replicate_nat, rowCount]

@[simp] theorem columns_reduce (s : Settings) (definitions : Definitions) (m : SymbolicMatrix) :
    (m.reduce s definitions).value.columns = m.columns := rfl

theorem length_rows_reduce (s : Settings) (definitions : Definitions) (m : SymbolicMatrix) :
    (m.reduce s definitions).value.rows.length = m.rows.length :=
  length_pieces _ _ _

theorem isRectangular_reduce (s : Settings) (definitions : Definitions)
    (h : m.IsRectangular) : (m.reduce s definitions).value.IsRectangular := by
  intro row hrow
  refine length_of_mem_pieces ?_ hrow
  rw [Reduction.length_reduceAll, h.length_entries, columns_reduce]

/-! ### Working out a rank -/

/-- Without definitions each entry is reduced on its own. -/
theorem value_reduce_nil (s : Settings) (m : SymbolicMatrix) : (m.reduce s []).value =
    ⟨pieces m.columns m.rowCount (m.entries.map fun t => (Reduction.reduceKept s t).value),
      m.columns⟩ := by
  rw [SymbolicMatrix.reduce, Build.value_bind, Reduction.reduceAll_nil]
  rfl

section Columns

variable {left place column pivot : Nat} {rows rows' : List (List Term)}

/-- Elimination goes on behind a column with a pivot. -/
theorem value_eliminate_of_pivot (hrow : place < rows.length)
    (hpivot : findPivot? s rows place column = some pivot)
    (hrows : (eliminateColumn s place pivot column rows).value = rows') :
    (eliminate s (left + 1) place column rows).value =
      (eliminate s left (place + 1) (column + 1) rows').value := by
  rw [eliminate, if_neg (Nat.not_le.2 hrow), hpivot, ← hrows]
  rfl

/-- Elimination ends when every row has a pivot. -/
theorem value_eliminate_of_le (hrow : rows.length ≤ place) :
    (eliminate s left place column rows).value = (rows, place) := by
  cases left with
  | zero => rfl
  | succ left => rw [eliminate, if_pos hrow, Build.value_pure]

/-- The rank of a matrix is worked out from its reduced entries. -/
theorem value_rank {reduced : SymbolicMatrix} (hreduce : (m.reduce s definitions).value = reduced)
    (heliminate : (eliminate s reduced.columns 0 0 reduced.rows).value = (rows, rank))
    (hentries : reduced.hasUndefined = false)
    (hrows : (⟨rows, reduced.columns⟩ : SymbolicMatrix).hasUndefined = false) :
    (m.rank s definitions).value = (⟨rows, reduced.columns⟩, some rank) := by
  rw [SymbolicMatrix.rank, Build.value_bind, hreduce, hentries]
  simp only [Bool.false_eq_true, if_false, Build.value_bind, Build.value_pure, heliminate, hrows]

end Columns

/-! ### The rank -/

/-- A rank is the number of pivots when elimination comes to its end. -/
theorem finished_of_rank (h : (m.rank s definitions).value = (m', some rank)) :
    m'.columns = m.columns ∧ ∃ column,
      Elimination.Run s m.columns (.start (m.reduce s definitions).value.rows)
        ⟨m'.rows, rank, column⟩ ∧
      Elimination.IsFinished m.columns ⟨m'.rows, rank, column⟩ := by
  unfold SymbolicMatrix.rank at h
  rw [Build.value_bind] at h
  split at h
  · exact absurd h (by simp)
  · have hrun := Elimination.run_eliminate (s := s) m.columns
      (.start (m.reduce s definitions).value.rows) (Nat.zero_add m.columns)
    simp only [Build.value_bind, Build.value_pure, columns_reduce, Prod.mk.injEq] at h
    obtain ⟨rfl, hrank⟩ := h
    obtain ⟨-, hrank⟩ := Option.ite_none_left_eq_some.1 hrank
    cases hrank
    exact ⟨rfl, hrun⟩

/-- Taking a rank leaves behind rows that elimination comes to. -/
theorem exists_run_of_rank (s : Settings) (definitions : Definitions) (m : SymbolicMatrix) :
    ∃ e, Elimination.Run s m.columns (.start (m.reduce s definitions).value.rows) e ∧
      (m.rank s definitions).value.1.rows = e.rows := by
  unfold SymbolicMatrix.rank
  rw [Build.value_bind]
  split
  · exact ⟨_, .refl, rfl⟩
  · obtain ⟨column, hrun, -⟩ := Elimination.run_eliminate (s := s) m.columns
      (.start (m.reduce s definitions).value.rows) (Nat.zero_add m.columns)
    exact ⟨_, hrun, rfl⟩

theorem run_of_rank (h : (m.rank s definitions).value = (m', some rank)) :
    m'.columns = m.columns ∧ ∃ column,
      Elimination.Run s m.columns (.start (m.reduce s definitions).value.rows)
        ⟨m'.rows, rank, column⟩ := by
  obtain ⟨hcolumns, column, hrun, -⟩ := finished_of_rank h
  exact ⟨hcolumns, column, hrun⟩

/-- The state of an elimination that a rank is read off. -/
theorem isRegular_of_rank (hm : m.IsRectangular)
    (h : (m.rank s definitions).value = (m', some rank)) :
    ∃ column, Elimination.IsRegular m.rows.length m.columns ⟨m'.rows, rank, column⟩ := by
  obtain ⟨-, column, hrun⟩ := run_of_rank h
  have hstart := Elimination.isRegular_start (isRectangular_reduce s definitions hm)
  rw [length_rows_reduce] at hstart
  exact ⟨column, hstart.run hrun⟩

theorem isRectangular_of_rank (hm : m.IsRectangular)
    (h : (m.rank s definitions).value = (m', some rank)) : m'.IsRectangular := by
  obtain ⟨column, hregular⟩ := isRegular_of_rank hm h
  unfold IsRectangular
  rw [(run_of_rank h).1]
  exact hregular.width

theorem rank_le (hm : m.IsRectangular)
    (h : (m.rank s definitions).value = (m', some rank)) :
    rank ≤ m.rows.length ∧ rank ≤ m.columns ∧ m'.rows.length = m.rows.length := by
  obtain ⟨column, hregular⟩ := isRegular_of_rank hm h
  exact ⟨hregular.place_le, Nat.le_trans hregular.place_le_column hregular.column_le,
    hregular.length_rows⟩

/-- When every column has a pivot, the pivots stand on the diagonal. -/
theorem one_on_diagonal (hm : m.IsRectangular)
    (h : (m.rank s definitions).value = (m', some m.columns)) {i : Nat} (hi : i < m.columns) :
    ∃ row, m'.rows[i]? = some row ∧ row[i]? = some .one := by
  obtain ⟨column, hregular⟩ := isRegular_of_rank hm h
  obtain ⟨j, row, hpivot⟩ := hregular.pivots i hi
  have hcolumn : column ≤ m.columns := hregular.column_le
  have hle := hpivot.le
  have hle' : j + m.columns ≤ column + i := hpivot.le_column
  obtain rfl : j = i := by omega
  exact ⟨row, hpivot.row_eq, hpivot.one_eq⟩

/-- When every column has a pivot, and elimination has left zeros in all columns but the last,
    the row of the last pivot is known to be zero up to it. -/
theorem exists_row_of_clears (hm : m.IsRectangular) {last : Nat} (hcolumns : m.columns = last + 1)
    (h : (m.rank s definitions).value = (m', some (last + 1)))
    (hclears : Elimination.Clears s m.columns last
      (.start (m.reduce s definitions).value.rows)) :
    ∃ row, m'.rows[last]? = some row ∧ row[last]? = some .one ∧
      Elimination.IsZeroBefore s last row := by
  obtain ⟨-, column, hrun⟩ := run_of_rank h
  have hstart := Elimination.isRegular_start (isRectangular_reduce s definitions hm)
  have hregular := hstart.run hrun
  have hle : last + 1 ≤ column := hregular.place_le_column
  have hle' : column ≤ m.columns := hregular.column_le
  exact hclears.exists_row (Elimination.isCleared_start s _) hstart hrun (Nat.zero_le last) rfl
    (by dsimp only; omega)

end SymbolicMatrix

open SymbolicMatrix

/-! ### Ascending lists -/

/-- An ascending list of numbers that starts at a number and stays below another one. -/
theorem bounds_of_ascending {l : List Nat} {low high : Nat} (h : l.Pairwise (· < ·))
    (hlow : ∀ j ∈ l, low ≤ j) (hhigh : ∀ j ∈ l, j < high) {i j : Nat} (hj : l[i]? = some j) :
    low + i ≤ j ∧ j + l.length ≤ high + i := by
  induction l generalizing i j low with
  | nil => simp at hj
  | cons first rest ih =>
    obtain ⟨hfirst, hrest⟩ := List.pairwise_cons.1 h
    obtain ⟨hlowFirst, hlowRest⟩ := List.forall_mem_cons.1 hlow
    obtain ⟨hhighFirst, hhighRest⟩ := List.forall_mem_cons.1 hhigh
    have hnext : ∀ j ∈ rest, first + 1 ≤ j := hfirst
    cases i with
    | succ i =>
      obtain ⟨hge, hle⟩ := ih hrest hnext hhighRest (by simpa using hj)
      rw [List.length_cons]
      omega
    | zero =>
      obtain rfl : first = j := by simpa using hj
      rw [List.length_cons]
      refine ⟨hlowFirst, ?_⟩
      -- the last of the others is beyond `first` by at least their number
      cases hlast : rest[rest.length - 1]? with
      | none =>
        have hnil : rest.length = 0 := by
          have := List.getElem?_eq_none_iff.1 hlast
          omega
        omega
      | some last =>
        have hlt : rest.length - 1 < rest.length := (List.getElem?_eq_some_iff.1 hlast).1
        obtain ⟨hge, hle⟩ := ih hrest hnext hhighRest hlast
        omega

namespace Elimination

variable {s : Settings} {rowCount columns : Nat} {e e' : Elimination} {pivots : List Nat}

/-- The rows with a pivot have it in these columns. -/
structure HasPivots (e : Elimination) (pivots : List Nat) : Prop where
  length_eq : pivots.length = e.place
  ascending : pivots.Pairwise (· < ·)
  lt_column : ∀ j ∈ pivots, j < e.column
  one : ∀ i j : Nat, pivots[i]? = some j → ∃ row : List Term, e.rows[i]? = some row ∧ row[j]? = some .one

theorem hasPivots_start (rows : List (List Term)) : (start rows).HasPivots [] where
  length_eq := rfl
  ascending := .nil
  lt_column := fun _ hj => nomatch hj
  one := fun _ _ hj => nomatch hj

/-- Among the pivots and the column that comes next, the column is that of the next row. -/
theorem HasPivots.cases_append (h : e.HasPivots pivots) {i j : Nat}
    (hij : (pivots ++ [e.column])[i]? = some j) :
    i < e.place ∧ j < e.column ∧ pivots[i]? = some j ∨ i = e.place ∧ j = e.column := by
  rw [← h.length_eq]
  have hlt := (List.getElem?_eq_some_iff.1 hij).1
  rw [List.length_append, List.length_singleton] at hlt
  rcases Nat.lt_or_ge i pivots.length with hi | hi
  · rw [List.getElem?_append_left hi] at hij
    exact .inl ⟨hi, h.lt_column j (List.mem_of_getElem? hij), hij⟩
  · obtain rfl : i = pivots.length := by omega
    exact .inr ⟨rfl, by simpa using hij.symm⟩

theorem HasPivots.step (h : e.HasPivots pivots) (hwidth : HasWidth columns e.rows)
    (hstep : Step s columns e e') : ∃ pivots', e'.HasPivots pivots' ∧
      (e'.place = e.place ∧ pivots' = pivots ∨
        e'.place = e.place + 1 ∧ pivots' = pivots ++ [e.column]) := by
  have hcolumn := hstep.column_eq
  have hold : ∀ i j : Nat, pivots[i]? = some j → ∃ row : List Term, e'.rows[i]? = some row ∧ row[j]? = some .one := by
    intro i j hj
    have hi : i < e.place := h.length_eq ▸ (List.getElem?_eq_some_iff.1 hj).1
    obtain ⟨row, hrow, hone⟩ := h.one i j hj
    obtain ⟨row', hrow', hagree⟩ := hstep.above hwidth hi hrow
    exact ⟨row', hrow', by rw [hagree j (h.lt_column j (List.mem_of_getElem? hj)), hone]⟩
  rcases hstep.place_cases with hplace | hplace
  · refine ⟨pivots, ⟨h.length_eq.trans hplace.symm, h.ascending, ?_, hold⟩, .inl ⟨hplace, rfl⟩⟩
    intro j hj
    have := h.lt_column j hj
    omega
  · refine ⟨pivots ++ [e.column], ⟨?_, ?_, ?_, ?_⟩, .inr ⟨hplace, rfl⟩⟩
    · simp [h.length_eq, hplace]
    · refine List.pairwise_append.2 ⟨h.ascending, by simp, ?_⟩
      intro j hj k hk
      rw [List.mem_singleton.1 hk]
      exact h.lt_column j hj
    · intro j hj
      rcases List.mem_append.1 hj with hj | hj
      · have := h.lt_column j hj
        omega
      · rw [List.mem_singleton.1 hj]
        omega
    · intro i j hj
      rcases h.cases_append hj with ⟨-, -, hij⟩ | ⟨rfl, rfl⟩
      · exact hold i j hij
      · obtain ⟨-, -, row, -, -, hrow, hone, -⟩ := hstep.new hwidth hplace
        exact ⟨row, hrow, hone⟩

theorem HasPivots.skipped {rows : List (List Term)} {place column : Nat}
    (h : HasPivots ⟨rows, place, column⟩ pivots) : HasPivots ⟨rows, place, column + 1⟩ pivots where
  length_eq := h.length_eq
  ascending := h.ascending
  lt_column := fun j hj => Nat.lt_succ_of_lt (h.lt_column j hj)
  one := h.one

theorem HasPivots.pivoted {rows : List (List Term)} {place column pivot : Nat}
    (h : HasPivots ⟨rows, place, column⟩ pivots) (hwidth : HasWidth columns rows)
    (hrow : place < rows.length) (hcolumn : column < columns)
    (hpivot : findPivot? s rows place column = some pivot) :
    HasPivots ⟨(eliminateColumn s place pivot column rows).value, place + 1, column + 1⟩
      (pivots ++ [column]) := by
  obtain ⟨pivots', hpivots', hcases⟩ := h.step hwidth (.pivot hrow hcolumn hpivot)
  rcases hcases with ⟨hsame, -⟩ | ⟨-, rfl⟩
  · exact absurd hsame (Nat.succ_ne_self place)
  · exact hpivots'

theorem HasPivots.run (h : e.HasPivots pivots) (hregular : e.IsRegular rowCount columns)
    (hrun : Run s columns e e') : ∃ pivots', e'.HasPivots pivots' := by
  induction hrun with
  | refl => exact ⟨pivots, h⟩
  | tail hrun hstep ih =>
    obtain ⟨pivots', h'⟩ := ih
    obtain ⟨pivots'', h'', -⟩ := h'.step (hregular.run hrun).width hstep
    exact ⟨pivots'', h''⟩

/-! ### Zeros around the pivots -/

/-- The rows are zero around their pivots, for some notion of being zero in a column. -/
structure HasZerosAround (IsZeroAt : List Term → Nat → Prop) (e : Elimination) (pivots : List Nat) :
    Prop where
  hasPivots : e.HasPivots pivots
  /-- Rows without a pivot are zero. -/
  zero_below : ∀ (i : Nat) (row : List Term), e.place ≤ i → e.rows[i]? = some row →
    ∀ j < e.column, IsZeroAt row j
  /-- A row is zero before its pivot. -/
  zero_before : ∀ (i j : Nat) (row : List Term), pivots[i]? = some j → e.rows[i]? = some row →
    ∀ k < j, IsZeroAt row k
  /-- The other rows are zero in the column of a pivot. -/
  zero_beside : ∀ (i j k : Nat) (row : List Term), pivots[i]? = some j → k ≠ i →
    e.rows[k]? = some row → IsZeroAt row j

section Zeros

variable {IsZeroAt : List Term → Nat → Prop} {rows : List (List Term)} {place column pivot : Nat}

theorem hasZerosAround_start (rows : List (List Term)) :
    (start rows).HasZerosAround IsZeroAt [] where
  hasPivots := hasPivots_start rows
  zero_below := fun _ _ _ _ j hj => absurd hj (Nat.not_lt_zero j)
  zero_before := fun _ _ _ hj => nomatch hj
  zero_beside := fun _ _ _ _ hj => nomatch hj

/-- A column is passed in which the rows without a pivot are zero. -/
theorem HasZerosAround.skipped (h : HasZerosAround IsZeroAt ⟨rows, place, column⟩ pivots)
    (hzero : ∀ (i : Nat) (row : List Term), place ≤ i → rows[i]? = some row → IsZeroAt row column) :
    HasZerosAround IsZeroAt ⟨rows, place, column + 1⟩ pivots where
  hasPivots := h.hasPivots.skipped
  zero_below := by
    intro i row hi hrow j hj
    rcases Nat.lt_succ_iff_lt_or_eq.1 hj with hlt | rfl
    · exact h.zero_below i row hi hrow j hlt
    · exact hzero i row hi hrow
  zero_before := h.zero_before
  zero_beside := h.zero_beside

/-- A pivot is taken whose row is zero before it; clearing the other rows keeps the zeros before the
    column, and leaves one in it. -/
theorem HasZerosAround.pivoted (h : HasZerosAround IsZeroAt ⟨rows, place, column⟩ pivots)
    (hwidth : HasWidth columns rows) (hrow : place < rows.length) (hcolumn : column < columns)
    (hpivot : findPivot? s rows place column = some pivot)
    (hlead : ∀ j < column, IsZeroAt (pivotRowOf s place pivot column rows) j)
    (hkept : ∀ (k : Nat) (row : List Term), rows[k]? = some row → ∀ j < column, IsZeroAt row j →
      IsZeroAt (clearRow s column (pivotRowOf s place pivot column rows) row).value j)
    (hcleared : ∀ (k : Nat) (row : List Term), k ≠ pivot → rows[k]? = some row →
      IsZeroAt (clearRow s column (pivotRowOf s place pivot column rows) row).value column) :
    HasZerosAround IsZeroAt
      ⟨(eliminateColumn s place pivot column rows).value, place + 1, column + 1⟩
      (pivots ++ [column]) := by
  obtain ⟨hplace, hlength⟩ := lt_of_findPivot? hpivot
  constructor
  case hasPivots => exact h.hasPivots.pivoted hwidth hrow hcolumn hpivot
  case zero_below =>
    intro i row' hi hrow' j hj
    dsimp only at hi hrow' hj
    rcases row_cases hplace hlength s column hrow' with
      ⟨heq, -⟩ | ⟨-, k, row, hne, hget, hfrom, rfl⟩
    · omega
    · rcases Nat.lt_succ_iff_lt_or_eq.1 hj with hlt | rfl
      · exact hkept k row hget j hlt (h.zero_below k row (by dsimp only; omega) hget j hlt)
      · exact hcleared k row hne hget
  case zero_before =>
    intro i j row' hij hrow' k hk
    dsimp only at hrow'
    rcases row_cases hplace hlength s column hrow' with
        ⟨heq, rfl⟩ | ⟨hother, k', row, -, hget, hfrom, rfl⟩ <;>
      rcases h.hasPivots.cases_append hij with ⟨hi, hj, hij⟩ | ⟨rfl, rfl⟩
    · exact absurd heq (Nat.ne_of_lt hi)
    · exact hlead k hk
    · -- a row with a pivot stays where it is
      obtain rfl : k' = i := by
        dsimp only at hi
        omega
      exact hkept k' row hget k (Nat.lt_trans hk hj) (h.zero_before k' j row hij hget k hk)
    · exact absurd rfl hother
  case zero_beside =>
    intro i j k row' hij hki hrow'
    dsimp only at hrow'
    rcases row_cases hplace hlength s column hrow' with
        ⟨heq, rfl⟩ | ⟨-, k', row, hne, hget, hfrom, rfl⟩ <;>
      rcases h.hasPivots.cases_append hij with ⟨hi, hj, hij⟩ | ⟨rfl, rfl⟩
    · exact hlead j hj
    · exact absurd heq hki
    · refine hkept k' row hget j hj (h.zero_beside i j k' row hij ?_ hget)
      dsimp only at hi
      omega
    · exact hcleared k' row hne hget

end Zeros

end Elimination

namespace SymbolicMatrix

variable {s : Settings} {definitions : Definitions} {m m' : SymbolicMatrix} {rank : Nat}

theorem findPivot?_drop (s : Settings) (rows : List (List Term)) (start column : Nat) :
    findPivot? s rows start column =
      (findPivot? s (rows.drop start) 0 column).map (start + ·) := by
  simp [findPivot?]

/-- The only row whose entry is not known to be zero has the pivot. -/
theorem findPivot?_of_only {s : Settings} {row : List Term}
    {rows : List (List Term)} {column : Nat} (hrow : (entryAt row column).nullity s ≠ .yes)
    (hrest : ∀ other ∈ rows, (entryAt other column).nullity s = .yes) :
    findPivot? s (row :: rows) 0 column = some 0 := by
  have hnone (verdict : Verdict) (hverdict : verdict ≠ .yes) :
      rows.findIdx? (fun other => (entryAt other column).nullity s = verdict) = none := by
    rw [List.findIdx?_eq_none_iff]
    intro other hother
    rw [hrest other hother]
    exact decide_eq_false hverdict.symm
  unfold findPivot?
  simp only [List.drop_zero, List.findIdx?_cons]
  cases hverdict : (entryAt row column).nullity s with
  | yes => exact absurd hverdict hrow
  | no => rfl
  | unknown => simp [hnone]

end SymbolicMatrix

end EquationSolver
