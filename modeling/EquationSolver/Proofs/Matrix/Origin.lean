import EquationSolver.Proofs.Matrix.Rows
import EquationSolver.Proofs.Pool.Origin

/-!
# What elimination starts from

Elimination builds the entries of the new rows from the entries of the old ones.  It takes the
number that a cleared row is scaled with as known, which taking a rank has built before.
-/

namespace EquationSolver

open Build
open Reduction (Settings)

namespace SymbolicMatrix

instance : HoldsTerms SymbolicMatrix := ⟨fun m => terms m.rows⟩

variable {s : Settings} {definitions : Definitions} {parts : List Term}
  {rows : List (List Term)} {row pivotRow : List Term} {column place pivot : Nat}

@[simp] theorem terms_mk (rows : List (List Term)) (columns : Nat) :
    terms (mk rows columns) = terms rows := rfl

theorem row_subset (h : row ∈ rows) : row ⊆ terms rows :=
  fun t ht => mem_terms_list.2 ⟨row, h, by simpa using ht⟩

theorem terms_rows_subset (h : ∀ row ∈ rows, row ⊆ parts) : terms rows ⊆ parts := by
  intro t ht
  obtain ⟨row, hrow, ht⟩ := mem_terms_list.1 ht
  exact h row hrow (by simpa using ht)

/-! ### Access -/

theorem subset_of_mem_pieces {α : Type} {length count : Nat} {items piece : List α}
    (h : piece ∈ pieces length count items) : piece ⊆ items := by
  induction count generalizing items with
  | zero => exact absurd h List.not_mem_nil
  | succ count ih =>
    rcases List.mem_cons.1 h with rfl | h
    · exact List.take_subset _ _
    · exact fun t ht => List.drop_subset _ _ (ih h ht)

/-- An entry that is not known to be zero stands in its row. -/
theorem entryAt_mem (h : (entryAt row column).nullity s ≠ .yes) : entryAt row column ∈ row := by
  cases hentry : row[column]? with
  | some t => exact entryAt_eq hentry ▸ List.mem_of_getElem? hentry
  | none =>
    have hzero : entryAt row column = .zero := by
      rw [entryAt, List.getD_eq_getElem?_getD, hentry, Option.getD_none]
    exact absurd (hzero ▸ rfl) h

theorem subset_of_mem_exchange (h : row ∈ exchange rows place pivot) : row ⊆ terms rows := by
  have hget (i : Nat) : rows.getD i [] ⊆ terms rows := by
    rw [List.getD_eq_getElem?_getD]
    cases hrow : rows[i]? with
    | none => exact List.nil_subset _
    | some row => exact row_subset (List.mem_of_getElem? hrow)
  rcases List.mem_or_eq_of_mem_set h with h | rfl
  · rcases List.mem_or_eq_of_mem_set h with h | rfl
    · exact row_subset h
    · exact hget pivot
  · exact hget place

/-! ### Row operations -/

theorem startsFrom_normalizeRow (hrow : row ⊆ parts) (hpivot : entryAt row column ∈ row) :
    (normalizeRow s column row).StartsFrom parts := by
  unfold normalizeRow
  refine (startsFrom_number (-1)).bind fun minusOne => ?_
  refine (startsFrom_make (List.nil_subset _)).bind fun one => ?_
  refine (Reduction.startsFrom_pow (by simp [hrow hpivot]) (by simp)).bind fun inverse => ?_
  refine (startsFrom_each fun t ht => Reduction.startsFrom_mul ?_).bind fun scaled => ?_
  · simp [hrow (List.drop_subset _ _ ht)]
  · have htake : row.take column ⊆ scaled ++ inverse :: one :: minusOne :: parts :=
      fun t ht => by simp [hrow (List.take_subset _ _ ht)]
    exact startsFrom_pure (by simpa using htake)

theorem startsFrom_clearRow (hminusOne : .number (-1) ∈ parts) (hpivotRow : pivotRow ⊆ parts)
    (hrow : row ⊆ parts) : (clearRow s column pivotRow row).StartsFrom parts := by
  unfold clearRow
  dsimp only
  split_ifs with h
  · exact startsFrom_pure (by simpa using hrow)
  · refine (Reduction.startsFrom_mul (by simp [hminusOne, hrow (entryAt_mem h)])).bind
      fun scale => ?_
    refine (startsFrom_each fun p hp => ?_).bind fun cleared => ?_
    · obtain ⟨hleft, hright⟩ := List.of_mem_zip hp
      refine (Reduction.startsFrom_mul ?_).bind fun shift => Reduction.startsFrom_add ?_
      · simp [hpivotRow (List.drop_subset _ _ hright)]
      · simp [hrow (List.drop_subset _ _ hleft)]
    · have htake : row.take column ⊆ cleared ++ scale :: parts :=
        fun t ht => by simp [hrow (List.take_subset _ _ ht)]
      exact startsFrom_pure (by simpa using htake)

theorem startsFrom_eliminateColumn (hminusOne : .number (-1) ∈ parts) (hrows : terms rows ⊆ parts)
    (hpivot : findPivot? s rows place column = some pivot) :
    (eliminateColumn s place pivot column rows).StartsFrom parts := by
  obtain ⟨hplace, hlength⟩ := lt_of_findPivot? hpivot
  have hsubset : ∀ row ∈ exchange rows place pivot, row ⊆ parts := fun row hrow t ht =>
    hrows (subset_of_mem_exchange hrow ht)
  obtain ⟨row, hrow⟩ : ∃ row, rows[pivot]? = some row := ⟨_, List.getElem?_eq_getElem hlength⟩
  have hplaced : (exchange rows place pivot)[place]? = some row :=
    (getElem?_exchange_place hplace hlength).trans hrow
  have hget : (exchange rows place pivot).getD place [] = row := by
    rw [List.getD_eq_getElem?_getD, hplaced, Option.getD_some]
  unfold eliminateColumn
  dsimp only
  rw [hget]
  refine (startsFrom_normalizeRow (hsubset row (List.mem_of_getElem? hplaced))
    (entryAt_mem (nullity_of_findPivot?_eq_some hpivot hrow))).bind fun pivotRow => ?_
  have hclear {items parts' : List _} (hitems : items ⊆ exchange rows place pivot)
      (hparts : parts ⊆ parts') (hpivotRow : pivotRow ⊆ parts') :
      (each (clearRow s column pivotRow) items).StartsFrom parts' :=
    startsFrom_each fun row hrow => startsFrom_clearRow (hparts hminusOne) hpivotRow
      fun t ht => hparts (hsubset row (hitems hrow) ht)
  refine (hclear (List.take_subset _ _) (by simp) (by simp)).bind fun above => ?_
  refine (hclear (List.drop_subset _ _) (by simp) (by simp)).bind fun below => ?_
  have hpivotRow : pivotRow ⊆ terms below ++ (terms above ++ (pivotRow ++ parts)) :=
    fun t ht => by simp [ht]
  exact startsFrom_pure (by simpa using hpivotRow)

/-! ### Elimination -/

theorem startsFrom_eliminate : ∀ (columnsLeft place column : Nat) {rows : List (List Term)}
    {parts : List Term}, .number (-1) ∈ parts → terms rows ⊆ parts →
      (eliminate s columnsLeft place column rows).StartsFrom parts
  | 0, _, _, _, _, _, hrows => startsFrom_pure (by simpa using hrows)
  | columnsLeft + 1, place, column, rows, parts, hminusOne, hrows => by
    unfold eliminate
    split
    · exact startsFrom_pure (by simpa using hrows)
    · split
      · exact startsFrom_eliminate columnsLeft place (column + 1) hminusOne hrows
      case h_2 pivot hpivot =>
        refine (startsFrom_eliminateColumn hminusOne hrows hpivot).bind fun rows => ?_
        exact startsFrom_eliminate columnsLeft (place + 1) (column + 1) (by simp [hminusOne])
          (by simp)

theorem entries_subset (m : SymbolicMatrix) : m.entries ⊆ terms m := by
  intro t ht
  obtain ⟨row, hrow, ht⟩ := List.mem_flatten.1 ht
  exact row_subset hrow ht

/-- The entries of a matrix are those of the rows that it is made of. -/
theorem terms_subset_of_ofRows {rows : List (List Term)} {m : SymbolicMatrix}
    (h : ofRows rows = .ok m) : terms m ⊆ terms rows := by
  intro t ht
  unfold ofRows at h
  dsimp only at h
  split_ifs at h
  cases h
  obtain ⟨row, hrow, ht⟩ := mem_terms_list.1 ht
  obtain ⟨row', hrow', ht⟩ := List.mem_flatten.1 (subset_of_mem_pieces hrow (terms_terms row ▸ ht))
  exact row_subset hrow' ht

theorem startsFrom_reduce {m : SymbolicMatrix} (hdefinitions : terms definitions ⊆ parts)
    (hm : terms m ⊆ parts) : (m.reduce s definitions).StartsFrom parts := by
  unfold reduce
  refine (Reduction.startsFrom_reduceAll hdefinitions fun t ht => hm (entries_subset m ht)).bind
    fun entries => startsFrom_pure (terms_rows_subset fun row hrow t ht => ?_)
  simp [subset_of_mem_pieces hrow ht]

theorem startsFrom_rank {m : SymbolicMatrix} (hdefinitions : terms definitions ⊆ parts)
    (hm : terms m ⊆ parts) : (m.rank s definitions).StartsFrom parts := by
  unfold rank
  refine (startsFrom_reduce hdefinitions hm).bind fun reduced => ?_
  split
  · exact startsFrom_pure (by simp)
  · refine (startsFrom_number (-1)).bind_value ?_
    refine (startsFrom_make (List.nil_subset _)).bind fun one => ?_
    have hrows : terms reduced.rows ⊆ one :: .number (-1) :: (terms reduced ++ parts) :=
      fun t ht => by simp [show t ∈ terms reduced from ht]
    refine (startsFrom_eliminate _ _ _ (by simp) hrows).bind fun found => ?_
    refine startsFrom_pure ?_
    split_ifs <;> simp

end SymbolicMatrix

end EquationSolver
