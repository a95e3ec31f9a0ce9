import EquationSolver.Matrix

/-!
# The rows of a matrix under elimination

A row operation of elimination keeps the number of entries of each row, and leaves what
stands before its column as it is.  The row of the pivot gets a one in its column.
-/

namespace EquationSolver

namespace SymbolicMatrix

open Reduction (Settings)

variable {s : Settings} {rows : List (List Term)} {row pivotRow : List Term}
  {columns column place pivot : Nat}

/-- Every row has that many entries. -/
def HasWidth (columns : Nat) (rows : List (List Term)) : Prop :=
  ∀ row ∈ rows, row.length = columns

/-- Every row has as many entries as there are columns. -/
def IsRectangular (m : SymbolicMatrix) : Prop :=
  HasWidth m.columns m.rows

theorem HasWidth.getElem? (h : HasWidth columns rows) {i : Nat} (hrow : rows[i]? = some row) :
    row.length = columns :=
  h row (List.mem_of_getElem? hrow)

theorem entryAt_eq {t : Term} {j : Nat} (h : row[j]? = some t) : entryAt row j = t := by
  rw [entryAt, List.getD_eq_getElem?_getD, h, Option.getD_some]

theorem entryAt_congr {row' : List Term} {j : Nat} (h : row[j]? = row'[j]?) :
    entryAt row j = entryAt row' j := by
  rw [entryAt, entryAt, List.getD_eq_getElem?_getD, List.getD_eq_getElem?_getD, h]

theorem entry?_eq {m : SymbolicMatrix} {i j : Nat} (hrow : m.rows[i]? = some row) :
    m.entry? i j = row[j]? := by
  unfold entry?
  rw [hrow, Option.bind_some]

/-! ### Construction -/

theorem pieces_flatten {α : Type} {length : Nat} :
    ∀ {rows : List (List α)}, (∀ row ∈ rows, row.length = length) →
      pieces length rows.length rows.flatten = rows
  | [], _ => rfl
  | row :: rest, h => by
    obtain ⟨rfl, hrest⟩ := List.forall_mem_cons.1 h
    have ih := pieces_flatten hrest
    simp [pieces, ih]

theorem length_pieces {α : Type} (length count : Nat) (items : List α) :
    (pieces length count items).length = count := by
  induction count generalizing items with
  | zero => rfl
  | succ count ih => simp [pieces, ih]

theorem length_of_mem_pieces {α : Type} {length : Nat} {piece : List α} :
    ∀ {count : Nat} {items : List α}, items.length = count * length →
      piece ∈ pieces length count items → piece.length = length
  | 0, _, _, h => by simp [pieces] at h
  | count + 1, items, hitems, h => by
    have hlength : items.length = count * length + length := by rw [hitems, Nat.succ_mul]
    rcases List.mem_cons.1 h with rfl | hrest
    · rw [List.length_take]
      omega
    · refine length_of_mem_pieces ?_ hrest
      rw [List.length_drop]
      omega

theorem ofRows_eq (h : HasWidth columns rows) (hrows : rows ≠ []) :
    ofRows rows = .ok ⟨rows, columns⟩ := by
  obtain ⟨first, rest, rfl⟩ := List.exists_cons_of_ne_nil hrows
  have hfirst : first.length = columns := h first (by simp)
  have hentries : (first :: rest).flatten.length = (first :: rest).length * columns := by
    rw [List.length_flatten, List.map_congr_left (g := fun _ => columns) h, List.map_const',
      List.sum_replicate_nat]
  have hpieces := pieces_flatten h
  simp only [ofRows, List.headD_cons, hfirst, hentries, if_true]
  rw [hpieces]

/-! ### Exchange of rows -/

@[simp] theorem length_exchange (rows : List (List Term)) (i j : Nat) :
    (exchange rows i j).length = rows.length := by
  simp [exchange]

theorem getElem?_exchange_of_lt {k : Nat} (hk : k < place) (hpivot : place ≤ pivot) :
    (exchange rows place pivot)[k]? = rows[k]? := by
  rw [exchange, List.getElem?_set_ne (by omega), List.getElem?_set_ne (by omega)]

theorem getElem?_exchange_place (hpivot : place ≤ pivot) (hlength : pivot < rows.length) :
    (exchange rows place pivot)[place]? = rows[pivot]? := by
  by_cases h : place = pivot
  · subst h
    simp [exchange, hlength, List.getD_eq_getElem?_getD]
  · rw [exchange, List.getElem?_set_ne (fun h' => h h'.symm), List.getElem?_set_self (by omega)]
    simp [List.getD_eq_getElem?_getD, hlength]

/-- A row behind the place that is exchanged was behind it or at it before, and it is not the one
    that has come to that place. -/
theorem exists_getElem?_of_exchange {k : Nat} (hk : place < k) (hpivot : place ≤ pivot)
    (hlength : pivot < rows.length) (hrow : (exchange rows place pivot)[k]? = some row) :
    ∃ k', place ≤ k' ∧ k' ≠ pivot ∧ rows[k']? = some row := by
  by_cases h : k = pivot
  · subst h
    rw [exchange, List.getElem?_set_self (by simpa using hlength)] at hrow
    have hplace : place < rows.length := by omega
    refine ⟨place, Nat.le_refl place, by omega, ?_⟩
    simpa [List.getD_eq_getElem?_getD, hplace] using hrow
  · rw [exchange, List.getElem?_set_ne (fun h' => h h'.symm),
      List.getElem?_set_ne (by omega)] at hrow
    exact ⟨k, by omega, h, hrow⟩

theorem hasWidth_exchange (h : HasWidth columns rows) (hplace : place < rows.length)
    (hpivot : pivot < rows.length) : HasWidth columns (exchange rows place pivot) := by
  have hget (i : Nat) (hi : i < rows.length) : (rows.getD i []).length = columns := by
    rw [List.getD_eq_getElem?_getD, List.getElem?_eq_getElem hi]
    exact h _ (List.getElem_mem hi)
  intro row hrow
  rcases List.mem_or_eq_of_mem_set hrow with hrow | rfl
  · rcases List.mem_or_eq_of_mem_set hrow with hrow | rfl
    · exact h row hrow
    · exact hget pivot hpivot
  · exact hget place hplace

/-! ### The pivot -/

/-- A pivot is found among the rows without one. -/
theorem lt_of_findPivot? (h : findPivot? s rows place column = some pivot) :
    place ≤ pivot ∧ pivot < rows.length := by
  unfold findPivot? at h
  obtain ⟨i, hi, rfl⟩ := Option.map_eq_some_iff.1 h
  have hfound (verdict : Verdict) (hv : (rows.drop place).findIdx? (fun row =>
      (entryAt row column).nullity s = verdict) = some i) : i < (rows.drop place).length :=
    (List.findIdx?_eq_some_iff_findIdx_eq.1 hv).1
  have hlt : i < (rows.drop place).length := by
    rcases Option.or_eq_some_iff.1 hi with hno | ⟨-, hunknown⟩
    · exact hfound .no hno
    · exact hfound .unknown hunknown
  rw [List.length_drop] at hlt
  omega

theorem nullity_of_findPivot?_eq_none (h : findPivot? s rows place column = none) {r : Nat}
    (hr : place ≤ r) (hrow : rows[r]? = some row) : (entryAt row column).nullity s = .yes := by
  unfold findPivot? at h
  obtain ⟨hno, hunknown⟩ := Option.or_eq_none_iff.1 (Option.map_eq_none_iff.1 h)
  have hmem : row ∈ rows.drop place := by
    apply List.mem_of_getElem? (i := r - place)
    rw [List.getElem?_drop, Nat.add_sub_cancel' hr, hrow]
  have hno := List.findIdx?_eq_none_iff.1 hno row hmem
  have hunknown := List.findIdx?_eq_none_iff.1 hunknown row hmem
  cases hverdict : (entryAt row column).nullity s with
  | yes => rfl
  | no => simp [hverdict] at hno
  | unknown => simp [hverdict] at hunknown

/-- A pivot is not known to be zero. -/
theorem nullity_of_findPivot?_eq_some (h : findPivot? s rows place column = some pivot)
    (hrow : rows[pivot]? = some row) : (entryAt row column).nullity s ≠ .yes := by
  unfold findPivot? at h
  obtain ⟨i, hi, rfl⟩ := Option.map_eq_some_iff.1 h
  have hfound (verdict : Verdict) (hv : (rows.drop place).findIdx? (fun row =>
      (entryAt row column).nullity s = verdict) = some i) :
      (entryAt row column).nullity s = verdict := by
    obtain ⟨hlt, hverdict, -⟩ := List.findIdx?_eq_some_iff_getElem.1 hv
    have hget := (List.getElem?_eq_getElem hlt).symm
    rw [List.getElem?_drop, hrow] at hget
    rw [Option.some.inj hget] at hverdict
    exact of_decide_eq_true hverdict
  intro hyes
  rcases Option.or_eq_some_iff.1 hi with hno | ⟨-, hunknown⟩
  · exact nomatch hyes.symm.trans (hfound .no hno)
  · exact nomatch hyes.symm.trans (hfound .unknown hunknown)

/-! ### Row operations -/

theorem value_normalizeRow (s : Settings) (column : Nat) (row : List Term) :
    ∃ scaled, (normalizeRow s column row).value = row.take column ++ .one :: scaled ∧
      scaled.length = row.length - (column + 1) :=
  ⟨_, rfl, by simp⟩

theorem length_normalizeRow (s : Settings) (h : column < row.length) :
    (normalizeRow s column row).value.length = row.length := by
  obtain ⟨scaled, hvalue, hscaled⟩ := value_normalizeRow s column row
  rw [hvalue, List.length_append, List.length_take, List.length_cons, hscaled]
  omega

theorem getElem?_normalizeRow_of_lt (s : Settings) (h : column < row.length) {j : Nat}
    (hj : j < column) : (normalizeRow s column row).value[j]? = row[j]? := by
  obtain ⟨scaled, hvalue, -⟩ := value_normalizeRow s column row
  rw [hvalue, List.getElem?_append_left (by rw [List.length_take]; omega),
    List.getElem?_take_of_lt hj]

theorem getElem?_normalizeRow_self (s : Settings) (h : column < row.length) :
    (normalizeRow s column row).value[column]? = some .one := by
  obtain ⟨scaled, hvalue, -⟩ := value_normalizeRow s column row
  have hlength : (row.take column).length = column := by
    rw [List.length_take]
    omega
  rw [hvalue, List.getElem?_append_right (by omega), hlength, Nat.sub_self]
  rfl

/-- A row whose entry is known to be zero is left as it is. -/
theorem value_clearRow_of_yes (h : (entryAt row column).nullity s = .yes) :
    (clearRow s column pivotRow row).value = row := by
  unfold clearRow
  rw [if_pos h]
  rfl

/-- From any other row a multiple of the row with the pivot is subtracted. -/
theorem value_clearRow_of_ne_yes (h : (entryAt row column).nullity s ≠ .yes) :
    (clearRow s column pivotRow row).value = row.take column ++
      ((row.drop column).zip (pivotRow.drop column)).map fun pair =>
        (Reduction.add [pair.1, (Reduction.mul s [(Reduction.mul s
          [.number (-1), entryAt row column]).value, pair.2]).value]).value := by
  unfold clearRow
  rw [if_neg h]
  simp only [Build.value_bind, Build.value_pure, Build.value_each]

theorem value_clearRow (s : Settings) (column : Nat) (h : pivotRow.length = row.length) :
    ∃ cleared, (clearRow s column pivotRow row).value = row.take column ++ cleared ∧
      cleared.length = row.length - column := by
  by_cases hzero : (entryAt row column).nullity s = .yes
  · exact ⟨row.drop column, by rw [value_clearRow_of_yes hzero, List.take_append_drop],
      List.length_drop⟩
  · exact ⟨_, value_clearRow_of_ne_yes hzero, by simp [h]⟩

theorem length_clearRow (s : Settings) (column : Nat) (h : pivotRow.length = row.length) :
    (clearRow s column pivotRow row).value.length = row.length := by
  obtain ⟨cleared, hvalue, hcleared⟩ := value_clearRow s column h
  rw [hvalue, List.length_append, List.length_take, hcleared]
  omega

theorem getElem?_clearRow_of_lt (s : Settings) (h : pivotRow.length = row.length)
    (hcolumn : column < row.length) {j : Nat} (hj : j < column) :
    (clearRow s column pivotRow row).value[j]? = row[j]? := by
  obtain ⟨cleared, hvalue, -⟩ := value_clearRow s column h
  rw [hvalue, List.getElem?_append_left (by rw [List.length_take]; omega),
    List.getElem?_take_of_lt hj]

/-! ### One column -/

/-- The row of a pivot once it is normalised. -/
def pivotRowOf (s : Settings) (place pivot column : Nat) (rows : List (List Term)) :
    List Term :=
  (normalizeRow s column ((exchange rows place pivot).getD place [])).value

theorem value_eliminateColumn (s : Settings) (place pivot column : Nat)
    (rows : List (List Term)) :
    (eliminateColumn s place pivot column rows).value =
      ((exchange rows place pivot).take place).map (fun row =>
        (clearRow s column (pivotRowOf s place pivot column rows) row).value) ++
      pivotRowOf s place pivot column rows ::
      ((exchange rows place pivot).drop (place + 1)).map (fun row =>
        (clearRow s column (pivotRowOf s place pivot column rows) row).value) := by
  simp [eliminateColumn, pivotRowOf]

section Column

variable (hplace : place ≤ pivot) (hpivot : pivot < rows.length)

include hplace hpivot

theorem length_eliminateColumn (s : Settings) (column : Nat) :
    (eliminateColumn s place pivot column rows).value.length = rows.length := by
  simp only [value_eliminateColumn, List.length_append, List.length_map, List.length_take,
    List.length_cons, List.length_drop, length_exchange]
  omega

theorem pivotRowOf_eq (s : Settings) (column : Nat) :
    ∃ row, rows[pivot]? = some row ∧
      pivotRowOf s place pivot column rows = (normalizeRow s column row).value := by
  refine ⟨rows[pivot], List.getElem?_eq_getElem hpivot, ?_⟩
  rw [pivotRowOf, List.getD_eq_getElem?_getD, getElem?_exchange_place hplace hpivot,
    List.getElem?_eq_getElem hpivot, Option.getD_some]

theorem getElem?_eliminateColumn_of_lt (s : Settings) (column : Nat) {i : Nat} (hi : i < place) :
    (eliminateColumn s place pivot column rows).value[i]? =
      (rows[i]?).map fun row =>
        (clearRow s column (pivotRowOf s place pivot column rows) row).value := by
  have hlength : i < (((exchange rows place pivot).take place).map fun row =>
      (clearRow s column (pivotRowOf s place pivot column rows) row).value).length := by
    simp only [List.length_map, List.length_take, length_exchange]
    omega
  rw [value_eliminateColumn, List.getElem?_append_left hlength, List.getElem?_map,
    List.getElem?_take_of_lt hi, getElem?_exchange_of_lt hi hplace]

theorem getElem?_eliminateColumn_place (s : Settings) (column : Nat) :
    (eliminateColumn s place pivot column rows).value[place]? =
      some (pivotRowOf s place pivot column rows) := by
  have hlength : (((exchange rows place pivot).take place).map fun row =>
      (clearRow s column (pivotRowOf s place pivot column rows) row).value).length = place := by
    simp only [List.length_map, List.length_take, length_exchange]
    omega
  rw [value_eliminateColumn, List.getElem?_append_right (by omega), hlength, Nat.sub_self]
  rfl

/-- A row behind that of the pivot comes from another one that had no pivot before. -/
theorem exists_of_getElem?_eliminateColumn {i : Nat} (hi : place < i)
    (hrow : (eliminateColumn s place pivot column rows).value[i]? = some row) :
    ∃ k before, place ≤ k ∧ k ≠ pivot ∧ rows[k]? = some before ∧
      row = (clearRow s column (pivotRowOf s place pivot column rows) before).value := by
  have hlength : (((exchange rows place pivot).take place).map fun row =>
      (clearRow s column (pivotRowOf s place pivot column rows) row).value).length = place := by
    simp only [List.length_map, List.length_take, length_exchange]
    omega
  obtain ⟨d, rfl⟩ := Nat.exists_eq_add_of_lt hi
  rw [value_eliminateColumn, List.getElem?_append_right (by omega), hlength,
    show place + d + 1 - place = d + 1 by omega, List.getElem?_cons_succ, List.getElem?_map,
    List.getElem?_drop] at hrow
  obtain ⟨before, hbefore, rfl⟩ := Option.map_eq_some_iff.1 hrow
  obtain ⟨k, hk, hne, hget⟩ := exists_getElem?_of_exchange (by omega) hplace hpivot hbefore
  exact ⟨k, before, hk, hne, hget, rfl⟩

/-- Where the rows come from. -/
theorem row_cases (s : Settings) (column : Nat) {k : Nat} {row' : List Term}
    (h : (eliminateColumn s place pivot column rows).value[k]? = some row') :
    k = place ∧ row' = pivotRowOf s place pivot column rows ∨
      k ≠ place ∧ ∃ (k' : Nat) (row : List Term), k' ≠ pivot ∧ rows[k']? = some row ∧
        (k < place ∧ k' = k ∨ place < k ∧ place ≤ k') ∧
        row' = (clearRow s column (pivotRowOf s place pivot column rows) row).value := by
  rcases Nat.lt_trichotomy k place with hlt | rfl | hgt
  · rw [getElem?_eliminateColumn_of_lt hplace hpivot s column hlt] at h
    obtain ⟨row, hrow, rfl⟩ := Option.map_eq_some_iff.1 h
    exact .inr ⟨Nat.ne_of_lt hlt, k, row, by omega, hrow, .inl ⟨hlt, rfl⟩, rfl⟩
  · rw [getElem?_eliminateColumn_place hplace hpivot s column] at h
    exact .inl ⟨rfl, (Option.some.inj h).symm⟩
  · obtain ⟨k', row, hk', hne, hrow, heq⟩ :=
      exists_of_getElem?_eliminateColumn hplace hpivot hgt h
    exact .inr ⟨Nat.ne_of_gt hgt, k', row, hne, hrow, .inr ⟨hgt, hk'⟩, heq⟩

theorem length_pivotRowOf (h : HasWidth columns rows) (hcolumn : column < columns) :
    (pivotRowOf s place pivot column rows).length = columns := by
  obtain ⟨row, hrow, hvalue⟩ := pivotRowOf_eq hplace hpivot s column
  have hlength := h.getElem? hrow
  rw [hvalue, length_normalizeRow s (by omega), hlength]

theorem hasWidth_eliminateColumn (h : HasWidth columns rows) (hcolumn : column < columns) :
    HasWidth columns (eliminateColumn s place pivot column rows).value := by
  have hpivotRow := length_pivotRowOf hplace hpivot (s := s) h hcolumn
  have hexchange := hasWidth_exchange h (Nat.lt_of_le_of_lt hplace hpivot) hpivot
  have hclear (row : List Term) (hrow : row ∈ exchange rows place pivot) :
      (clearRow s column (pivotRowOf s place pivot column rows) row).value.length = columns := by
    rw [length_clearRow s column (by rw [hpivotRow, hexchange row hrow]), hexchange row hrow]
  rw [value_eliminateColumn]
  intro row hrow
  rcases List.mem_append.1 hrow with habove | hrest
  · obtain ⟨before, hbefore, rfl⟩ := List.mem_map.1 habove
    exact hclear before (List.mem_of_mem_take hbefore)
  · rcases List.mem_cons.1 hrest with rfl | hbelow
    · exact hpivotRow
    · obtain ⟨before, hbefore, rfl⟩ := List.mem_map.1 hbelow
      exact hclear before (List.mem_of_mem_drop hbefore)

end Column

end SymbolicMatrix

end EquationSolver
