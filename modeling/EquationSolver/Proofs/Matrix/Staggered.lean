import EquationSolver.Proofs.Matrix.Echelon

/-!
# Staggered rows

Rows are staggered when each of them is zero or leads with a one, in a column that no other row
leads in.  The rows of an echelon form are, and they stay so when a pin is added to them in a
column without a pivot.  Eliminating staggered rows finds a pivot for each of them that is not
zero: a row that still waits for its pivot is not changed, since it has a zero in the column of
every pivot before its own.
-/

namespace EquationSolver

open Reduction (Settings DrawsRoots)

namespace SymbolicMatrix

variable {s : Settings} {rows : List (List Term)} {row row' : List Term} {j column : Nat}

/-! ### Where a row leads -/

/-- The column of the first entry of a row that is not the number zero. -/
def leadColumn? (row : List Term) : Option Nat :=
  row.findIdx? fun t => t ≠ .zero

/-- The columns in which rows lead. -/
def leadColumns (rows : List (List Term)) : List Nat :=
  rows.filterMap leadColumn?

theorem leadColumn?_eq_some_iff : leadColumn? row = some j ↔
    (∃ t, row[j]? = some t ∧ t ≠ .zero) ∧ ∀ k < j, row[k]? = some .zero := by
  unfold leadColumn?
  rw [List.findIdx?_eq_some_iff_getElem]
  constructor
  · rintro ⟨hj, hne, hbefore⟩
    refine ⟨⟨row[j], List.getElem?_eq_getElem hj, by simpa using hne⟩, fun k hk => ?_⟩
    rw [List.getElem?_eq_getElem (hk.trans hj)]
    exact congrArg some (by simpa using hbefore k hk)
  · rintro ⟨⟨t, ht, hne⟩, hbefore⟩
    obtain ⟨hj, rfl⟩ := List.getElem?_eq_some_iff.1 ht
    refine ⟨hj, by simpa using hne, fun k hk => ?_⟩
    obtain ⟨_, hzero⟩ := List.getElem?_eq_some_iff.1 (hbefore k hk)
    simpa using hzero

theorem leadColumn?_eq_none_iff : leadColumn? row = none ↔ ∀ t ∈ row, t = .zero := by
  unfold leadColumn?
  rw [List.findIdx?_eq_none_iff]
  simp

theorem lt_of_leadColumn? (h : leadColumn? row = some j) : j < row.length := by
  obtain ⟨⟨t, ht, -⟩, -⟩ := leadColumn?_eq_some_iff.1 h
  exact (List.getElem?_eq_some_iff.1 ht).1

/-- A row is zero in a column unless it leads there or before. -/
theorem entryAt_eq_zero (h : ∀ j, leadColumn? row = some j → column < j) :
    entryAt row column = .zero := by
  cases hlead : leadColumn? row with
  | some j => exact entryAt_eq ((leadColumn?_eq_some_iff.1 hlead).2 column (h j hlead))
  | none =>
    cases hentry : row[column]? with
    | some t =>
      rw [entryAt_eq hentry]
      exact leadColumn?_eq_none_iff.1 hlead t (List.mem_of_getElem? hentry)
    | none => rw [entryAt, List.getD_eq_getElem?_getD, hentry, Option.getD_none]

/-- Rows that agree up to the column in which one of them leads, and there, lead in it. -/
theorem leadColumn?_congr (hagree : Elimination.AgreeBefore column row' row)
    (hlead : leadColumn? row = some j) (hj : j < column) : leadColumn? row' = some j := by
  obtain ⟨⟨t, ht, hne⟩, hbefore⟩ := leadColumn?_eq_some_iff.1 hlead
  refine leadColumn?_eq_some_iff.2 ⟨⟨t, (hagree j hj).trans ht, hne⟩, fun k hk => ?_⟩
  exact (hagree k (hk.trans hj)).trans (hbefore k hk)

/-- Each row is zero or leads with a one, in a column of its own. -/
structure IsStaggered (rows : List (List Term)) : Prop where
  one : ∀ row ∈ rows, ∀ j, leadColumn? row = some j → row[j]? = some .one
  nodup : (leadColumns rows).Nodup

theorem one_ne_zero_term : Term.one ≠ Term.zero := by
  decide +kernel

/-- The pivots of staggered rows are where they lead. -/
theorem IsStaggered.pivotColumns_eq (h : IsStaggered rows) (s : Settings) (columns : Nat) :
    (⟨rows, columns⟩ : SymbolicMatrix).pivotColumns s = leadColumns rows := by
  refine List.filterMap_congr fun row hrow => ?_
  have hzero : Term.zero.nullity s = .yes := rfl
  cases hlead : leadColumn? row with
  | none =>
    rw [List.findIdx?_eq_none_iff]
    intro t ht
    rw [leadColumn?_eq_none_iff.1 hlead t ht, hzero]
    rfl
  | some j =>
    obtain ⟨hj, hone⟩ := List.getElem?_eq_some_iff.1 (h.one row hrow j hlead)
    rw [List.findIdx?_eq_some_iff_getElem]
    refine ⟨hj, by rw [hone]; rfl, fun k hk => ?_⟩
    obtain ⟨_, hbefore⟩ := List.getElem?_eq_some_iff.1 ((leadColumn?_eq_some_iff.1 hlead).2 k hk)
    rw [hbefore, hzero]
    simp

/-! ### One column -/

/-- A row that is zero in the column of a pivot is left as it is. -/
theorem clearRow_of_zero {pivotRow : List Term} (s : Settings) (h : entryAt row column = .zero) :
    (clearRow s column pivotRow row).value = row :=
  value_clearRow_of_yes (h ▸ rfl)

section Column

variable {place pivot : Nat} {q : List Term}

/-- The row of the pivot is taken out of those without one. -/
theorem exists_rest (hplace : place ≤ pivot) (hq : rows[pivot]? = some q) :
    ∃ rest, (q :: rest).Perm (rows.drop place) ∧ ∀ s column,
      pivotRowOf s place pivot column rows = (normalizeRow s column q).value ∧
      (eliminateColumn s place pivot column rows).value =
        (rows.take place).map (fun row =>
          (clearRow s column (normalizeRow s column q).value row).value) ++
        (normalizeRow s column q).value :: rest.map (fun row =>
          (clearRow s column (normalizeRow s column q).value row).value) := by
  obtain ⟨hlength, hget⟩ := List.getElem?_eq_some_iff.1 hq
  have hplaceLength : place < rows.length := Nat.lt_of_le_of_lt hplace hlength
  have htake : (exchange rows place pivot).take place = rows.take place := by
    refine List.ext_getElem? fun i => ?_
    rw [List.getElem?_take, List.getElem?_take]
    split_ifs with hi
    · exact getElem?_exchange_of_lt hi hplace
    · rfl
  have hdrop : (exchange rows place pivot).drop place =
      q :: (exchange rows place pivot).drop (place + 1) := by
    have hexchanged : (exchange rows place pivot)[place]? = some q :=
      (getElem?_exchange_place hplace hlength).trans hq
    obtain ⟨hlt, heq⟩ := List.getElem?_eq_some_iff.1 hexchanged
    rw [← List.getElem_cons_drop hlt, heq]
  have hperm : (exchange rows place pivot).Perm rows := by
    unfold exchange
    rw [List.getD_eq_getElem?_getD, List.getD_eq_getElem?_getD, List.getElem?_eq_getElem hlength,
      List.getElem?_eq_getElem hplaceLength, Option.getD_some, Option.getD_some]
    exact List.set_set_perm hplaceLength hlength
  refine ⟨(exchange rows place pivot).drop (place + 1), ?_, fun s column => ?_⟩
  · rw [← List.take_append_drop place (exchange rows place pivot), htake, hdrop] at hperm
    exact (List.perm_append_left_iff (rows.take place)).1
      (hperm.trans (.of_eq (List.take_append_drop place rows).symm))
  · have hpivotRow : pivotRowOf s place pivot column rows = (normalizeRow s column q).value := by
      rw [pivotRowOf, List.getD_eq_getElem?_getD, getElem?_exchange_place hplace hlength, hq,
        Option.getD_some]
    rw [value_eliminateColumn, hpivotRow, htake]
    exact ⟨rfl, rfl⟩

end Column

/-- A row keeps leading where it does when a later column is cleared. -/
theorem leadColumn?_clearRow {pivotRow : List Term} (s : Settings)
    (hlength : pivotRow.length = row.length) (hcolumn : column < row.length)
    (hlead : leadColumn? row = some j) (hj : j < column) :
    leadColumn? (clearRow s column pivotRow row).value = some j :=
  leadColumn?_congr (fun _ hk => getElem?_clearRow_of_lt s hlength hcolumn hk) hlead hj

end SymbolicMatrix

/-! ### Elimination -/

namespace Elimination

open SymbolicMatrix

variable {s : Settings} {rowCount columns : Nat} {e e' : Elimination}

/-- The rows are staggered; those with a pivot lead in a column that has been passed, and the
    others do not. -/
structure IsStaggered (e : Elimination) : Prop where
  rows : SymbolicMatrix.IsStaggered e.rows
  above : ∀ row ∈ e.rows.take e.place, ∃ j < e.column, leadColumn? row = some j
  below : ∀ row ∈ e.rows.drop e.place, ∀ j, leadColumn? row = some j → e.column ≤ j

theorem isStaggered_start {rows : List (List Term)} (h : SymbolicMatrix.IsStaggered rows) :
    (start rows).IsStaggered where
  rows := h
  above := fun row hrow => absurd hrow (by simp [start])
  below := fun _ _ _ _ => Nat.zero_le _

/-- The row that gets a pivot leads in its column. -/
theorem IsStaggered.lead_of_pivot (h : e.IsStaggered) {pivot : Nat} {q : List Term}
    (hpivot : findPivot? s e.rows e.place e.column = some pivot) (hq : e.rows[pivot]? = some q) :
    leadColumn? q = some e.column := by
  obtain ⟨hplace, -⟩ := lt_of_findPivot? hpivot
  have hmem : q ∈ e.rows.drop e.place := by
    apply List.mem_of_getElem? (i := pivot - e.place)
    rw [List.getElem?_drop, Nat.add_sub_cancel' hplace, hq]
  have hnonzero : entryAt q e.column ≠ .zero := by
    intro hzero
    exact nullity_of_findPivot?_eq_some hpivot hq (hzero ▸ rfl)
  by_contra hlead
  refine hnonzero (entryAt_eq_zero fun j hj => ?_)
  have hle := h.below q hmem j hj
  have hne : j ≠ e.column := fun heq => hlead (heq ▸ hj)
  omega

/-- So the pivot is a one. -/
theorem IsStaggered.entryAt_of_pivot (h : e.IsStaggered) {pivot : Nat} {q : List Term}
    (hpivot : findPivot? s e.rows e.place e.column = some pivot) (hq : e.rows[pivot]? = some q) :
    entryAt q e.column = .one :=
  entryAt_eq (h.rows.one q (List.mem_of_getElem? hq) _ (h.lead_of_pivot hpivot hq))

section Pivot

variable {rows rest : List (List Term)} {place column pivot : Nat} {q : List Term}

/-- The other rows without a pivot lead behind the column of the pivot, if at all. -/
theorem IsStaggered.lt_of_rest (h : IsStaggered ⟨rows, place, column⟩)
    (hlead : leadColumn? q = some column) (hperm : (q :: rest).Perm (rows.drop place)) :
    ∀ row ∈ rest, ∀ j, leadColumn? row = some j → column < j := by
  intro row hrow j hj
  have hle : column ≤ j := h.below row (hperm.mem_iff.1 (List.mem_cons_of_mem _ hrow)) j hj
  have hnodup : (leadColumns (q :: rest)).Nodup :=
    (hperm.filterMap leadColumn?).nodup_iff.2
      (h.rows.nodup.sublist ((List.drop_sublist place rows).filterMap leadColumn?))
  rw [leadColumns, List.filterMap_cons_some hlead, List.nodup_cons] at hnodup
  have hne : j ≠ column := by
    rintro rfl
    exact hnodup.1 (List.mem_filterMap.2 ⟨row, hrow, hj⟩)
  omega

/-- What a pivot leaves: the rows above lead where they did, the row of the pivot leads in its
    column, and the rows below are the same. -/
theorem IsStaggered.exists_rows (h : IsStaggered ⟨rows, place, column⟩)
    (hwidth : HasWidth columns rows) (hcolumn : column < columns)
    (hpivot : findPivot? s rows place column = some pivot) :
    ∃ q rest normal, rows[pivot]? = some q ∧ leadColumn? q = some column ∧
      (q :: rest).Perm (rows.drop place) ∧ leadColumn? normal = some column ∧
      normal[column]? = some .one ∧ ∃ clear : List Term → List Term,
        (∀ row ∈ rows.take place, ∀ j, leadColumn? row = some j →
          leadColumn? (clear row) = some j ∧ (clear row)[j]? = row[j]?) ∧
        (eliminateColumn s place pivot column rows).value =
          (rows.take place).map clear ++ normal :: rest := by
  obtain ⟨hplace, hlength⟩ := lt_of_findPivot? hpivot
  have hq : rows[pivot]? = some rows[pivot] := List.getElem?_eq_getElem hlength
  generalize rows[pivot] = q at hq
  have hlead : leadColumn? q = some column := h.lead_of_pivot hpivot hq
  have hqWidth : column < q.length := lt_of_leadColumn? hlead
  obtain ⟨rest, hperm, hvalue⟩ := exists_rest hplace hq
  obtain ⟨-, hvalue⟩ := hvalue s column
  have hkept : rest.map (fun row =>
      (clearRow s column (normalizeRow s column q).value row).value) = rest := by
    refine (List.map_congr_left fun row hrow => ?_).trans (List.map_id rest)
    exact clearRow_of_zero s (entryAt_eq_zero (h.lt_of_rest hlead hperm row hrow))
  refine ⟨q, rest, (normalizeRow s column q).value, hq, hlead, hperm, ?_,
    getElem?_normalizeRow_self s hqWidth,
    fun row => (clearRow s column (normalizeRow s column q).value row).value, ?_, ?_⟩
  · refine leadColumn?_eq_some_iff.2
      ⟨⟨.one, getElem?_normalizeRow_self s hqWidth, one_ne_zero_term⟩, fun k hk => ?_⟩
    rw [getElem?_normalizeRow_of_lt s hqWidth hk]
    exact (leadColumn?_eq_some_iff.1 hlead).2 k hk
  · intro row hmem j hj
    obtain ⟨j', hlt, hj'⟩ := h.above row hmem
    obtain rfl : j' = j := Option.some.inj (hj'.symm.trans hj)
    have hrow := hwidth row (List.mem_of_mem_take hmem)
    have hnormal : (normalizeRow s column q).value.length = row.length := by
      rw [length_normalizeRow s hqWidth, hwidth q (List.mem_of_getElem? hq), hrow]
    exact ⟨leadColumn?_clearRow s hnormal (hrow ▸ hcolumn) hj hlt,
      getElem?_clearRow_of_lt s hnormal (hrow ▸ hcolumn) hlt⟩
  · rw [hvalue, hkept]

/-- A pivot leaves the rows staggered, and they lead in the same columns. -/
theorem IsStaggered.pivoted (h : IsStaggered ⟨rows, place, column⟩)
    (hwidth : HasWidth columns rows) (hrow : place < rows.length) (hcolumn : column < columns)
    (hpivot : findPivot? s rows place column = some pivot) :
    IsStaggered ⟨(eliminateColumn s place pivot column rows).value, place + 1, column + 1⟩ ∧
      (leadColumns (eliminateColumn s place pivot column rows).value).Perm (leadColumns rows) := by
  obtain ⟨q, rest, normal, -, hlead, hperm, hnormal, hone, clear, hclear, hvalue⟩ :=
    h.exists_rows hwidth hcolumn hpivot
  have hlength : ((rows.take place).map clear).length = place := by
    rw [List.length_map, List.length_take]
    omega
  have hpassed : ((rows.take place).map clear ++ [normal]).length = place + 1 := by
    rw [List.length_append, hlength, List.length_singleton]
  have habove : leadColumns ((rows.take place).map clear) = leadColumns (rows.take place) := by
    unfold leadColumns
    rw [List.filterMap_map]
    refine List.filterMap_congr fun row hmem => ?_
    obtain ⟨j, -, hj⟩ := h.above row hmem
    exact (hclear row hmem j hj).1.trans hj.symm
  have hcolumns : (leadColumns (eliminateColumn s place pivot column rows).value).Perm
      (leadColumns rows) := by
    have hrows : (rows.take place ++ q :: rest).Perm rows := by
      conv_rhs => rw [← List.take_append_drop place rows]
      exact hperm.append_left _
    refine .trans (.of_eq ?_) (hrows.filterMap leadColumn?)
    rw [hvalue]
    unfold leadColumns at habove ⊢
    rw [List.filterMap_append, List.filterMap_append, habove, List.filterMap_cons_some hnormal,
      List.filterMap_cons_some hlead]
  refine ⟨⟨⟨?_, hcolumns.nodup_iff.2 h.rows.nodup⟩, ?_, ?_⟩, hcolumns⟩
  · rw [hvalue]
    intro row hmem j hj
    rcases List.mem_append.1 hmem with hmem | hmem
    · obtain ⟨old, hold, rfl⟩ := List.mem_map.1 hmem
      obtain ⟨j', -, hj'⟩ := h.above old hold
      obtain ⟨hcleared, hkept⟩ := hclear old hold j' hj'
      obtain rfl : j' = j := Option.some.inj (hcleared.symm.trans hj)
      rw [hkept]
      exact h.rows.one old (List.mem_of_mem_take hold) j' hj'
    · rcases List.mem_cons.1 hmem with rfl | hmem
      · obtain rfl : column = j := Option.some.inj (hnormal.symm.trans hj)
        exact hone
      · have hold := hperm.mem_iff.1 (List.mem_cons_of_mem q hmem)
        exact h.rows.one row (List.mem_of_mem_drop hold) j hj
  · dsimp only
    rw [hvalue, List.append_cons, List.take_left' hpassed]
    intro row hmem
    rcases List.mem_append.1 hmem with hmem | hmem
    · obtain ⟨old, hold, rfl⟩ := List.mem_map.1 hmem
      obtain ⟨j, hj, hlead⟩ := h.above old hold
      exact ⟨j, Nat.lt_succ_of_lt hj, (hclear old hold j hlead).1⟩
    · exact ⟨column, Nat.lt_succ_self column, List.mem_singleton.1 hmem ▸ hnormal⟩
  · dsimp only
    rw [hvalue, List.append_cons, List.drop_left' hpassed]
    exact h.lt_of_rest hlead hperm

end Pivot

/-- A step leaves the rows staggered, and they lead in the same columns. -/
theorem IsStaggered.step (h : e.IsStaggered) (hwidth : HasWidth columns e.rows)
    (hstep : Step s columns e e') :
    e'.IsStaggered ∧ (leadColumns e'.rows).Perm (leadColumns e.rows) := by
  cases hstep
  case skip rows place column hrow hcolumn hpivot =>
    refine ⟨⟨h.rows, fun row hmem => ?_, fun row hmem j hlead => ?_⟩, .refl _⟩
    · obtain ⟨j, hj, hlead⟩ := h.above row hmem
      exact ⟨j, Nat.lt_succ_of_lt hj, hlead⟩
    · have hle : column ≤ j := h.below row hmem j hlead
      obtain ⟨i, hi⟩ := List.getElem?_of_mem hmem
      rw [List.getElem?_drop] at hi
      have hzero := nullity_of_findPivot?_eq_none hpivot (Nat.le_add_right place i) hi
      have hne : j ≠ column := by
        rintro rfl
        rw [entryAt_eq (h.rows.one row (List.mem_of_mem_drop hmem) j hlead)] at hzero
        cases hzero
      show column + 1 ≤ j
      omega
  case pivot hrow hcolumn hpivot => exact h.pivoted hwidth hrow hcolumn hpivot

/-- Elimination leaves the rows staggered, and they lead in the same columns. -/
theorem IsStaggered.run (h : e.IsStaggered) (hregular : e.IsRegular rowCount columns)
    (hrun : Run s columns e e') :
    e'.IsStaggered ∧ (leadColumns e'.rows).Perm (leadColumns e.rows) := by
  induction hrun with
  | refl => exact ⟨h, .refl _⟩
  | tail hrun hstep ih =>
    obtain ⟨hstaggered, hperm⟩ := ih
    obtain ⟨hstaggered', hperm'⟩ := hstaggered.step (hregular.run hrun).width hstep
    exact ⟨hstaggered', hperm'.trans hperm⟩

/-- In the end there are as many pivots as rows that are not zero. -/
theorem IsStaggered.place_eq (h : e.IsStaggered) (hregular : e.IsRegular rowCount columns)
    (hend : e.IsFinished columns) : e.place = (leadColumns e.rows).length := by
  have habove : (leadColumns (e.rows.take e.place)).length = (e.rows.take e.place).length :=
    List.filterMap_length_eq_length.2 fun row hrow => by
      obtain ⟨j, -, hlead⟩ := h.above row hrow
      rw [hlead]
      rfl
  have hbelow : leadColumns (e.rows.drop e.place) = [] := by
    refine List.filterMap_eq_nil_iff.2 fun row hrow => ?_
    rcases hend with hrows | hcolumn
    · rw [List.drop_eq_nil_of_le hrows] at hrow
      exact absurd hrow List.not_mem_nil
    · refine Option.eq_none_iff_forall_ne_some.2 fun j hlead => ?_
      have hle := h.below row hrow j hlead
      have hlt := lt_of_leadColumn? hlead
      rw [hregular.width row (List.mem_of_mem_drop hrow)] at hlt
      omega
  have hsplit : leadColumns e.rows =
      leadColumns (e.rows.take e.place) ++ leadColumns (e.rows.drop e.place) := by
    unfold leadColumns
    rw [← List.filterMap_append, List.take_append_drop]
  have hplace := hregular.place_le
  rw [hsplit, hbelow, List.append_nil, habove, List.length_take, hregular.length_rows]
  omega

/-- All pivots are ones. -/
theorem IsStaggered.takesNonzeroPivots {K : Type*} [Field K] (V : Valuation K)
    (h : e.IsStaggered) (hregular : e.IsRegular rowCount columns) :
    e.TakesNonzeroPivots V s columns := by
  intro e' pivot row hrun _ _ hpivot hrow
  have hone := (h.run hregular hrun).1.entryAt_of_pivot hpivot hrow
  rw [valueAt, hone, Term.one, Valuation.value_number, Rat.cast_one]
  exact one_ne_zero

end Elimination

/-! ### The rank -/

namespace SymbolicMatrix

variable {K : Type*} [Field K] [CharZero K] {V : Valuation K} {s : Settings}
  {m echelon : SymbolicMatrix} {rank : Nat}

/-- Reducing the entries keeps where a row leads with a one. -/
theorem leadColumn?_reduceKept (s : Settings) {row : List Term}
    (hone : ∀ j, leadColumn? row = some j → row[j]? = some .one) :
    leadColumn? (row.map fun t => (Reduction.reduceKept s t).value) = leadColumn? row ∧
      ∀ j, leadColumn? row = some j →
        (row.map fun t => (Reduction.reduceKept s t).value)[j]? = some .one := by
  have hreduce (a : Rat) : (Reduction.reduceKept s (.number a)).value = .number a := by
    rw [Reduction.reduceKept_number, Build.value_pure]
  have hget {k : Nat} {a : Rat} (h : row[k]? = some (.number a)) :
      (row.map fun t => (Reduction.reduceKept s t).value)[k]? = some (.number a) := by
    rw [List.getElem?_map, h, Option.map_some, hreduce]
  refine ⟨?_, fun j hj => hget (hone j hj)⟩
  cases hlead : leadColumn? row with
  | some j =>
    refine leadColumn?_eq_some_iff.2
      ⟨⟨.one, hget (hone j hlead), one_ne_zero_term⟩, fun k hk => ?_⟩
    exact hget ((leadColumn?_eq_some_iff.1 hlead).2 k hk)
  | none =>
    refine leadColumn?_eq_none_iff.2 fun t ht => ?_
    obtain ⟨u, hu, rfl⟩ := List.mem_map.1 ht
    rw [leadColumn?_eq_none_iff.1 hlead u hu]
    exact hreduce 0

theorem IsStaggered.reduce (h : IsStaggered m.rows) (s : Settings) (hm : m.IsRectangular) :
    IsStaggered (m.reduce s []).value.rows ∧
      leadColumns (m.reduce s []).value.rows = leadColumns m.rows := by
  have hrow (row : List Term) (hrow : row ∈ m.rows) := leadColumn?_reduceKept s (h.one row hrow)
  have hcolumns : leadColumns (m.reduce s []).value.rows = leadColumns m.rows := by
    unfold leadColumns
    rw [rows_reduce_nil s hm, List.filterMap_map]
    exact List.filterMap_congr fun row hmem => (hrow row hmem).1
  refine ⟨⟨?_, hcolumns ▸ h.nodup⟩, hcolumns⟩
  rw [rows_reduce_nil s hm]
  intro row' hrow' j hj
  obtain ⟨row, hmem, rfl⟩ := List.mem_map.1 hrow'
  obtain ⟨hlead, hone⟩ := hrow row hmem
  exact hone j (hlead ▸ hj)

/-- The rank of staggered rows is the number of those that are not zero, and the rows of the
    echelon form are staggered in the same columns. -/
theorem IsStaggered.exists_rank (h : IsStaggered m.rows) (hroots : DrawsRoots V s)
    (hm : m.IsRectangular) (hvalues : ∀ row ∈ m.rows, RowHasValues V row) :
    ∃ echelon, (m.rank s []).value = (echelon, some (leadColumns m.rows).length) ∧
      IsStaggered echelon.rows ∧ (leadColumns echelon.rows).Perm (leadColumns m.rows) ∧
      ∀ row ∈ echelon.rows, RowHasValues V row := by
  obtain ⟨hreduced, hcolumns⟩ := h.reduce s hm
  have hstart := Elimination.isStaggered_start hreduced
  have hregular := Elimination.isRegular_start (isRectangular_reduce s [] hm)
  obtain ⟨echelon, rank, hrank, hechelon⟩ := SymbolicMatrix.exists_rank hroots hm hvalues
    (hstart.takesNonzeroPivots V hregular)
  obtain ⟨-, column, hrun, hend⟩ := finished_of_rank hrank
  obtain ⟨hstaggered, hperm⟩ := hstart.run hregular hrun
  have hplace : rank = (leadColumns echelon.rows).length :=
    hstaggered.place_eq (hregular.run hrun) hend
  have hperm : (leadColumns echelon.rows).Perm (leadColumns m.rows) :=
    hperm.trans (.of_eq hcolumns)
  rw [hplace, hperm.length_eq] at hrank
  exact ⟨echelon, hrank, hstaggered.rows, hperm, hechelon⟩

end SymbolicMatrix

end EquationSolver
