import EquationSolver.Proofs.Matrix.Staggered

/-!
# Elimination of exact numbers

Sums and products of exact numbers are exact, and so is the inverse of a pivot as long as the size
limit of exact powers admits it.  So elimination that starts with exact numbers goes on with them,
and since it is decided which of them are zero, it ends with staggered rows.
-/

namespace EquationSolver

open Reduction (Settings DrawsRoots)
open SymbolicMatrix

/-! ### Operations on exact numbers -/

def Term.IsExact (t : Term) : Prop :=
  ∃ a : Rat, t = .number a

namespace Reduction

variable {s : Settings} {terms : List Term} {t u : Term}

theorem exists_numbers (h : ∀ t ∈ terms, t.IsExact) :
    ∃ numbers : List Rat, terms = numbers.map Term.number := by
  induction terms with
  | nil => exact ⟨[], rfl⟩
  | cons t ts ih =>
    obtain ⟨⟨a, rfl⟩, hts⟩ := List.forall_mem_cons.1 h
    obtain ⟨numbers, rfl⟩ := ih hts
    exact ⟨a :: numbers, rfl⟩

theorem isExact_mul (h : ∀ t ∈ terms, t.IsExact) : (mul s terms).value.IsExact := by
  obtain ⟨numbers, rfl⟩ := exists_numbers h
  exact ⟨numbers.prod, mul_numbers s numbers⟩

theorem isExact_add (h : ∀ t ∈ terms, t.IsExact) : (add terms).value.IsExact := by
  obtain ⟨numbers, rfl⟩ := exists_numbers h
  exact ⟨numbers.sum, add_numbers numbers⟩

theorem isExact_mul_pair (ht : t.IsExact) (hu : u.IsExact) : (mul s [t, u]).value.IsExact :=
  isExact_mul (List.forall_mem_cons.2 ⟨ht, List.forall_mem_singleton.2 hu⟩)

theorem isExact_add_pair (ht : t.IsExact) (hu : u.IsExact) : (add [t, u]).value.IsExact :=
  isExact_add (List.forall_mem_cons.2 ⟨ht, List.forall_mem_singleton.2 hu⟩)

/-- The size limit of exact powers lets a number be inverted; a one always is. -/
def Settings.Inverts (s : Settings) (a : Rat) : Prop :=
  a = 1 ∨ s.fits a 1 = true

instance (s : Settings) (a : Rat) : Decidable (s.Inverts a) :=
  inferInstanceAs (Decidable (_ ∨ _))

theorem isExact_inverse {a : Rat} (ha : a ≠ 0) (hfits : s.Inverts a) :
    (pow s (.number a) (.number (-1))).value.IsExact := by
  have hplain : ∀ t ∈ [Term.number a, .number (-1)], IsPlain t := by
    intro t ht
    rcases List.mem_pair.1 ht with rfl | rfl <;> trivial
  have hzero : (Term.number (-1)).isZero = false := by decide +kernel
  have hone : (Term.number (-1)).isOne = false := by decide +kernel
  show (powWith s _ _ (.number a) (.number (-1))).value.IsExact
  unfold powWith
  simp only [poison?_eq_none hplain, hasMatrix_eq_false hplain, hzero, hone, Bool.false_eq_true,
    if_false, Bool.false_or]
  split
  case isTrue => exact ⟨a, rfl⟩
  case isFalse hbase =>
    have hfits : s.fits a 1 = true := hfits.resolve_left fun heq => by
      subst heq
      exact hbase (by decide +kernel)
    have hrange : Rational.toInt64Range? (-1) = some (-1) := by decide +kernel
    have hpower : Rational.integerPower? a (-1) = some (Rat.pow a⁻¹ 1) := by
      unfold Rational.integerPower?
      rw [if_neg (by decide), if_neg (by decide), if_neg ha]
      rfl
    unfold rationalPower
    rw [if_neg ha, hrange]
    dsimp only
    have habs : (-1 : Int).natAbs = 1 := rfl
    rw [habs, hfits, hpower]
    exact ⟨_, rfl⟩

end Reduction

/-! ### Classes of terms that elimination does not leave -/

/-- Numbers belong to the class, and so do sums and products of its terms. -/
structure Reduction.IsClosed (s : Settings) (P : Term → Prop) : Prop where
  number : ∀ a : Rat, P (.number a)
  mul : ∀ {t u : Term}, P t → P u → P (Reduction.mul s [t, u]).value
  add : ∀ {t u : Term}, P t → P u → P (Reduction.add [t, u]).value

theorem Reduction.isClosed_isExact (s : Settings) : IsClosed s Term.IsExact where
  number a := ⟨a, rfl⟩
  mul := isExact_mul_pair
  add := isExact_add_pair

namespace SymbolicMatrix

variable {s : Settings} {P : Term → Prop} {row pivotRow : List Term} {rows : List (List Term)}
  {column : Nat}

theorem entryAt_of_isClosed (hP : Reduction.IsClosed s P) (h : ∀ t ∈ row, P t) (j : Nat) :
    P (entryAt row j) := by
  cases hentry : row[j]? with
  | some t =>
    rw [entryAt_eq hentry]
    exact h t (List.mem_of_getElem? hentry)
  | none =>
    rw [entryAt, List.getD_eq_getElem?_getD, hentry, Option.getD_none]
    exact hP.number 0

/-- Dividing a row by its pivot stays within a class that the inverse of the pivot belongs to. -/
theorem normalizeRow_of_isClosed (hP : Reduction.IsClosed s P) (h : ∀ t ∈ row, P t)
    (hinverse : P (Reduction.pow s (entryAt row column) (.number (-1))).value) :
    ∀ t ∈ (normalizeRow s column row).value, P t := by
  intro t ht
  unfold normalizeRow at ht
  simp only [Build.value_bind, Build.value_pure, Build.value_each, Build.value_number,
    Build.value_make] at ht
  rcases List.mem_append.1 ht with hold | hnew
  · exact h t (List.mem_of_mem_take hold)
  · rcases List.mem_cons.1 hnew with rfl | hscaled
    · exact hP.number 1
    · obtain ⟨entry, hentry, rfl⟩ := List.mem_map.1 hscaled
      exact hP.mul (h entry (List.mem_of_mem_drop hentry)) hinverse

theorem clearRow_of_isClosed (hP : Reduction.IsClosed s P) (h : ∀ t ∈ row, P t)
    (hpivotRow : ∀ t ∈ pivotRow, P t) : ∀ t ∈ (clearRow s column pivotRow row).value, P t := by
  have hscale : P (Reduction.mul s [.number (-1), entryAt row column]).value :=
    hP.mul (hP.number (-1)) (entryAt_of_isClosed hP h column)
  intro t ht
  by_cases hzero : (entryAt row column).nullity s = .yes
  · rw [value_clearRow_of_yes hzero] at ht
    exact h t ht
  · rw [value_clearRow_of_ne_yes hzero] at ht
    rcases List.mem_append.1 ht with hold | hnew
    · exact h t (List.mem_of_mem_take hold)
    · obtain ⟨⟨entry, other⟩, hpair, rfl⟩ := List.mem_map.1 hnew
      obtain ⟨hentry, hother⟩ := List.of_mem_zip hpair
      exact hP.add (h entry (List.mem_of_mem_drop hentry))
        (hP.mul hscale (hpivotRow other (List.mem_of_mem_drop hother)))

/-- A column is eliminated within a class that the inverse of the pivot belongs to. -/
theorem eliminateColumn_of_isClosed {place pivot : Nat} (hP : Reduction.IsClosed s P)
    (h : ∀ row ∈ rows, ∀ t ∈ row, P t) (hplace : place ≤ pivot) (hlength : pivot < rows.length)
    (hinverse : ∀ row, rows[pivot]? = some row →
      P (Reduction.pow s (entryAt row column) (.number (-1))).value) :
    ∀ row ∈ (eliminateColumn s place pivot column rows).value, ∀ t ∈ row, P t := by
  obtain ⟨q, hq, hvalue⟩ := pivotRowOf_eq hplace hlength s column
  have hpivotRow : ∀ t ∈ pivotRowOf s place pivot column rows, P t := by
    rw [hvalue]
    exact normalizeRow_of_isClosed hP (h q (List.mem_of_getElem? hq)) (hinverse q hq)
  intro row' hrow'
  obtain ⟨k, hk⟩ := List.getElem?_of_mem hrow'
  rcases row_cases hplace hlength s column hk with ⟨-, rfl⟩ | ⟨-, k', row, -, hk', -, rfl⟩
  · exact hpivotRow
  · exact clearRow_of_isClosed hP (h row (List.mem_of_getElem? hk')) hpivotRow

theorem isExact_entryAt (h : ∀ t ∈ row, t.IsExact) (j : Nat) : (entryAt row j).IsExact :=
  entryAt_of_isClosed (Reduction.isClosed_isExact {}) h j

end SymbolicMatrix

/-! ### Elimination -/

namespace Elimination

variable {s : Settings} {rowCount columns : Nat} {e e' : Elimination} {pivots : List Nat}

def HasExactEntries (e : Elimination) : Prop :=
  ∀ row ∈ e.rows, ∀ t ∈ row, t.IsExact

/-- Every number that is taken for a pivot can be inverted. -/
def InvertsPivots (s : Settings) (columns : Nat) (e : Elimination) : Prop :=
  ∀ e' pivot row a, Run s columns e e' → e'.place < e'.rows.length → e'.column < columns →
    findPivot? s e'.rows e'.place e'.column = some pivot → e'.rows[pivot]? = some row →
      entryAt row e'.column = .number a → s.Inverts a

/-- The check succeeds in every column that is left, as long as there are rows without a pivot. -/
def holdsAlong (s : Settings) (check : Elimination → Bool) : Nat → Elimination → Bool
  | 0, _ => true
  | left + 1, e =>
    if e.rows.length ≤ e.place then true
    else
      check e && holdsAlong s check left
        (match findPivot? s e.rows e.place e.column with
        | none => ⟨e.rows, e.place, e.column + 1⟩
        | some pivot =>
          ⟨(eliminateColumn s e.place pivot e.column e.rows).value, e.place + 1, e.column + 1⟩)

/-- What is checked along an elimination holds wherever it is not at its end. -/
theorem of_holdsAlong {check : Elimination → Bool} {left : Nat}
    (h : holdsAlong s check left e = true) (hcolumns : e.column + left = columns)
    (hrun : Run s columns e e') (hplace : e'.place < e'.rows.length) (hcolumn : e'.column < columns) :
    check e' = true := by
  induction left generalizing e with
  | zero =>
    rcases hrun.cases_head with rfl | ⟨next, hstep, -⟩
    · omega
    · exact absurd hstep.column_lt (by omega)
  | succ left ih =>
    rcases hrun.cases_head with rfl | ⟨next, hstep, hrest⟩
    · rw [holdsAlong, if_neg (Nat.not_le.2 hplace), Bool.and_eq_true] at h
      exact h.1
    · rw [holdsAlong, if_neg (Nat.not_le.2 hstep.place_lt), Bool.and_eq_true] at h
      cases hstep with
      | skip _ _ hnone =>
        rw [hnone] at h
        exact ih h.2 (by simp only at hcolumns ⊢; omega) hrest
      | pivot _ _ hsome =>
        rw [hsome] at h
        exact ih h.2 (by simp only at hcolumns ⊢; omega) hrest

/-- The number that is taken for the next pivot, if there is one, can be inverted. -/
def invertsNext (s : Settings) (e : Elimination) : Bool :=
  match findPivot? s e.rows e.place e.column with
  | none => true
  | some pivot =>
    match entryAt (e.rows.getD pivot []) e.column with
    | .number a => decide (s.Inverts a)
    | _ => true

/-- Following elimination tells whether its pivots can be inverted. -/
theorem invertsPivots_of_holdsAlong {left : Nat} (h : holdsAlong s (invertsNext s) left e = true)
    (hcolumns : e.column + left = columns) : e.InvertsPivots s columns := by
  intro e' pivot row a hrun hplace hcolumn hpivot hrow hentry
  have hnext := of_holdsAlong h hcolumns hrun hplace hcolumn
  rw [invertsNext, hpivot] at hnext
  dsimp only at hnext
  rw [List.getD_eq_getElem?_getD, hrow, Option.getD_some, hentry] at hnext
  exact of_decide_eq_true hnext

theorem HasExactEntries.step (h : e.HasExactEntries) (hstep : Step s columns e e')
    (hinverts : e.InvertsPivots s columns) : e'.HasExactEntries := by
  cases hstep
  case skip => exact h
  case pivot rows place column pivot hrow hcolumn hpivot =>
    obtain ⟨hplace, hlength⟩ := lt_of_findPivot? hpivot
    refine eliminateColumn_of_isClosed (Reduction.isClosed_isExact s) h hplace hlength
      fun row hget => ?_
    obtain ⟨a, ha⟩ := isExact_entryAt (h row (List.mem_of_getElem? hget)) column
    have hnullity := nullity_of_findPivot?_eq_some hpivot hget
    rw [ha] at hnullity ⊢
    exact Reduction.isExact_inverse
      (fun hzero => hnullity (Term.nullity_number_eq_yes_iff.2 hzero))
      (hinverts _ pivot row a .refl hrow hcolumn hpivot hget ha)

/-- Elimination of exact numbers meets nothing else. -/
theorem HasExactEntries.run (h : e.HasExactEntries) (hrun : Run s columns e e')
    (hinverts : e.InvertsPivots s columns) : e'.HasExactEntries := by
  induction hrun with
  | refl => exact h
  | tail hrun hstep ih =>
    exact ih.step hstep fun e'' pivot row a hrun' => hinverts e'' pivot row a (hrun.trans hrun')

/-- An exact number that is taken for a pivot is not zero. -/
theorem HasExactEntries.takesNonzeroPivots {K : Type*} [Field K] [CharZero K] (V : Valuation K)
    (h : e.HasExactEntries) (hinverts : e.InvertsPivots s columns) :
    e.TakesNonzeroPivots V s columns := by
  intro e' pivot row hrun hplace hcolumn hpivot hrow
  obtain ⟨a, ha⟩ := isExact_entryAt (h.run hrun hinverts row (List.mem_of_getElem? hrow)) e'.column
  have hnullity := nullity_of_findPivot?_eq_some hpivot hrow
  rw [ha] at hnullity
  rw [valueAt, ha, Valuation.value_number]
  intro hzero
  exact hnullity (Term.nullity_number_eq_yes_iff.2 (Rat.cast_eq_zero.1 hzero))

section Echelon

variable {K : Type*} [Field K] [CharZero K] {V : Valuation K}

/-- An exact entry of value zero is the number zero. -/
theorem HasExactEntries.getElem?_eq_zero (h : e.HasExactEntries) {row : List Term}
    (hrow : row ∈ e.rows) {j : Nat} (hj : j < row.length) (hzero : valueAt V row j = 0) :
    row[j]? = some .zero := by
  have hget : row[j]? = some row[j] := List.getElem?_eq_getElem hj
  obtain ⟨a, ha⟩ := h row hrow row[j] (List.getElem_mem hj)
  rw [valueAt_eq_of_getElem? hget, ha, Valuation.value_number] at hzero
  rw [hget, ha, Rat.cast_eq_zero.1 hzero]
  rfl

/-- A row with a pivot leads there. -/
theorem HasExactEntries.lead_of_pivot (h : e.HasExactEntries) (hreduced : e.IsReduced V s pivots)
    {i j : Nat} (hj : pivots[i]? = some j) : ∃ row : List Term, e.rows[i]? = some row ∧
      leadColumn? row = some j ∧ row[j]? = some .one := by
  obtain ⟨row, hrow, hone⟩ := hreduced.hasPivots.one i j hj
  have hlength : j < row.length := (List.getElem?_eq_some_iff.1 hone).1
  refine ⟨row, hrow, leadColumn?_eq_some_iff.2 ⟨⟨.one, hone, one_ne_zero_term⟩, fun k hk => ?_⟩,
    hone⟩
  exact h.getElem?_eq_zero (List.mem_of_getElem? hrow) (hk.trans hlength)
    (hreduced.zero_before i j row hj hrow k hk)

/-- A row without a pivot is zero in the end. -/
theorem HasExactEntries.lead_of_le (h : e.HasExactEntries) (hwidth : HasWidth columns e.rows)
    (hreduced : e.IsReduced V s pivots) (hend : e.IsFinished columns) {i : Nat} {row : List Term}
    (hi : e.place ≤ i) (hrow : e.rows[i]? = some row) : leadColumn? row = none := by
  have hlength := (List.getElem?_eq_some_iff.1 hrow).1
  have hcolumn : e.column = columns := hend.resolve_left (by omega)
  have hmem := List.mem_of_getElem? hrow
  refine leadColumn?_eq_none_iff.2 fun t ht => ?_
  obtain ⟨j, hj⟩ := List.getElem?_of_mem ht
  have hjLength := (List.getElem?_eq_some_iff.1 hj).1
  have hpassed : j < e.column := by
    rw [hcolumn, ← hwidth row hmem]
    exact hjLength
  have hzero := h.getElem?_eq_zero hmem hjLength (hreduced.zero_below i row hi hrow j hpassed)
  exact Option.some.inj (hj.symm.trans hzero)

/-- Exact numbers in reduced echelon form are staggered, and lead where the pivots are. -/
theorem HasExactEntries.isStaggered (h : e.HasExactEntries) (hwidth : HasWidth columns e.rows)
    (hreduced : e.IsReduced V s pivots) (hend : e.IsFinished columns) :
    SymbolicMatrix.IsStaggered e.rows ∧ leadColumns e.rows = pivots := by
  have hpivots : pivots.length = e.place := hreduced.hasPivots.length_eq
  have habove : (e.rows.take e.place).map leadColumn? = pivots.map some := by
    refine List.ext_getElem? fun i => ?_
    rw [List.getElem?_map, List.getElem?_map, List.getElem?_take]
    split_ifs with hi
    · have hj : pivots[i]? = some pivots[i] := List.getElem?_eq_getElem (hpivots ▸ hi)
      obtain ⟨row, hrow, hlead, -⟩ := h.lead_of_pivot hreduced hj
      rw [hrow, hj, Option.map_some, Option.map_some, hlead]
    · rw [List.getElem?_eq_none (by omega)]
      rfl
  have hbelow : leadColumns (e.rows.drop e.place) = [] := by
    refine List.filterMap_eq_nil_iff.2 fun row hrow => ?_
    obtain ⟨i, hi⟩ := List.getElem?_of_mem hrow
    rw [List.getElem?_drop] at hi
    exact h.lead_of_le hwidth hreduced hend (Nat.le_add_right _ _) hi
  have hcolumns : leadColumns e.rows = pivots := by
    have htake : leadColumns (e.rows.take e.place) = pivots := by
      have hoptions : leadColumns (e.rows.take e.place) =
          ((e.rows.take e.place).map leadColumn?).filterMap id := by
        rw [List.filterMap_map]
        rfl
      rw [hoptions, habove, List.filterMap_map]
      exact List.filterMap_some
    rw [← List.take_append_drop e.place e.rows, leadColumns, List.filterMap_append]
    exact (congrArg₂ (· ++ ·) htake hbelow).trans (List.append_nil _)
  refine ⟨⟨fun row hrow j hj => ?_, ?_⟩, hcolumns⟩
  · obtain ⟨i, hi⟩ := List.getElem?_of_mem hrow
    rcases Nat.lt_or_ge i e.place with hlt | hge
    · have hget : pivots[i]? = some pivots[i] := List.getElem?_eq_getElem (hpivots ▸ hlt)
      obtain ⟨row', hrow', hlead, hone⟩ := h.lead_of_pivot hreduced hget
      obtain rfl : row' = row := Option.some.inj (hrow'.symm.trans hi)
      obtain rfl : pivots[i] = j := Option.some.inj (hlead.symm.trans hj)
      exact hone
    · have hnone := h.lead_of_le hwidth hreduced hend hge hi
      cases hnone.symm.trans hj
  · rw [hcolumns]
    exact hreduced.hasPivots.ascending.imp fun hlt => Nat.ne_of_lt hlt

end Echelon

end Elimination

end EquationSolver
