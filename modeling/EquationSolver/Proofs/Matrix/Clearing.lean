import EquationSolver.Proofs.Matrix.Rank
import EquationSolver.Proofs.Reduction.Operands

/-!
# What clearing leaves

To clear an entry, elimination adds its opposite.  An exact number becomes an exact zero in
this way, and only a number is ever recognised as zero.
-/

namespace EquationSolver

open Reduction (Settings)

/-! ### Products and sums -/

/-- An approximation never tells that a term is zero. -/
theorem Term.unknown_ne_yes (t : Term) (s : Settings) :
    (if t.containsSymbol then Verdict.unknown
      else if t.isClearlyNonzero s then .no
      else .unknown) ≠ .yes := by
  by_cases hsymbol : t.containsSymbol
  · rw [if_pos hsymbol]
    intro h
    cases h
  · rw [if_neg hsymbol]
    by_cases hclear : t.isClearlyNonzero s
    · rw [if_pos hclear]
      intro h
      cases h
    · rw [if_neg hclear]
      intro h
      cases h

/-- Of exact numbers only zero is known to be zero. -/
theorem Term.nullity_number_eq_yes_iff {a : Rat} {s : Settings} :
    (Term.number a).nullity s = .yes ↔ a = 0 := by
  show (if decide (a = 0) = true then Verdict.yes else Verdict.no) = .yes ↔ a = 0
  by_cases ha : a = 0 <;> simp [ha]

/-- Only numbers are recognised as zero. -/
theorem Term.isNumeric_of_nullity {t : Term} {s : Settings} (h : t.nullity s = .yes) :
    t.isNumeric = true := by
  cases t with
  | number a => rfl
  | decimal bits => rfl
  | constant c => cases h
  | undefined => cases h
  | nonreal => cases h
  | matrix rows columns entries => cases h
  | symbol name => exact absurd h (unknown_ne_yes (.symbol name) s)
  | _ => exact absurd h (unknown_ne_yes _ s)

theorem Term.isNumeric_sumOf {terms : List Term} {t : Term} (ht : t ∈ terms)
    (hnumeric : t.isNumeric = false) : (Term.sumOf terms).isNumeric = false := by
  match terms with
  | [u] =>
    rw [← List.mem_singleton.1 ht]
    exact hnumeric
  | u :: v :: rest => rfl

namespace Reduction

variable {s : Settings} {terms : List Term}

theorem mul_numbers (s : Settings) (numbers : List Rat) :
    (mul s (numbers.map Term.number)).value = .number numbers.prod :=
  mulWith_numbers s _ _ numbers

/-- A sum alone has nothing to be merged with. -/
theorem mergeRepeatedly_sum (pow : Term → Term → Build Term) (passes : Nat) (c : Coefficient) :
    (mergeRepeatedly pow passes c [.sum terms]).value = (c, [.sum terms]) := by
  cases passes with
  | zero => rfl
  | succ passes =>
    unfold mergeRepeatedly
    split <;> rfl

end Reduction

/-! ### Clearing an entry -/

namespace Elimination

open SymbolicMatrix

variable {s : Settings} {columns column : Nat} {pivotRow row : List Term} {e e' : Elimination}

theorem getElem?_clearRow_self (hone : pivotRow[column]? = some .one) (hrow : column < row.length)
    (hnonzero : (entryAt row column).nullity s ≠ .yes) :
    (clearRow s column pivotRow row).value[column]? =
      some (Reduction.add [entryAt row column,
        (Reduction.mul s [(Reduction.mul s [.number (-1), entryAt row column]).value,
          .one]).value]).value := by
  obtain ⟨hpivotLength, hpivotEntry⟩ := List.getElem?_eq_some_iff.1 hone
  have hentry : row[column] = entryAt row column := (entryAt_eq (List.getElem?_eq_getElem hrow)).symm
  have htake : (row.take column).length = column := by
    rw [List.length_take]
    omega
  rw [value_clearRow_of_ne_yes hnonzero, List.getElem?_append_right (by omega), htake, Nat.sub_self,
    List.drop_eq_getElem_cons hrow, List.drop_eq_getElem_cons hpivotLength, hentry, hpivotEntry]
  rfl

/-- Clearing an exact number leaves an exact zero. -/
theorem nullity_clearRow_number (s : Settings) {a : Rat}
    (hnumber : entryAt row column = .number a) (hone : pivotRow[column]? = some .one)
    (hrow : column < row.length) :
    (entryAt (clearRow s column pivotRow row).value column).nullity s = .yes := by
  by_cases hzero : (entryAt row column).nullity s = .yes
  · rw [value_clearRow_of_yes hzero, hzero]
  · have hscale : (Reduction.mul s [.number (-1), .number a]).value = .number (-a) := by
      have h := Reduction.mul_numbers s [-1, a]
      simpa using h
    have hshift : (Reduction.mul s [.number (-a), .one]).value = .number (-a) := by
      have h := Reduction.mul_numbers s [-a, 1]
      simpa [Term.one] using h
    have hsum : (Reduction.add [.number a, .number (-a)]).value = .number 0 := by
      have h := Reduction.add_numbers [a, -a]
      simpa using h
    have hcleared := getElem?_clearRow_self hone hrow hzero
    rw [hnumber, hscale, hshift, hsum] at hcleared
    rw [entryAt_eq hcleared]
    rfl

/-! ### Exact numbers -/

/-- The entries that a step is to clear are exact numbers. -/
def MeetsNumbers (e : Elimination) : Prop :=
  ∀ row ∈ e.rows, ∃ a : Rat, entryAt row e.column = .number a

/-- A step through a column of exact numbers leaves zeros. -/
theorem MeetsNumbers.leavesZeros (h : e.MeetsNumbers) (hwidth : HasWidth columns e.rows)
    (hstep : Step s columns e e') : LeavesZeros s e e' := by
  intro i row hi hrow
  cases hstep
  case skip hpivot => exact nullity_of_findPivot?_eq_none hpivot hi hrow
  case pivot rows place column pivot _ hcolumn hpivot =>
    obtain ⟨hle, hlength⟩ := lt_of_findPivot? hpivot
    obtain ⟨k, before, -, -, hbefore, rfl⟩ :=
      exists_of_getElem?_eliminateColumn hle hlength (Nat.lt_of_succ_le hi) hrow
    obtain ⟨a, hnumber⟩ := h before (List.mem_of_getElem? hbefore)
    obtain ⟨pivotBefore, hpivotBefore, hvalue⟩ := pivotRowOf_eq hle hlength s column
    have hbeforeLength := hwidth.getElem? hbefore
    have hpivotLength := hwidth.getElem? hpivotBefore
    refine nullity_clearRow_number s hnumber ?_ (by omega)
    rw [hvalue]
    exact getElem?_normalizeRow_self s (by omega)

/-- Elimination leaves zeros in the columns in which it meets exact numbers only. -/
theorem clears_of_meetsNumbers {rowCount first : Nat} (hregular : e.IsRegular rowCount columns)
    (h : ∀ e', Run s columns e e' → e'.column < first → e'.MeetsNumbers) :
    Clears s columns first e :=
  fun e' _ hrun hstep hfirst => (h e' hrun hfirst).leavesZeros (hregular.run hrun).width hstep

end Elimination

end EquationSolver
