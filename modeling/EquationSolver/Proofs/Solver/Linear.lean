import EquationSolver.Proofs.Matrix.Clearing
import EquationSolver.Proofs.Solver.Checked

/-!
# Linear systems within bounds

The augmented matrix of a linear system has one column for each unknown and one for the
constants, and so has every matrix that a pin makes of it.  Hence no access to its entries
is out of range.  The rank is another matter: the column of the constants can get a pivot,
too, and then the system is only seen to be inconsistent when the coefficients in the row
of that pivot are recognised as zeros.
-/

namespace EquationSolver

open Reduction (Settings)
open SymbolicMatrix

/-! ### The augmented matrix -/

namespace Coefficients

theorem length_linear? {s : Settings} {names : List String} {t : Term}
    {build : Build (List Term × Term)} (h : linear? s names t = some build) :
    build.value.1.length = names.length := by
  unfold linear? at h
  obtain ⟨terms, -, rfl⟩ := Option.map_eq_some_iff.1 h
  simp

end Coefficients

namespace Linear

variable {s : Settings} {definitions : Definitions} {count rank : Nat} {m m' : SymbolicMatrix}
  {rows : List (List Term)}

/-- A row holds a coefficient for each unknown, and a constant. -/
theorem hasWidth_augmentedRows {unknowns : List String} : ∀ {forms : List Term}
    {rows : List (List Term)}, (augmentedRows s unknowns forms).value = some rows →
      HasWidth (unknowns.length + 1) rows ∧ rows.length = forms.length
  | [], rows, h => by
    obtain rfl : [] = rows := Option.some.inj h
    exact ⟨fun row hrow => absurd hrow List.not_mem_nil, rfl⟩
  | form :: rest, rows, h => by
    unfold augmentedRows at h
    split at h
    case h_1 => exact absurd h (by simp)
    case h_2 build hbuild =>
      simp only [Build.value_bind, Build.value_pure] at h
      obtain ⟨others, hothers, rfl⟩ := Option.map_eq_some_iff.1 h
      obtain ⟨hwidth, hlength⟩ := hasWidth_augmentedRows hothers
      refine ⟨List.forall_mem_cons.2 ⟨?_, hwidth⟩, by rw [List.length_cons, hlength]; rfl⟩
      rw [List.length_append, Coefficients.length_linear? hbuild]
      rfl

/-- A matrix with a column for each unknown and one for the constants.  Without equations there
    are no unknowns, and no columns. -/
structure IsAugmented (count : Nat) (m : SymbolicMatrix) : Prop where
  rectangular : m.IsRectangular
  columns : m.columns = count + 1 ∨ count = 0 ∧ m.rows = []

theorem IsAugmented.of_rank (h : IsAugmented count m)
    (hrank : (m.rank s definitions).value = (m', some rank)) : IsAugmented count m' where
  rectangular := isRectangular_of_rank h.rectangular hrank
  columns := by
    have hlength := (SymbolicMatrix.rank_le h.rectangular hrank).2.2
    refine h.columns.imp (run_of_rank hrank).1.trans (And.imp_right fun hrows => ?_)
    rw [hrows] at hlength
    exact List.eq_nil_of_length_eq_zero hlength

/-- There is one pivot for each unknown and one for the constants, at most. -/
theorem IsAugmented.rank_le (h : IsAugmented count m)
    (hrank : (m.rank s definitions).value = (m', some rank)) :
    rank ≤ count + 1 ∧ (rank = count + 1 → m.columns = count + 1) := by
  obtain ⟨hrows, hcolumns, -⟩ := SymbolicMatrix.rank_le h.rectangular hrank
  rcases h.columns with heq | ⟨-, hnil⟩
  · exact ⟨by omega, fun _ => heq⟩
  · rw [hnil, List.length_nil] at hrows
    exact ⟨by omega, fun hfull => by omega⟩

/-- Rows of the right width make up an augmented matrix. -/
theorem ofRows_isAugmented (hwidth : HasWidth (count + 1) rows) (hempty : rows = [] → count = 0) :
    ∃ m, ofRows rows = .ok m ∧ IsAugmented count m := by
  by_cases hrows : rows = []
  · subst hrows
    exact ⟨⟨[], 0⟩, rfl, fun _ hrow => absurd hrow List.not_mem_nil, .inr ⟨hempty rfl, rfl⟩⟩
  · exact ⟨⟨rows, count + 1⟩, ofRows_eq hwidth hrows, hwidth, .inl rfl⟩

/-! ### The rank and the number of unknowns -/

theorem isContradiction_eq_false_iff {row : List Term} : isContradiction s count row = false ↔
    (∃ t ∈ row.take count, t.nullity s ≠ .yes) ∨ (entryAt row count).nullity s = .yes := by
  unfold isContradiction
  rw [Bool.and_eq_false_iff, List.all_eq_false]
  simp

theorem nullity_one (s : Settings) : Term.one.nullity s = .no := rfl

/-- A row whose pivot belongs to an unknown is no contradiction. -/
theorem isContradiction_of_one {row : List Term} {j : Nat} (hj : j < count)
    (hone : row[j]? = some .one) : isContradiction s count row = false := by
  refine isContradiction_eq_false_iff.2 (.inl ⟨.one, ?_, ?_⟩)
  · apply List.mem_of_getElem? (i := j)
    rw [List.getElem?_take_of_lt hj, hone]
  · rw [nullity_one]
    exact Verdict.noConfusion

/-- The solver subtracts the rank of a matrix from the number of unknowns: no row is a
    contradiction, and it is not so that there are unknowns and each has a pivot. -/
structure SubtractsRank (s : Settings) (count : Nat) (m : SymbolicMatrix) (rank : Nat) :
    Prop where
  consistent : m.rows.any (isContradiction s count) = false
  not_unique : ¬ (rank = count ∧ 0 < count)

theorem SubtractsRank.isContradiction_eq_false (h : SubtractsRank s count m rank)
    {row : List Term} (hrow : row ∈ m.rows) : isContradiction s count row = false := by
  simpa using List.any_eq_false.1 h.consistent row hrow

/-- The row of a pivot in the column of the constants holds a coefficient that is not
    recognised as zero, and no row behind it is a contradiction. -/
def MissesContradiction (s : Settings) (count : Nat) (m : SymbolicMatrix) : Prop :=
  ∃ row, m.rows[count]? = some row ∧ (∃ t ∈ row.take count, t.nullity s ≠ .yes) ∧
    ∀ other ∈ m.rows.drop (count + 1), isContradiction s count other = false

section Rank

variable (hm : IsAugmented count m) (h : (m.rank s definitions).value = (m', some rank))

include hm h

/-- The rank that is subtracted exceeds the number of unknowns just when the column of the
    constants has a pivot, too, and the contradiction is missed. -/
theorem subtractsRank_lt_iff : SubtractsRank s count m' rank ∧ count < rank ↔
    rank = count + 1 ∧ MissesContradiction s count m' := by
  obtain ⟨hrank, hcolumns⟩ := hm.rank_le h
  have hdiagonal (hfull : rank = count + 1) (i : Nat) (hi : i < count + 1) :
      ∃ row, m'.rows[i]? = some row ∧ row[i]? = some .one := by
    have hwide := hcolumns hfull
    exact one_on_diagonal hm.rectangular (by rw [h, hfull, hwide]) (by omega)
  constructor
  · rintro ⟨hsubtracts, hlt⟩
    have hfull : rank = count + 1 := by omega
    obtain ⟨row, hrow, hone⟩ := hdiagonal hfull count (Nat.lt_succ_self count)
    refine ⟨hfull, row, hrow, ?_, ?_⟩
    · have hfalse := hsubtracts.isContradiction_eq_false (List.mem_of_getElem? hrow)
      rcases isContradiction_eq_false_iff.1 hfalse with hcoefficient | hconstant
      · exact hcoefficient
      · rw [entryAt_eq hone, nullity_one] at hconstant
        cases hconstant
    · intro other hother
      exact hsubtracts.isContradiction_eq_false (List.mem_of_mem_drop hother)
  · rintro ⟨hfull, row, hrow, hcoefficient, hbehind⟩
    refine ⟨⟨List.any_eq_false.2 ?_, by omega⟩, by omega⟩
    intro other hother
    obtain ⟨i, hi⟩ := List.getElem?_of_mem hother
    rw [Bool.not_eq_true]
    rcases Nat.lt_trichotomy i count with hlt | rfl | hgt
    · obtain ⟨row', hrow', hone⟩ := hdiagonal hfull i (by omega)
      obtain rfl : row' = other := Option.some.inj (hrow'.symm.trans hi)
      exact isContradiction_of_one hlt hone
    · obtain rfl : row = other := Option.some.inj (hrow.symm.trans hi)
      exact isContradiction_eq_false_iff.2 (.inl hcoefficient)
    · refine hbehind other (List.mem_of_getElem? (i := i - (count + 1)) ?_)
      rw [List.getElem?_drop, Nat.add_sub_cancel' hgt, hi]

/-- Where elimination leaves zeros in the columns of the unknowns, the rank that is
    subtracted is at most the number of unknowns. -/
theorem SubtractsRank.le_of_clears (hclears : Elimination.Clears s m.columns count
      (.start (m.reduce s definitions).value.rows))
    (hsubtracts : SubtractsRank s count m' rank) : rank ≤ count := by
  by_contra hlt
  obtain ⟨hrank, hcolumns⟩ := hm.rank_le h
  obtain rfl : rank = count + 1 := by omega
  obtain ⟨row, hrow, hone, hzero⟩ :=
    exists_row_of_clears hm.rectangular (hcolumns rfl) h hclears
  have hfalse := hsubtracts.isContradiction_eq_false (List.mem_of_getElem? hrow)
  rcases isContradiction_eq_false_iff.1 hfalse with ⟨t, ht, hnull⟩ | hconstant
  · obtain ⟨j, hj⟩ := List.getElem?_of_mem ht
    rw [List.getElem?_take] at hj
    obtain ⟨hlt, hget⟩ := Option.ite_none_right_eq_some.1 hj
    have hyes := hzero j hlt
    rw [entryAt_eq hget] at hyes
    exact hnull hyes
  · rw [entryAt_eq hone, nullity_one] at hconstant
    cases hconstant

/-- In particular this is so where the coefficients that elimination meets are exact numbers. -/
theorem SubtractsRank.le_of_meetsNumbers
    (hnumbers : ∀ e, Elimination.Run s m.columns (.start (m.reduce s definitions).value.rows) e →
      e.column < count → e.MeetsNumbers)
    (hsubtracts : SubtractsRank s count m' rank) : rank ≤ count := by
  have hstart := Elimination.isRegular_start (isRectangular_reduce s definitions hm.rectangular)
  exact hsubtracts.le_of_clears hm h (Elimination.clears_of_meetsNumbers hstart hnumbers)

end Rank

/-! ### Pins -/

/-- A pin adds one row, which has the right width. -/
theorem yields_pinned (hm : IsAugmented count m) (hcount : 0 < count) (place : Nat)
    (name : String) : (pinned count place name m).Yields fun m' =>
      IsAugmented count m' ∧ m'.rows.length = m.rows.length + 1 := by
  have hcolumns : m.columns = count + 1 := hm.columns.resolve_right fun h => by omega
  unfold pinned
  apply CheckedBuild.yields_build_bind
  apply CheckedBuild.yields_build_bind
  apply CheckedBuild.yields_build_bind
  have hrow : ((List.replicate count Term.zero).set place Term.one ++
      [Term.symbol name]).length = m.columns := by
    simp [hcolumns]
  refine CheckedBuild.yields_except (if_pos hrow) ⟨⟨?_, .inl hcolumns⟩, by simp⟩
  intro row hmem
  rcases List.mem_append.1 hmem with hold | hnew
  · exact hm.rectangular row hold
  · rw [List.mem_singleton.1 hnew]
    exact hrow

/-- Pinning free unknowns of a matrix with a rank comes to take the rank of a matrix. -/
inductive Pins (s : Settings) (definitions : Definitions) (count parameters : Nat) :
    Nat → Nat → SymbolicMatrix → SymbolicMatrix → Prop
  | pin {pins rank place : Nat} {m m' : SymbolicMatrix} (hrank : rank < count)
      (hfree : freeUnknown? s count m = some place)
      (hpin : (pinned count place (parameterName (pins + 1) parameters) m).run.value = .ok m') :
      Pins s definitions count parameters pins rank m m'
  | next {pins rank place next : Nat} {m m' echelon found : SymbolicMatrix}
      (hrank : rank < count) (hfree : freeUnknown? s count m = some place)
      (hpin : (pinned count place (parameterName (pins + 1) parameters) m).run.value = .ok m')
      (hnext : (m'.rank s definitions).value = (echelon, some next)) (hlt : rank < next)
      (rest : Pins s definitions count parameters (pins + 1) next echelon found) :
      Pins s definitions count parameters pins rank m found

theorem Pins.isAugmented {parameters pins : Nat}
    (h : Pins s definitions count parameters pins rank m m') (hm : IsAugmented count m) :
    IsAugmented count m' := by
  induction h with
  | pin hrank hfree hpin =>
    obtain ⟨m', hvalue, hm', -⟩ := yields_pinned hm (by omega) _ _
    cases hpin.symm.trans hvalue
    exact hm'
  | next hrank hfree hpin hnext hlt rest ih =>
    obtain ⟨m', hvalue, hm', -⟩ := yields_pinned hm (by omega) _ _
    cases hpin.symm.trans hvalue
    exact ih (hm'.of_rank hnext)

/-- Pinning ends with a pivot for each unknown, if at all, and so with enough rows. -/
theorem yields_pinFree (s : Settings) (definitions : Definitions) (parameters missing : Nat) :
    ∀ (pins rank : Nat) {m : SymbolicMatrix}, IsAugmented count m →
      rank ≤ m.rows.length → count ≤ rank + missing →
        (pinFree s definitions count parameters missing pins rank m).Yields fun found =>
          ∀ m', found = some m' → IsAugmented count m' ∧ count ≤ m'.rows.length := by
  have hnone : (pure none : CheckedBuild (Option SymbolicMatrix)).Yields fun found =>
      ∀ m', found = some m' → IsAugmented count m' ∧ count ≤ m'.rows.length :=
    CheckedBuild.yields_pure fun _ h => nomatch h
  induction missing with
  | zero =>
    intro pins rank m hm hrank hcount
    apply CheckedBuild.yields_pure
    rintro m' ⟨⟩
    exact ⟨hm, by omega⟩
  | succ missing ih =>
    intro pins rank m hm hrank hcount
    unfold pinFree
    by_cases henough : count ≤ rank
    · rw [if_pos henough]
      apply CheckedBuild.yields_pure
      rintro m' ⟨⟩
      exact ⟨hm, by omega⟩
    · rw [if_neg henough]
      split
      case h_1 => exact hnone
      case h_2 place hfree =>
        refine (yields_pinned hm (by omega) place _).bind ?_
        rintro m' - ⟨hm', hlength⟩
        apply CheckedBuild.yields_build_bind
        split
        case h_1 => exact hnone
        case h_2 echelon next hnext =>
          obtain ⟨hle, -, hrows⟩ := SymbolicMatrix.rank_le hm'.rectangular hnext
          by_cases hstuck : next ≤ rank
          · rw [if_pos hstuck]
            exact hnone
          · rw [if_neg hstuck]
            exact ih (pins + 1) next (hm'.of_rank hnext) (by omega) (by omega)

/-! ### Whole systems -/

def LinearAnswer.terms : LinearAnswer → List Term
  | .unique values | .parametric values => values
  | .undefined | .inconsistent | .unresolved => []

theorem mapM_eq_ok {α β : Type} {f : α → Except Fault β} : ∀ {items : List α},
    (∀ a ∈ items, ∃ b, f a = .ok b) →
      ∃ found, items.mapM f = .ok found ∧ found.length = items.length
  | [], _ => ⟨[], rfl, rfl⟩
  | a :: rest, h => by
    obtain ⟨⟨b, hb⟩, hrest⟩ := List.forall_mem_cons.1 h
    obtain ⟨found, hfound, hlength⟩ := mapM_eq_ok hrest
    refine ⟨b :: found, ?_, by simp [hlength]⟩
    rw [List.mapM_cons, hb, hfound]
    rfl

/-- With a row for each unknown, the constants are there to be read. -/
theorem values_eq_ok (hm : IsAugmented count m) (hrows : count ≤ m.rows.length) :
    ∃ found, values count m = .ok found ∧ found.length = count := by
  have hget : ∀ i ∈ List.range count, ∃ t, m.entry? i count = some t := by
    intro i hi
    have hi : i < count := List.mem_range.1 hi
    have hlt : i < m.rows.length := Nat.lt_of_lt_of_le hi hrows
    have hwidth : count < m.rows[i].length := by
      rw [hm.rectangular _ (List.getElem_mem hlt), hm.columns.resolve_right fun h => by omega]
      exact Nat.lt_succ_self count
    refine ⟨m.rows[i][count], ?_⟩
    unfold SymbolicMatrix.entry?
    rw [List.getElem?_eq_getElem hlt, Option.bind_some, List.getElem?_eq_getElem hwidth]
  obtain ⟨found, hfound, hlength⟩ : ∃ found, values count m = .ok found ∧
      found.length = (List.range count).length := by
    refine mapM_eq_ok fun i hi => ?_
    obtain ⟨t, ht⟩ := hget i hi
    exact ⟨t, by rw [ht]⟩
  exact ⟨found, hfound, by rw [hlength, List.length_range]⟩

/-- Solving takes the rank of the augmented matrix and then of what pins make of it. -/
inductive TakesRank (settings : ReductionTarget → Settings) (definitions : Definitions)
    (count : Nat) (rows : List (List Term)) : Settings → SymbolicMatrix → Prop
  | augmented {m : SymbolicMatrix} (h : ofRows rows = .ok m) :
      TakesRank settings definitions count rows (settings .approximation) m
  | pinned {m echelon found : SymbolicMatrix} {rank : Nat} (h : ofRows rows = .ok m)
      (hrank : (m.rank (settings .approximation) definitions).value = (echelon, some rank))
      (hpins : Pins { settings .analysis with symbols := .keepAll } definitions count
        (count - rank) 0 rank echelon found) :
      TakesRank settings definitions count rows
        { settings .analysis with symbols := .keepAll } found

section Rows

variable {settings : ReductionTarget → Settings} (hwidth : HasWidth (count + 1) rows)
  (hempty : rows = [] → count = 0)

include hwidth hempty

theorem TakesRank.isAugmented (h : TakesRank settings definitions count rows s m) :
    IsAugmented count m := by
  obtain ⟨augmented, haugmented, hm⟩ := ofRows_isAugmented hwidth hempty
  cases h with
  | augmented hrows =>
    cases hrows.symm.trans haugmented
    exact hm
  | pinned hrows hrank hpins =>
    cases hrows.symm.trans haugmented
    exact hpins.isAugmented (hm.of_rank hrank)

/-- A linear system is solved without faults, with at most one term for each unknown. -/
theorem yields_solve : (solve settings definitions count rows).Yields fun answer =>
    (LinearAnswer.terms answer).length ≤ count := by
  obtain ⟨m, hrows, hm⟩ := ofRows_isAugmented hwidth hempty
  unfold solve
  apply CheckedBuild.yields_except_bind hrows
  apply CheckedBuild.yields_build_bind
  split
  case h_1 => exact CheckedBuild.yields_pure (Nat.zero_le count)
  case h_2 echelon rank hrank =>
    obtain ⟨hle, -, hlength⟩ := SymbolicMatrix.rank_le hm.rectangular hrank
    have hechelon := hm.of_rank hrank
    by_cases hcontradiction : echelon.rows.any (isContradiction (settings .approximation) count)
    · rw [if_pos hcontradiction]
      exact CheckedBuild.yields_pure (Nat.zero_le count)
    rw [if_neg hcontradiction]
    by_cases hunique : rank = count ∧ 0 < count
    · rw [if_pos hunique]
      obtain ⟨terms, hterms, htermsLength⟩ := values_eq_ok hechelon (by omega)
      exact CheckedBuild.yields_except_bind hterms
        (CheckedBuild.yields_pure (Nat.le_of_eq htermsLength))
    · rw [if_neg hunique]
      have hpin := yields_pinFree { settings .analysis with symbols := .keepAll } definitions
        (count - rank) (count - rank) 0 rank hechelon (by omega) (by omega)
      apply hpin.bind
      intro found _ hfound
      split
      case h_1 => exact CheckedBuild.yields_pure (Nat.zero_le count)
      case h_2 m' _ =>
        obtain ⟨hm', hrows⟩ := hfound m' rfl
        obtain ⟨terms, hterms, htermsLength⟩ := values_eq_ok hm' hrows
        exact CheckedBuild.yields_except_bind hterms
          (CheckedBuild.yields_pure (Nat.le_of_eq htermsLength))

end Rows

end Linear

end EquationSolver
