import EquationSolver.Proofs.Matrix.Echelon
import EquationSolver.Proofs.Solver.Answers
import EquationSolver.Proofs.Solver.Systems

/-!
# Consistent systems

An answer to a linear system says whether there is no solution, one, or infinitely many.  It is
right where elimination decides which entries are zero: no entry of value zero is taken for a
pivot, and a contradiction is recognised.
-/

namespace EquationSolver

open Reduction (Settings DrawsRoots)
open SymbolicMatrix

/-! ### Augmented matrices -/

namespace Elimination

variable {K : Type*} [Field K] {V : Valuation K} {s : Settings} {count : Nat} {e : Elimination}
  {pivots : List Nat} {row : List Term}

/-- The pivot of a contradiction is in the column of the constants. -/
theorem IsReduced.mem_of_isContradiction (h : e.IsReduced V s pivots)
    (hend : e.IsFinished (count + 1)) (hcolumn : e.column ≤ count + 1) (hrow : row ∈ e.rows)
    (hcontradiction : Linear.isContradiction s count row = true) : count ∈ pivots := by
  obtain ⟨i, hi⟩ := List.getElem?_of_mem hrow
  have hlength := (List.getElem?_eq_some_iff.1 hi).1
  rcases Nat.lt_or_ge i e.place with hlt | hge
  · rw [← h.hasPivots.length_eq] at hlt
    have hj : pivots[i]? = some pivots[i] := List.getElem?_eq_getElem hlt
    have hmem : pivots[i] ∈ pivots := List.getElem_mem hlt
    obtain ⟨row', hrow', hone⟩ := h.hasPivots.one i _ hj
    obtain rfl : row' = row := Option.some.inj (hrow'.symm.trans hi)
    rcases Nat.lt_succ_iff_lt_or_eq.1 (Nat.lt_of_lt_of_le (h.hasPivots.lt_column _ hmem) hcolumn)
      with hcoefficient | hconstant
    · rw [Linear.isContradiction_of_one hcoefficient hone] at hcontradiction
      cases hcontradiction
    · exact hconstant ▸ hmem
  · -- the last column has been passed, and a row without a pivot is known to be zero there
    by_contra hnotMem
    have hlast : e.column = count + 1 := hend.resolve_left (by omega)
    have hknown := h.known_below i count row hlast hnotMem hge hi
    rw [Linear.isContradiction, hknown] at hcontradiction
    simp at hcontradiction

/-- With a pivot in the column of the constants there is a contradiction. -/
theorem IsReduced.exists_of_mem (h : e.IsReduced V s pivots) (hlast : count ∈ pivots) :
    ∃ row ∈ e.rows, (∀ j < count, valueAt V row j = 0) ∧ valueAt V row count = 1 := by
  obtain ⟨i, hi⟩ := List.getElem?_of_mem hlast
  obtain ⟨row, hrow, hone⟩ := h.hasPivots.one i count hi
  refine ⟨row, List.mem_of_getElem? hrow, h.zero_before i count row hi hrow, ?_⟩
  rw [valueAt_eq_of_getElem? hone, Term.one, Valuation.value_number, Rat.cast_one]

/-- One more pivot than unknowns is one in the column of the constants. -/
theorem IsReduced.mem_of_lt (h : e.IsReduced V s pivots) (hcolumn : e.column ≤ count + 1)
    (hplace : count < e.place) : count ∈ pivots := by
  rw [← h.hasPivots.length_eq] at hplace
  have hj : pivots[count]? = some pivots[count] := List.getElem?_eq_getElem hplace
  obtain ⟨hge, -⟩ := bounds_of_ascending h.hasPivots.ascending (fun _ _ => Nat.zero_le _)
    h.hasPivots.lt_column hj
  have hlt := h.hasPivots.lt_column _ (List.getElem_mem hplace)
  have heq : pivots[count] = count := by omega
  exact heq ▸ List.getElem_mem hplace

end Elimination

namespace Linear

section Rows

variable {K : Type*} [Field K] {V : Valuation K} {s : Settings} {count rank : Nat}
  {m m' : SymbolicMatrix} {found : List Term}

/-- Elimination decides which entries are zero, as far as the answer depends on it. -/
structure IsDecided (V : Valuation K) (s : Settings) (count : Nat) (m : SymbolicMatrix) :
    Prop where
  /-- No entry of value zero is taken for a pivot. -/
  nonzero : (Elimination.start (m.reduce s []).value.rows).TakesNonzeroPivots V s m.columns
  /-- When a row says that zero is something else, a contradiction is recognised. -/
  contradiction : ∀ row ∈ (m.rank s []).value.1.rows, (∀ j < count, valueAt V row j = 0) →
    valueAt V row count ≠ 0 →
      ∃ other ∈ (m.rank s []).value.1.rows, isContradiction s count other = true

/-- Which numbers are zero is decided, so an elimination that meets nothing else decides it. -/
theorem isDecided_of_numbers [CharZero K] (hm : m.IsRectangular) (hcolumns : m.columns = count + 1)
    (h : ∀ e, Elimination.Run s m.columns (.start (m.reduce s []).value.rows) e →
      ∀ row ∈ e.rows, ∀ t ∈ row, ∃ a : Rat, t = .number a) : IsDecided V s count m := by
  have hregular := Elimination.isRegular_start (isRectangular_reduce s [] hm)
  have hnumber {e : Elimination}
      (hrun : Elimination.Run s m.columns (.start (m.reduce s []).value.rows) e) {row : List Term}
      (hrow : row ∈ e.rows) {j : Nat} (hj : j < count + 1) :
      ∃ a : Rat, row[j]? = some (.number a) ∧ valueAt V row j = a := by
    have hlength : row.length = m.columns := (hregular.run hrun).width row hrow
    have hlt : j < row.length := by omega
    have hget : row[j]? = some row[j] := List.getElem?_eq_getElem hlt
    obtain ⟨a, ha⟩ := h e hrun row hrow row[j] (List.getElem_mem hlt)
    rw [ha] at hget
    exact ⟨a, hget, by rw [valueAt_eq_of_getElem? hget, Valuation.value_number]⟩
  constructor
  case nonzero =>
    intro e pivot row hrun hplace hcolumn hpivot hrow
    obtain ⟨a, hget, hvalue⟩ := hnumber hrun (List.mem_of_getElem? hrow) (hcolumns ▸ hcolumn)
    have hnullity := nullity_of_findPivot?_eq_some hpivot hrow
    rw [entryAt_eq hget] at hnullity
    rw [hvalue]
    rintro hzero
    rw [Rat.cast_eq_zero.1 hzero] at hnullity
    exact hnullity rfl
  case contradiction =>
    intro row hrow hcoefficients hconstant
    obtain ⟨e, hrun, hrows⟩ := exists_run_of_rank s [] m
    rw [hrows] at hrow ⊢
    refine ⟨row, hrow, ?_⟩
    unfold isContradiction
    rw [Bool.and_eq_true, List.all_eq_true]
    constructor
    · intro t ht
      obtain ⟨j, hj⟩ := List.getElem?_of_mem ht
      rw [List.getElem?_take] at hj
      obtain ⟨hlt, hget⟩ := Option.ite_none_right_eq_some.1 hj
      obtain ⟨a, hget', hvalue⟩ := hnumber hrun hrow (Nat.lt_succ_of_lt hlt)
      obtain rfl : t = .number a := Option.some.inj (hget.symm.trans hget')
      rw [hcoefficients j hlt] at hvalue
      rw [Rat.cast_eq_zero.1 hvalue.symm]
      rfl
    · obtain ⟨a, hget, hvalue⟩ := hnumber hrun hrow (Nat.lt_succ_self count)
      rw [entryAt_eq hget]
      have ha : a ≠ 0 := by
        rintro rfl
        exact hconstant (hvalue.trans Rat.cast_zero)
      exact decide_eq_true fun h => ha (Term.nullity_number_eq_yes_iff.1 h)

/-- With a pivot for each unknown the values of the unknowns, read off the last column, are the only
    solution. -/
theorem solves_iff_of_isReduced [CharZero K] {column : Nat} {pivots : List Nat}
    (hreduced : Elimination.IsReduced V s ⟨m.rows, count, column⟩ pivots)
    (hend : Elimination.IsFinished (count + 1) ⟨m.rows, count, column⟩)
    (hcolumn : column ≤ count + 1) (hlast : count ∉ pivots) (hread : values count m = .ok found) :
    (∀ t ∈ found, V.HasValue t) ∧ ∀ w : Nat → K, w count = -1 →
      (Solves V (count + 1) m.rows w ↔ ∀ i t, found[i]? = some t → w i = V.value t) := by
  obtain ⟨hlength, hentry⟩ := of_values_eq_ok hread
  have hentryRow {i : Nat} {t : Term} (ht : found[i]? = some t) :
      ∃ row : List Term, m.rows[i]? = some row ∧ row[count]? = some t := by
    have hi := (List.getElem?_eq_some_iff.1 ht).1
    obtain ⟨t', ht', hentry⟩ := hentry i (hlength ▸ hi)
    obtain rfl : t' = t := Option.some.inj (ht'.symm.trans ht)
    exact Option.bind_eq_some_iff.1 hentry
  constructor
  · intro t ht
    obtain ⟨i, hi⟩ := List.getElem?_of_mem ht
    obtain ⟨row, hrow, hconstant⟩ := hentryRow hi
    exact hreduced.hasValues row (List.mem_of_getElem? hrow) t (List.mem_of_getElem? hconstant)
  · intro w hw
    refine (hreduced.solves_iff hend hcolumn rfl hlast hw).trans ?_
    constructor
    · intro hall i t ht
      obtain ⟨row, hrow, hconstant⟩ := hentryRow ht
      have hi := (List.getElem?_eq_some_iff.1 ht).1
      rw [hall i (hlength ▸ hi) row hrow, valueAt_eq_of_getElem? hconstant]
    · intro hall i hi row hrow
      have ht : found[i]? = some found[i] := List.getElem?_eq_getElem (hlength.symm ▸ hi)
      obtain ⟨row', hrow', hconstant⟩ := hentryRow ht
      obtain rfl : row' = row := Option.some.inj (hrow'.symm.trans hrow)
      rw [hall i _ ht, valueAt_eq_of_getElem? hconstant]

variable [CharZero K] (hroots : DrawsRoots V s) (hm : m.IsRectangular)
  (hcolumns : m.columns = count + 1) (hvalues : ∀ row ∈ m.rows, RowHasValues V row)
  (hrank : (m.rank s []).value = (m', some rank)) (hdecided : IsDecided V s count m)

include hroots hm hcolumns hvalues hrank hdecided

/-- A contradiction leaves no solutions. -/
theorem not_solves_of_contradiction
    (hcontradiction : ∃ row ∈ m'.rows, isContradiction s count row = true) {w : Nat → K}
    (hw : w count ≠ 0) : ¬Solves V (count + 1) m.rows w := by
  obtain ⟨column, pivots, hreduced, hend, hcolumn, hsolves⟩ :=
    exists_reduced hroots hm hvalues hrank hdecided.nonzero
  rw [hcolumns] at hend hcolumn hsolves
  obtain ⟨row, hrow, hrowContradiction⟩ := hcontradiction
  rw [← hsolves]
  exact hreduced.not_solves
    (hreduced.mem_of_isContradiction hend hcolumn hrow hrowContradiction) hw

/-- Without a contradiction the column of the constants has no pivot. -/
theorem exists_consistent (hconsistent : ∀ row ∈ m'.rows, isContradiction s count row = false) :
    ∃ column pivots, Elimination.IsReduced V s ⟨m'.rows, rank, column⟩ pivots ∧
      Elimination.IsFinished (count + 1) ⟨m'.rows, rank, column⟩ ∧ column ≤ count + 1 ∧
      count ∉ pivots ∧ ∀ w, Solves V (count + 1) m'.rows w ↔ Solves V (count + 1) m.rows w := by
  obtain ⟨column, pivots, hreduced, hend, hcolumn, hsolves⟩ :=
    exists_reduced hroots hm hvalues hrank hdecided.nonzero
  rw [hcolumns] at hend hcolumn hsolves
  refine ⟨column, pivots, hreduced, hend, hcolumn, fun hlast => ?_, hsolves⟩
  obtain ⟨row, hrow, hzero, hone⟩ := hreduced.exists_of_mem hlast
  have hrows : (m.rank s []).value.1.rows = m'.rows := by rw [hrank]
  obtain ⟨other, hother, htrue⟩ :=
    hdecided.contradiction row (hrows ▸ hrow) hzero (by rw [hone]; exact one_ne_zero)
  rw [hconsistent other (hrows ▸ hother)] at htrue
  cases htrue

/-- The values of the unknowns are the only solution. -/
theorem solves_iff_values (hfull : rank = count)
    (hconsistent : ∀ row ∈ m'.rows, isContradiction s count row = false)
    (hread : values count m' = .ok found) :
    (∀ t ∈ found, V.HasValue t) ∧ ∀ w : Nat → K, w count = -1 →
      (Solves V (count + 1) m.rows w ↔ ∀ i t, found[i]? = some t → w i = V.value t) := by
  obtain ⟨column, pivots, hreduced, hend, hcolumn, hlast, hsolves⟩ :=
    exists_consistent hroots hm hcolumns hvalues hrank hdecided hconsistent
  subst hfull
  obtain ⟨hhas, honly⟩ := solves_iff_of_isReduced hreduced hend hcolumn hlast hread
  exact ⟨hhas, fun w hw => (hsolves w).symm.trans (honly w hw)⟩

/-- When the rank is subtracted from the number of unknowns, some unknown may be any number. -/
theorem exists_free_unknown (hcount : 0 < count) (hsubtracts : SubtractsRank s count m' rank) :
    ∃ free < count, ∀ v : K, ∃ w, w count = -1 ∧ w free = v ∧ Solves V (count + 1) m.rows w := by
  obtain ⟨column, pivots, hreduced, hend, hcolumn, hlast, hsolves⟩ :=
    exists_consistent hroots hm hcolumns hvalues hrank hdecided
      fun row hrow => hsubtracts.isContradiction_eq_false hrow
  have hlt : rank < count := by
    by_contra hle
    have hne : rank ≠ count := fun heq => hsubtracts.not_unique ⟨heq, hcount⟩
    exact hlast (hreduced.mem_of_lt hcolumn (by dsimp only; omega))
  simp only [← hsolves]
  exact hreduced.exists_free hend hcolumn hlt hlast

end Rows

/-! ### Answers and solutions -/

/-- A value of each unknown is the number of the point, whatever the symbols stand for. -/
def HaveValues (values : List Term) (point : List ℝ) : Prop :=
  List.Forall₂ (fun t v => ∀ ρ, (Valuation.real ρ).Denotes t v) values point

/-- What an answer says of the solutions. -/
def IsRight (solutions : Set (List ℝ)) : LinearAnswer → Prop
  | .undefined => True
  | .inconsistent => solutions = ∅
  | .unique values => ∃ point, solutions = {point} ∧ HaveValues values point
  | .unresolved | .parametric _ => solutions.Infinite

/-- A system of affine forms with these rows, of whose entries elimination decides which are zero,
    whatever the symbols stand for. -/
structure IsAffineSystem (s s' : Settings) (names : List String) (forms : List Term)
    (rows : List (List Term)) : Prop where
  limit : s.limits.maxExponentBits = 4096
  limit' : s'.limits.maxExponentBits = 4096
  names_ne_nil : names ≠ []
  rows_ne_nil : rows ≠ []
  nodup : names.Nodup
  affine : ∀ form ∈ forms, form.IsAffine
  mentions : ∀ form ∈ forms, ∀ name, form.Mentions name → name ∈ names
  rows_eq : (augmentedRows s names forms).value = some rows
  isDecided : ∀ ρ, IsDecided (.real ρ) s' names.length ⟨rows, names.length + 1⟩

theorem coordinate_last {point : List ℝ} {count : Nat} (h : point.length = count) :
    coordinate point count = -1 := by
  simp [coordinate, h]

theorem coordinate_map_range {w : Nat → ℝ} {count : Nat} (hw : w count = -1) {j : Nat}
    (hj : j < count + 1) : coordinate ((List.range count).map w) j = w j := by
  rcases Nat.lt_succ_iff_lt_or_eq.1 hj with hlt | rfl
  · simp [coordinate, hlt]
  · rw [coordinate_last (by simp), hw]

section Answers

variable {settings : ReductionTarget → Settings} {s : Settings} {names : List String}
  {forms : List Term} {rows : List (List Term)} {values : List Term}

/-- Where for each sequence of numbers that the symbols stand for the values are the only
    solution, they are the same for all. -/
theorem exists_point (hlength : values.length = names.length)
    (hvalues : ∀ ρ, ∀ t ∈ values, (Valuation.real ρ).HasValue t)
    (hmem : ∀ ρ point, point ∈ solutionSet names forms ↔ point.length = names.length ∧
      ∀ i t, values[i]? = some t → coordinate point i = (Valuation.real ρ).value t) :
    ∃ point, solutionSet names forms = {point} ∧ HaveValues values point := by
  obtain ⟨point, hpoint⟩ : ∃ point, point = values.map (Valuation.real fun _ => 0).value := ⟨_, rfl⟩
  have hget {i : Nat} {t : Term} (ht : values[i]? = some t) :
      coordinate point i = (Valuation.real fun _ => 0).value t := by
    simp [coordinate, hpoint, ht]
  have hsolution : point ∈ solutionSet names forms :=
    (hmem (fun _ => 0) point).2 ⟨by rw [hpoint, List.length_map, hlength], fun i t ht => hget ht⟩
  refine ⟨point, Set.eq_singleton_iff_unique_mem.2 ⟨hsolution, fun other hother => ?_⟩, ?_⟩
  · obtain ⟨hotherLength, hotherValues⟩ := (hmem (fun _ => 0) other).1 hother
    have hpointLength := ((hmem (fun _ => 0) point).1 hsolution).1
    refine List.ext_getElem (hotherLength.trans hpointLength.symm) fun i hi hi' => ?_
    have hlt : i < values.length := by omega
    have ht : values[i]? = some values[i] := List.getElem?_eq_getElem hlt
    have hcoordinate := (hotherValues i _ ht).trans (hget ht).symm
    simpa [coordinate, hi, hi'] using hcoordinate
  · rw [hpoint]
    refine List.forall₂_map_right_iff.2 (List.forall₂_same.2 fun t ht ρ => ?_)
    obtain ⟨i, hi⟩ := List.getElem?_of_mem ht
    have hvalue := ((hmem ρ point).1 hsolution).2 i t hi
    exact ⟨hvalues ρ t ht, by rw [← hvalue, hget hi]⟩

/-- An answer to a system is right. -/
theorem Answers.isRight {answer : LinearAnswer}
    (h : Answers settings [] names.length rows answer)
    (hsystem : IsAffineSystem s (settings .approximation) names forms rows) :
    IsRight (solutionSet names forms) answer := by
  have hcount : 0 < names.length := List.length_pos_iff.2 hsystem.names_ne_nil
  have hwidth := (hasWidth_augmentedRows hsystem.rows_eq).1
  have hrectangular : (⟨rows, names.length + 1⟩ : SymbolicMatrix).IsRectangular := hwidth
  have hrows {m : SymbolicMatrix} (hm : ofRows rows = .ok m) : m = ⟨rows, names.length + 1⟩ :=
    Except.ok.inj (hm.symm.trans (ofRows_eq hwidth hsystem.rows_ne_nil))
  have hroots (ρ : String → ℝ) : DrawsRoots (.real ρ) (settings .approximation) :=
    Reduction.drawsRoots_real hsystem.limit' ρ
  have hvalues (ρ : String → ℝ) : ∀ row ∈ rows, RowHasValues (.real ρ) row :=
    (rows_values hsystem.limit hsystem.affine hsystem.mentions hsystem.rows_eq ρ ρ).1
  have hmem (ρ : String → ℝ) (point : List ℝ) : point ∈ solutionSet names forms ↔
      point.length = names.length ∧ Solves (.real ρ) (names.length + 1) rows (coordinate point) :=
    mem_solutionSet_iff hsystem.limit hsystem.nodup hsystem.affine hsystem.mentions
      hsystem.rows_eq ρ
  have hfree {m echelon : SymbolicMatrix} {rank : Nat} (hm : ofRows rows = .ok m)
      (hrank : (m.rank (settings .approximation) []).value = (echelon, some rank))
      (hsubtracts : SubtractsRank (settings .approximation) names.length echelon rank) :
      (solutionSet names forms).Infinite := by
    obtain rfl := hrows hm
    obtain ⟨free, hlt, hall⟩ := exists_free_unknown (hroots fun _ => 0) hrectangular rfl (hvalues _) hrank
      (hsystem.isDecided _) hcount hsubtracts
    choose w hlast hw hsolves using hall
    refine Set.infinite_of_injective_forall_mem (f := fun v => (List.range names.length).map (w v))
      (fun v v' heq => ?_) fun v => (hmem (fun _ => 0) _).2 ⟨by simp, ?_⟩
    · have hget := congrArg (fun point => coordinate point free) heq
      dsimp only at hget
      rwa [coordinate_map_range (hlast v) (by omega), coordinate_map_range (hlast v') (by omega),
        hw, hw] at hget
    · exact (solves_congr fun j hj => coordinate_map_range (hlast v) hj).2 (hsolves v)
  cases h with
  | undefined => exact trivial
  | inconsistent hm hrank hcontradiction =>
    obtain rfl := hrows hm
    refine Set.eq_empty_iff_forall_notMem.2 fun point hpoint => ?_
    obtain ⟨hlength, hsolves⟩ := (hmem (fun _ => 0) point).1 hpoint
    refine not_solves_of_contradiction (hroots _) hrectangular rfl (hvalues _) hrank
      (hsystem.isDecided _) hcontradiction ?_ hsolves
    rw [coordinate_last hlength]
    exact neg_ne_zero.2 one_ne_zero
  | unique hm hrank hconsistent _ hread =>
    obtain rfl := hrows hm
    have honly (ρ : String → ℝ) := solves_iff_values (hroots ρ) hrectangular rfl (hvalues ρ) hrank
      (hsystem.isDecided ρ) rfl hconsistent hread
    refine exists_point (of_values_eq_ok hread).1 (fun ρ => (honly ρ).1) fun ρ point => ?_
    rw [hmem ρ]
    exact and_congr_right fun hlength => (honly ρ).2 _ (coordinate_last hlength)
  | unresolved hm hrank hsubtracts => exact hfree hm hrank hsubtracts
  | parametric hm hrank hsubtracts => exact hfree hm hrank hsubtracts

end Answers

end Linear

end EquationSolver
