import EquationSolver.Proofs.Matrix.Rationals
import EquationSolver.Proofs.Solver.Definitions
import EquationSolver.Proofs.Solver.Exact

/-!
# Pins one by one

Each pin of a free unknown adds one to the rank and one equation to the system: that the unknown is
the parameter.  So pinning ends after as many pins as pivots were missing, and then the values of
the unknowns are read off the last column.
-/

namespace EquationSolver

open Reduction (Settings DrawsRoots AgreeOn)
open SymbolicMatrix

namespace Linear

variable {s : Settings} {definitions : Definitions} {count parameters : Nat}

/-- Free unknowns are pinned in these places, one after the other.  Each pin adds one to the rank,
    until it is the number of unknowns. -/
inductive PinsAt (s : Settings) (definitions : Definitions) (count parameters : Nat) :
    Nat → Nat → SymbolicMatrix → List Nat → SymbolicMatrix → Prop
  | full (pins : Nat) (m : SymbolicMatrix) :
      PinsAt s definitions count parameters pins count m [] m
  | pin {pins rank place : Nat} {places : List Nat} {m next found : SymbolicMatrix}
      (hfree : freeUnknown? s count m = some place)
      (hrank : ((pinMatrix count place (parameterName (pins + 1) parameters) m).rank s
        definitions).value = (next, some (rank + 1)))
      (rest : PinsAt s definitions count parameters (pins + 1) (rank + 1) next places found) :
      PinsAt s definitions count parameters pins rank m (place :: places) found

section Trace

variable {pins rank : Nat} {places : List Nat} {m found : SymbolicMatrix}

/-- There are as many pins as pivots are missing. -/
theorem PinsAt.length_eq (h : PinsAt s definitions count parameters pins rank m places found) :
    rank + places.length = count := by
  induction h with
  | full => rfl
  | pin _ _ _ ih => rw [List.length_cons, ← ih]; omega

/-- The places are those of unknowns. -/
theorem PinsAt.lt (h : PinsAt s definitions count parameters pins rank m places found) :
    ∀ place ∈ places, place < count := by
  induction h with
  | full => exact List.forall_mem_nil _
  | pin hfree _ _ ih =>
    refine List.forall_mem_cons.2 ⟨?_, ih⟩
    have hmem := List.mem_of_find?_eq_some hfree
    simpa using hmem

/-- Pinning goes through to the end. -/
theorem PinsAt.value_pinFree (h : PinsAt s definitions count parameters pins rank m places found)
    (hcolumns : m.columns = count + 1) :
    (pinFree s definitions count parameters places.length pins rank m).run.value =
      .ok (some found) := by
  induction h with
  | full => rfl
  | pin hfree hrank rest ih =>
    have hlength := rest.length_eq
    rw [List.length_cons]
    unfold pinFree
    rw [if_neg (by omega), hfree]
    dsimp only
    rw [CheckedBuild.value_bind_of_ok (value_pinned hcolumns), CheckedBuild.value_build_bind]
    rw [hrank]
    dsimp only
    rw [if_neg (by omega)]
    exact ih ((run_of_rank hrank).1.trans hcolumns)

end Trace

/-! ### Pins and solutions -/

section Values

variable {K : Type*} [Field K] {V : Valuation K} {place : Nat} {name : String}
  {m : SymbolicMatrix}

/-- The row of a pin says that the unknown is the parameter. -/
theorem rowValue_pinRow (V : Valuation K) (hplace : place < count) (w : Nat → K) :
    rowValue V (count + 1) w (pinRow count place name) =
      w place + V.symbol name * w count := by
  have hlength : ((List.replicate count Term.zero).set place .one).length = count := by simp
  have hcoefficient : ∀ j ∈ Finset.range count,
      valueAt V (pinRow count place name) j * w j = if j = place then w place else 0 := by
    intro j hj
    have hj : j < count := Finset.mem_range.1 hj
    have hget : (pinRow count place name)[j]? = some (if j = place then .one else .zero) := by
      unfold pinRow
      rw [List.getElem?_append_left (by omega), List.getElem?_set]
      simp [hj, eq_comm (a := j)]
      split_ifs <;> simp_all
    rw [valueAt_eq_of_getElem? hget]
    split_ifs with hpin
    · rw [hpin, Term.one, Valuation.value_number, Rat.cast_one, one_mul]
    · rw [Term.zero, Valuation.value_number, Rat.cast_zero, zero_mul]
  have hlast : (pinRow count place name)[count]? = some (.symbol name) := by
    unfold pinRow
    rw [List.getElem?_append_right (by omega), hlength, Nat.sub_self]
    rfl
  rw [rowValue, Finset.sum_range_succ, Finset.sum_congr rfl hcoefficient,
    valueAt_eq_of_getElem? hlast, Finset.sum_ite_eq', if_pos (Finset.mem_range.2 hplace)]
  rfl

/-- A matrix whose free unknowns can be pinned, with its pivots in the columns of unknowns and the
    system that it stands for read off them. -/
structure IsEchelon (V : Valuation K) (count : Nat) (m : SymbolicMatrix) : Prop
    extends IsPinnable V count m where
  lt : ∀ j ∈ leadColumns m.rows, j < count
  reduced : ∃ s column pivots,
    Elimination.IsReduced V s ⟨m.rows, (leadColumns m.rows).length, column⟩ pivots ∧
      Elimination.IsFinished (count + 1) ⟨m.rows, (leadColumns m.rows).length, column⟩ ∧
      column ≤ count + 1

variable [CharZero K]

/-- A system of exact numbers with a solution has an echelon form whose free unknowns can be pinned.
    No row of it is a contradiction. -/
theorem IsExactSystem.exists_isEchelon {rows : List (List Term)} (h : IsExactSystem s count rows)
    (hroots : DrawsRoots V s) (hvalues : ∀ row ∈ rows, RowHasValues V row)
    (hsolution : ∃ w : Nat → K, w count ≠ 0 ∧ Solves V (count + 1) rows w) :
    ∃ echelon, (SymbolicMatrix.rank s [] ⟨rows, count + 1⟩).value =
        (echelon, some (leadColumns echelon.rows).length) ∧
      IsEchelon V count echelon ∧ (∀ row ∈ echelon.rows, isContradiction s count row = false) ∧
      ∀ w, Solves V (count + 1) echelon.rows w ↔ Solves V (count + 1) rows w := by
  obtain ⟨echelon, hrank, hexact, hpinnable⟩ := h.exists_rank hroots hvalues
  obtain ⟨column, pivots, hreduced, hend, hcolumn, hsolves⟩ := exists_reduced hroots
    (m := ⟨rows, count + 1⟩) h.width hvalues hrank (h.exact.takesNonzeroPivots V h.inverts)
  have hlast : count ∉ pivots := by
    obtain ⟨w, hw, hrows⟩ := hsolution
    exact fun hmem => hreduced.not_solves hmem hw ((hsolves w).2 hrows)
  have hwidth : HasWidth (count + 1) echelon.rows := fun row hrow =>
    (hpinnable.rectangular row hrow).trans hpinnable.columns
  obtain ⟨-, hleads⟩ := Elimination.HasExactEntries.isStaggered
    (e := ⟨echelon.rows, _, column⟩) hexact hwidth hreduced hend
  have hlt : ∀ j ∈ leadColumns echelon.rows, j < count := by
    intro j hj
    have hj : j ∈ pivots := hleads ▸ hj
    have hle : j < count + 1 := (hreduced.hasPivots.lt_column j hj).trans_le hcolumn
    exact lt_of_le_of_ne (Nat.lt_succ_iff.1 hle) fun heq => hlast (heq ▸ hj)
  refine ⟨echelon, hrank, ⟨hpinnable, hlt, s, column, pivots, hreduced, hend, hcolumn⟩,
    fun row hrow => Bool.eq_false_iff.2 fun htrue => ?_, hsolves⟩
  exact hlast (hreduced.mem_of_isContradiction hend hcolumn hrow htrue)

/-- A pin of a free unknown adds one to the rank, and its equation to the system. -/
theorem IsEchelon.pin (h : IsEchelon V count m) (hroots : DrawsRoots V s)
    (hs : s.symbols = .keepAll) (definitions : Definitions) (name : String) (hplace : place < count)
    (hfree : place ∉ leadColumns m.rows) :
    ∃ next, ((pinMatrix count place name m).rank s definitions).value =
        (next, some ((leadColumns m.rows).length + 1)) ∧
      IsEchelon V count next ∧ (leadColumns next.rows).Perm (leadColumns m.rows ++ [place]) ∧
      ∀ w, Solves V (count + 1) next.rows w ↔
        Solves V (count + 1) m.rows w ∧ w place + V.symbol name * w count = 0 := by
  obtain ⟨hpinned, hleads⟩ := h.toIsPinnable.pinned name hplace hfree
  have hlength : (leadColumns (pinMatrix count place name m).rows).length =
      (leadColumns m.rows).length + 1 := by
    rw [hleads, List.length_append, List.length_singleton]
  obtain ⟨next, hrank, hnext, hperm⟩ := hpinned.exists_rank hroots
  have hagree : AgreeOn (fun _ => False) definitions [] := ⟨nofun, nofun⟩
  have hsame : (pinMatrix count place name m).rank s definitions =
      (pinMatrix count place name m).rank s [] :=
    SymbolicMatrix.rank_eq hagree fun t _ => Reduction.looksUp_of_keepAll hs
  have hnonzero := (Elimination.isStaggered_start
    (hpinned.staggered.reduce s hpinned.rectangular).1).takesNonzeroPivots (s := s) V
      (Elimination.isRegular_start (isRectangular_reduce s [] hpinned.rectangular))
  obtain ⟨column, pivots, hreduced, hend, hcolumn, hsolves⟩ :=
    exists_reduced hroots hpinned.rectangular hpinned.hasValues hrank hnonzero
  rw [hpinned.columns] at hend hcolumn hsolves
  rw [hleads] at hperm
  refine ⟨next, by rw [hsame, hrank, hlength], ⟨hnext, fun j hj => ?_, ?_⟩, hperm, fun w => ?_⟩
  · rcases List.mem_append.1 (hperm.mem_iff.1 hj) with hold | hnew
    · exact h.lt j hold
    · exact List.mem_singleton.1 hnew ▸ hplace
  · rw [hperm.length_eq, ← hleads]
    exact ⟨s, column, pivots, hreduced, hend, hcolumn⟩
  · rw [hsolves, ← rowValue_pinRow V hplace]
    unfold Solves pinMatrix
    rw [List.forall_mem_append, List.forall_mem_singleton]

omit [CharZero K] in
/-- There is one pivot for each unknown at most. -/
theorem IsEchelon.length_le (h : IsEchelon V count m) : (leadColumns m.rows).length ≤ count := by
  have hsubset : leadColumns m.rows ⊆ List.range count :=
    fun j hj => List.mem_range.2 (h.lt j hj)
  have hle := (h.staggered.nodup.subperm hsubset).length_le
  rwa [List.length_range] at hle

/-- Pins can be made until each unknown has a pivot. -/
theorem IsEchelon.exists_pinsAt (h : IsEchelon V count m) (hroots : DrawsRoots V s)
    (hs : s.symbols = .keepAll) (definitions : Definitions) (parameters pins : Nat) :
    ∃ places found, PinsAt s definitions count parameters pins (leadColumns m.rows).length m places
      found := by
  induction hmissing : count - (leadColumns m.rows).length generalizing pins m with
  | zero =>
    have hfull : (leadColumns m.rows).length = count := by
      have := h.length_le
      omega
    exact ⟨[], m, hfull ▸ .full pins m⟩
  | succ missing ih =>
    obtain ⟨place, hplace, hfree, hnotMem⟩ :=
      exists_freeUnknown? h.staggered (by omega : (leadColumns m.rows).length < count) s
    obtain ⟨next, hrank, hnext, hperm, -⟩ :=
      h.pin hroots hs definitions (parameterName (pins + 1) parameters) hplace hnotMem
    have hlength : (leadColumns next.rows).length = (leadColumns m.rows).length + 1 := by
      rw [hperm.length_eq, List.length_append, List.length_singleton]
    obtain ⟨places, found, hrest⟩ := ih hnext (pins + 1) (by omega)
    exact ⟨place :: places, found, .pin hfree hrank (hlength ▸ hrest)⟩

/-- What pins make of an echelon form has a pivot for each unknown, and stands for the same system
    with each of the pinned unknowns the parameter of its pin. -/
theorem PinsAt.isEchelon {pins rank : Nat} {places : List Nat} {found : SymbolicMatrix}
    (h : PinsAt s definitions count parameters pins rank m places found) (hroots : DrawsRoots V s)
    (hs : s.symbols = .keepAll) (hm : IsEchelon V count m)
    (hrank : (leadColumns m.rows).length = rank) :
    IsEchelon V count found ∧ (leadColumns found.rows).length = count ∧
      ∀ w, Solves V (count + 1) found.rows w ↔ Solves V (count + 1) m.rows w ∧
        ∀ k (hk : k < places.length),
          w places[k] + V.symbol (parameterName (pins + k + 1) parameters) * w count = 0 := by
  induction h with
  | full pins m => exact ⟨hm, hrank, fun w => by simp⟩
  | pin hfree hvalue rest ih =>
    rename_i pins rank place places m next found
    have hlength := rest.length_eq
    obtain ⟨place', hplace, hfree', hnotMem⟩ :=
      exists_freeUnknown? hm.staggered (by omega : (leadColumns m.rows).length < count) s
    obtain rfl : place = place' := Option.some.inj (hfree.symm.trans hfree')
    obtain ⟨next', hvalue', hnext, hperm, hsolves⟩ :=
      hm.pin hroots hs definitions (parameterName (pins + 1) parameters) hplace hnotMem
    obtain rfl : next = next' := congrArg Prod.fst (hvalue.symm.trans hvalue')
    obtain ⟨hfound, hfull, hrest⟩ := ih hnext (by
      rw [hperm.length_eq, List.length_append, List.length_singleton, hrank])
    refine ⟨hfound, hfull, fun w => ?_⟩
    rw [hrest w, hsolves w, and_assoc]
    refine and_congr_right fun _ => ⟨fun ⟨hfirst, hothers⟩ k hk => ?_, fun hall => ⟨?_, ?_⟩⟩
    · cases k with
      | zero => exact hfirst
      | succ k =>
        have hother := hothers k (Nat.lt_of_succ_lt_succ hk)
        rwa [Nat.add_right_comm pins 1 k] at hother
    · exact hall 0 (Nat.succ_pos _)
    · intro k hk
      have hother := hall (k + 1) (Nat.succ_lt_succ hk)
      rwa [← Nat.add_assoc, Nat.add_right_comm pins k 1] at hother

/-- With a pivot for each unknown, the column of the constants has none. -/
theorem IsEchelon.solves_iff_values (h : IsEchelon V count m)
    (hfull : (leadColumns m.rows).length = count) {found : List Term}
    (hread : values count m = .ok found) :
    (∀ t ∈ found, V.HasValue t) ∧ ∀ w : Nat → K, w count = -1 →
      (Solves V (count + 1) m.rows w ↔ ∀ i t, found[i]? = some t → w i = V.value t) := by
  obtain ⟨s, column, pivots, hreduced, hend, hcolumn⟩ := h.reduced
  rw [hfull] at hreduced hend
  refine solves_iff_of_isReduced hreduced hend hcolumn (fun hlast => ?_) hread
  -- a row whose pivot is there would lead in the column of an unknown, with a one
  obtain ⟨row, hrow, hzero, hone⟩ := hreduced.exists_of_mem hlast
  cases hlead : leadColumn? row with
  | some j =>
    have hvalue := hzero j (h.lt j (List.mem_filterMap.2 ⟨row, hrow, hlead⟩))
    rw [valueAt_eq_of_getElem? (h.staggered.one row hrow j hlead), Term.one, Valuation.value_number,
      Rat.cast_one] at hvalue
    exact one_ne_zero hvalue
  | none =>
    have hentry : entryAt row count = .zero := entryAt_eq_zero fun j hj => by
      rw [hlead] at hj
      cases hj
    rw [valueAt, hentry, Term.zero, Valuation.value_number, Rat.cast_zero] at hone
    exact zero_ne_one hone

end Values

end Linear

end EquationSolver
