import EquationSolver.Proofs.Matrix.ExactZeros
import Mathlib.Data.List.Sort
import Mathlib.LinearAlgebra.Dual.Lemmas
import Mathlib.LinearAlgebra.Matrix.Rank

/-!
# Matrices of rational numbers

A matrix over a field has one reduced row echelon form: the pivots stand in the columns that
vectors of the row space lead in, and the row of a pivot is the vector of the row space that is one
there and zero in the columns of the other pivots.  So there are as many pivots as the rank.
Matrices with the same solutions have the same row space.

Elimination on exact numbers is Gauss-Jordan elimination over the rationals, as long as the size
limit of exact powers lets the pivots be inverted: the rank is that of the matrix, and what is left
is its reduced row echelon form.
-/

namespace EquationSolver

open Reduction (Settings DrawsRoots)

/-! ### Row spaces -/

variable {K : Type*} [Field K] {m n : Nat}

/-- The vectors that are combined from the rows of a matrix. -/
def rowSpace (A : Matrix (Fin m) (Fin n) K) : Submodule K (Fin n → K) :=
  Submodule.span K (Set.range A.row)

theorem row_mem_rowSpace (A : Matrix (Fin m) (Fin n) K) (i : Fin m) : A i ∈ rowSpace A :=
  Submodule.subset_span ⟨i, rfl⟩

/-- A vector whose products with the solutions are zero is in the row space. -/
theorem mem_rowSpace_of_dotProduct {A : Matrix (Fin m) (Fin n) K} {v : Fin n → K}
    (h : ∀ w, A.mulVec w = 0 → dotProduct v w = 0) : v ∈ rowSpace A := by
  by_contra hv
  obtain ⟨f, hne, hmap⟩ := Submodule.exists_dual_map_eq_bot_of_notMem hv inferInstance
  -- the functional is the product with its values at the unit vectors
  have hf (u : Fin n → K) : f u = dotProduct u fun j => f (Pi.single j 1) := by
    refine (LinearMap.pi_apply_eq_sum_univ f u).trans (Finset.sum_congr rfl fun j _ => ?_)
    have hunit : (fun k => if j = k then (1 : K) else 0) = Pi.single j 1 := by
      funext k
      rw [Pi.single_apply]
      exact if_congr eq_comm rfl rfl
    rw [hunit, smul_eq_mul]
  refine hne ((hf v).trans (h _ ?_))
  funext i
  have hrow : f (A i) ∈ (rowSpace A).map f := Submodule.mem_map_of_mem (row_mem_rowSpace A i)
  rw [hmap, Submodule.mem_bot, hf] at hrow
  exact hrow

/-- Matrices with the same solutions have the same row space. -/
theorem rowSpace_eq_of_mulVec_iff {A B : Matrix (Fin m) (Fin n) K}
    (h : ∀ w, A.mulVec w = 0 ↔ B.mulVec w = 0) : rowSpace A = rowSpace B := by
  have hle {A B : Matrix (Fin m) (Fin n) K} (h : ∀ w, B.mulVec w = 0 → A.mulVec w = 0) :
      rowSpace A ≤ rowSpace B := by
    refine Submodule.span_le.2 ?_
    rintro _ ⟨i, rfl⟩
    exact mem_rowSpace_of_dotProduct fun w hw => congrFun (h w hw) i
  exact le_antisymm (hle fun w => (h w).2) (hle fun w => (h w).1)

theorem rank_eq_of_rowSpace_eq {A B : Matrix (Fin m) (Fin n) K} (h : rowSpace A = rowSpace B) :
    A.rank = B.rank := by
  rw [Matrix.rank_eq_finrank_span_row, Matrix.rank_eq_finrank_span_row]
  exact congrArg (fun space : Submodule K (Fin n → K) => Module.finrank K space) h

/-! ### Reduced row echelon form -/

/-- A matrix in reduced row echelon form, with its pivots in these columns. -/
structure IsReducedEchelon (R : Matrix (Fin m) (Fin n) K) (pivots : List (Fin n)) : Prop where
  ascending : pivots.Pairwise (· < ·)
  length_le : pivots.length ≤ m
  one : ∀ (i : Fin m) (j : Fin n), pivots[i.val]? = some j → R i j = 1
  /-- A row is zero before its pivot. -/
  zero_before : ∀ (i : Fin m) (j k : Fin n), pivots[i.val]? = some j → k < j → R i k = 0
  /-- A pivot is alone in its column. -/
  zero_beside : ∀ (i k : Fin m) (j : Fin n), pivots[i.val]? = some j → k ≠ i → R k j = 0
  /-- Rows without a pivot are zero. -/
  zero_below : ∀ i : Fin m, pivots.length ≤ i.val → R i = 0

namespace IsReducedEchelon

variable {R R' : Matrix (Fin m) (Fin n) K} {pivots pivots' : List (Fin n)} {v : Fin n → K}

/-- The multiple of a row that a vector takes: its entry in the column of the pivot. -/
def coordinate (pivots : List (Fin n)) (v : Fin n → K) (i : Fin m) : K :=
  (pivots[i.val]?).elim 0 v

theorem coordinate_row (h : IsReducedEchelon R pivots) (k i : Fin m) :
    coordinate pivots (R k) i • R i = if i = k then R k else 0 := by
  unfold coordinate
  cases hj : pivots[i.val]? with
  | none =>
    have hzero : R i = 0 := h.zero_below i (List.getElem?_eq_none_iff.1 hj)
    rw [Option.elim_none, zero_smul]
    split_ifs with hik
    · exact hik ▸ hzero.symm
    · rfl
  | some j =>
    rw [Option.elim_some]
    split_ifs with hik
    · rw [← hik, h.one i j hj, one_smul]
    · rw [h.zero_beside i k j hj fun heq => hik heq.symm, zero_smul]

/-- A vector of the row space is combined from the rows by its entries in the columns of the
    pivots. -/
theorem eq_sum_of_mem (h : IsReducedEchelon R pivots) (hv : v ∈ rowSpace R) :
    v = ∑ i, coordinate pivots v i • R i := by
  induction hv using Submodule.span_induction with
  | mem v hv =>
    obtain ⟨k, rfl⟩ := hv
    show R k = ∑ i, coordinate pivots (R k) i • R i
    rw [Finset.sum_congr rfl fun i _ => h.coordinate_row k i, Finset.sum_ite_eq',
      if_pos (Finset.mem_univ k)]
  | zero =>
    refine (Finset.sum_eq_zero fun i _ => ?_).symm
    unfold coordinate
    cases pivots[i.val]? <;> exact zero_smul _ _
  | add u v _ _ hu hv =>
    have hadd (i : Fin m) : coordinate pivots (u + v) i • R i =
        coordinate pivots u i • R i + coordinate pivots v i • R i := by
      unfold coordinate
      cases pivots[i.val]? with
      | none => simp
      | some j => exact add_smul _ _ _
    rw [Finset.sum_congr rfl fun i _ => hadd i, Finset.sum_add_distrib, ← hu, ← hv]
  | smul c v _ hv =>
    have hsmul (i : Fin m) : coordinate pivots (c • v) i • R i =
        c • coordinate pivots v i • R i := by
      unfold coordinate
      cases pivots[i.val]? with
      | none => simp
      | some j => exact mul_smul _ _ _
    rw [Finset.sum_congr rfl fun i _ => hsmul i, ← Finset.smul_sum, ← hv]

/-- A vector of the row space that is zero in the columns of the pivots is zero. -/
theorem eq_zero_of_mem (h : IsReducedEchelon R pivots) (hv : v ∈ rowSpace R)
    (hzero : ∀ j ∈ pivots, v j = 0) : v = 0 := by
  rw [h.eq_sum_of_mem hv]
  refine Finset.sum_eq_zero fun i _ => ?_
  unfold coordinate
  cases hj : pivots[i.val]? with
  | none => exact zero_smul _ _
  | some j => rw [Option.elim_some, hzero j (List.mem_of_getElem? hj), zero_smul]

theorem exists_row (h : IsReducedEchelon R pivots) {j : Fin n} (hj : j ∈ pivots) :
    ∃ i : Fin m, pivots[i.val]? = some j := by
  obtain ⟨i, hi⟩ := List.getElem?_of_mem hj
  exact ⟨⟨i, (List.getElem?_eq_some_iff.1 hi).1.trans_le h.length_le⟩, hi⟩

/-- The pivots stand in the columns that vectors of the row space lead in. -/
theorem mem_pivots_iff (h : IsReducedEchelon R pivots) {j : Fin n} :
    j ∈ pivots ↔ ∃ v ∈ rowSpace R, v j ≠ 0 ∧ ∀ k < j, v k = 0 := by
  constructor
  · intro hj
    obtain ⟨i, hi⟩ := h.exists_row hj
    exact ⟨R i, row_mem_rowSpace R i, by rw [h.one i j hi]; exact one_ne_zero,
      fun k hk => h.zero_before i j k hi hk⟩
  · rintro ⟨v, hv, hne, hbefore⟩
    by_contra hj
    refine hne ?_
    rw [h.eq_sum_of_mem hv, Finset.sum_apply]
    refine Finset.sum_eq_zero fun i _ => ?_
    unfold coordinate
    cases hp : pivots[i.val]? with
    | none => exact congrFun (zero_smul K (R i)) j
    | some p =>
      have hpj : p ≠ j := fun heq => hj (heq ▸ List.mem_of_getElem? hp)
      rw [Option.elim_some, Pi.smul_apply, smul_eq_mul]
      rcases lt_or_gt_of_ne hpj with hlt | hgt
      · rw [hbefore p hlt, zero_mul]
      · rw [h.zero_before i p j hp hgt, mul_zero]

/-- A row space has one reduced row echelon form. -/
theorem unique (h : IsReducedEchelon R pivots) (h' : IsReducedEchelon R' pivots')
    (hspace : rowSpace R = rowSpace R') : R = R' ∧ pivots = pivots' := by
  obtain rfl : pivots = pivots' := h.ascending.eq_of_mem_iff h'.ascending fun j => by
    rw [h.mem_pivots_iff, h'.mem_pivots_iff, hspace]
  refine ⟨?_, rfl⟩
  funext i
  have hmem : R i - R' i ∈ rowSpace R :=
    Submodule.sub_mem _ (row_mem_rowSpace R i) (hspace ▸ row_mem_rowSpace R' i)
  refine sub_eq_zero.1 (h.eq_zero_of_mem hmem fun j hj => ?_)
  obtain ⟨k, hk⟩ := h.exists_row hj
  rw [Pi.sub_apply]
  by_cases hik : i = k
  · rw [hik, h.one k j hk, h'.one k j hk, sub_self]
  · rw [h.zero_beside k i j hk hik, h'.zero_beside k i j hk hik, sub_self]

/-- There are as many pivots as the rank. -/
theorem rank_eq (h : IsReducedEchelon R pivots) : R.rank = pivots.length := by
  let row (k : Fin pivots.length) : Fin n → K := R ⟨k, k.isLt.trans_le h.length_le⟩
  have hpivot (k : Fin pivots.length) : pivots[k.val]? = some pivots[k] :=
    List.getElem?_eq_getElem k.isLt
  have hone (k : Fin pivots.length) : row k pivots[k] = 1 := h.one ⟨k, _⟩ _ (hpivot k)
  have hzero (i k : Fin pivots.length) (hik : i ≠ k) : row i pivots[k] = 0 :=
    h.zero_beside ⟨k, k.isLt.trans_le h.length_le⟩ ⟨i, _⟩ _ (hpivot k)
      fun heq => hik (Fin.ext (Fin.mk.inj heq))
  have hspan : Submodule.span K (Set.range row) = rowSpace R := by
    refine le_antisymm (Submodule.span_le.2 ?_) (Submodule.span_le.2 ?_)
    · rintro _ ⟨k, rfl⟩
      exact row_mem_rowSpace R _
    · rintro _ ⟨i, rfl⟩
      rcases Nat.lt_or_ge i.val pivots.length with hlt | hge
      · exact Submodule.subset_span ⟨⟨i, hlt⟩, rfl⟩
      · have hzero : R.row i = 0 := h.zero_below i hge
        rw [hzero]
        exact Submodule.zero_mem _
  have hindependent : LinearIndependent K row := by
    rw [Fintype.linearIndependent_iff]
    intro c hc k
    have hk := congrFun hc pivots[k]
    rw [Finset.sum_apply, Pi.zero_apply, Finset.sum_eq_single k] at hk
    · rwa [Pi.smul_apply, hone, smul_eq_mul, mul_one] at hk
    · intro i _ hik
      rw [Pi.smul_apply, hzero i k hik, smul_zero]
    · exact fun hnot => absurd (Finset.mem_univ k) hnot
  rw [Matrix.rank_eq_finrank_span_row]
  show Module.finrank K (rowSpace R) = _
  rw [← hspan, finrank_span_eq_card hindependent, Fintype.card_fin]

end IsReducedEchelon

/-! ### Rational values -/

/-- What terms stand for in the rationals when symbols stand for rational numbers. -/
def Valuation.rational (ρ : String → ℚ) : Valuation ℚ where
  toPowerRule := .integers ℚ
  symbol := ρ
  constant _ := 0
  HasConstant _ := False
  i_mul_i := False.elim

/-- Integer powers of rationals leave no roots to draw. -/
theorem Reduction.drawsRoots_rational (ρ : String → ℚ) (s : Settings) :
    DrawsRoots (.rational ρ) s :=
  fun _ _ _ hden hdefined => ((Valuation.rational ρ).hasRoots_of_isDefined hdefined hden).elim

namespace SymbolicMatrix

variable {s : Settings} {definitions : Definitions} {m n : Nat} {A : Matrix (Fin m) (Fin n) ℚ}

/-! ### Exact numbers as a matrix -/

/-- The matrix of terms whose entries are the given numbers. -/
def ofRationals (A : Matrix (Fin m) (Fin n) ℚ) : SymbolicMatrix :=
  ⟨List.ofFn fun i => List.ofFn fun j => .number (A i j), n⟩

@[simp] theorem columns_ofRationals : (ofRationals A).columns = n := rfl

@[simp] theorem length_rows_ofRationals : (ofRationals A).rows.length = m := List.length_ofFn

theorem isRectangular_ofRationals (A : Matrix (Fin m) (Fin n) ℚ) :
    (ofRationals A).IsRectangular := by
  intro row hrow
  obtain ⟨i, rfl⟩ := (List.mem_ofFn' _ _).1 hrow
  exact List.length_ofFn

theorem isExact_ofRationals (A : Matrix (Fin m) (Fin n) ℚ) :
    ∀ row ∈ (ofRationals A).rows, ∀ t ∈ row, t.IsExact := by
  intro row hrow t ht
  obtain ⟨i, rfl⟩ := (List.mem_ofFn' _ _).1 hrow
  obtain ⟨j, rfl⟩ := (List.mem_ofFn' _ _).1 ht
  exact ⟨A i j, rfl⟩

theorem getElem?_rows_ofRationals (A : Matrix (Fin m) (Fin n) ℚ) (i : Fin m) :
    (ofRationals A).rows[i.val]? = some (List.ofFn fun j => .number (A i j)) := by
  simp [ofRationals]

theorem entry?_ofRationals (A : Matrix (Fin m) (Fin n) ℚ) (i : Fin m) (j : Fin n) :
    SymbolicMatrix.entry? (ofRationals A) i j = some (.number (A i j)) := by
  rw [entry?_eq (getElem?_rows_ofRationals A i)]
  simp

/-- A matrix of exact numbers is the one of the numbers. -/
theorem exists_eq_ofRationals {echelon : SymbolicMatrix} (hrows : echelon.rows.length = m)
    (hcolumns : echelon.columns = n) (hrectangular : echelon.IsRectangular)
    (hexact : ∀ row ∈ echelon.rows, ∀ t ∈ row, t.IsExact) :
    ∃ R : Matrix (Fin m) (Fin n) ℚ, echelon = ofRationals R := by
  obtain ⟨rows, columns⟩ := echelon
  subst hcolumns hrows
  have hnumber (i : Fin rows.length) (j : Fin columns) :
      ∃ a : Rat, entryAt rows[i] j = .number a :=
    isExact_entryAt (hexact rows[i] (List.getElem_mem i.isLt)) j
  choose R hR using hnumber
  refine ⟨R, congrArg (SymbolicMatrix.mk · columns) ?_⟩
  refine List.ext_getElem (by simp) fun i hi _ => ?_
  have hlength : rows[i].length = columns := hrectangular _ (List.getElem_mem hi)
  refine List.ext_getElem (by simpa using hlength) fun j hj _ => ?_
  have hij : entryAt rows[i] j = .number (R ⟨i, hi⟩ ⟨j, hlength ▸ hj⟩) := hR ⟨i, hi⟩ ⟨j, hlength ▸ hj⟩
  rw [← entryAt_eq (List.getElem?_eq_getElem hj), hij]
  simp

/-- Numbers are reduced already. -/
theorem reduce_ofRationals (s : Settings) (definitions : Definitions)
    (A : Matrix (Fin m) (Fin n) ℚ) : ((ofRationals A).reduce s definitions).value = ofRationals A := by
  have hterms (symbol : String → Reduction.Step Term) (memory : Reduction.Memory) :
      ∀ terms : List Term, (∀ t ∈ terms, t.IsExact) →
        (Reduction.reduceTerms s symbol terms memory).value = (terms, memory) := by
    intro terms hterms
    induction terms with
    | nil => rfl
    | cons t ts ih =>
      obtain ⟨⟨a, rfl⟩, hts⟩ := List.forall_mem_cons.1 hterms
      have hrest := ih hts
      unfold Reduction.reduceTerms Reduction.reduceTerm
      show ((_ :: (Reduction.reduceTerms s symbol ts memory).value.1,
        (Reduction.reduceTerms s symbol ts memory).value.2) : List Term × _) = _
      rw [hrest]
  have hentries : ∀ t ∈ (ofRationals A).entries, t.IsExact := by
    intro t ht
    obtain ⟨row, hrow, ht⟩ := List.mem_flatten.1 ht
    exact isExact_ofRationals A row hrow t ht
  unfold SymbolicMatrix.reduce Reduction.reduceAll
  simp only [Build.value_bind, Build.value_pure, hterms _ _ _ hentries]
  exact congrArg (SymbolicMatrix.mk · n) (pieces_flatten (isRectangular_ofRationals A))

/-- Matrices whose entries are reduced alike have the same rank. -/
theorem rank_congr {matrix matrix' : SymbolicMatrix} {definitions' : Definitions}
    (h : (matrix.reduce s definitions).value = (matrix'.reduce s definitions').value) :
    (matrix.rank s definitions).value = (matrix'.rank s definitions').value := by
  unfold SymbolicMatrix.rank
  rw [Build.value_bind, Build.value_bind, h]

/-! ### Values and solutions -/

variable (ρ : String → ℚ)

theorem rowHasValues_of_isExact {row : List Term} (h : ∀ t ∈ row, t.IsExact) :
    RowHasValues (.rational ρ) row := by
  intro t ht
  obtain ⟨a, rfl⟩ := h t ht
  exact Valuation.hasValue_number a

theorem rowValue_ofRationals (A : Matrix (Fin m) (Fin n) ℚ) (i : Fin m) (w : Nat → ℚ) :
    rowValue (.rational ρ) n w (List.ofFn fun j => .number (A i j)) =
      A.mulVec (fun j => w j) i := by
  rw [rowValue, Finset.sum_range, Matrix.mulVec, dotProduct]
  refine Finset.sum_congr rfl fun j _ => ?_
  rw [valueAt_eq_of_getElem? (t := .number (A i j)) (by simp), Valuation.value_number, Rat.cast_id]

/-- The numbers for the columns solve the system of the rows when the matrix maps them to zero. -/
theorem solves_ofRationals (A : Matrix (Fin m) (Fin n) ℚ) (w : Nat → ℚ) :
    Solves (.rational ρ) n (ofRationals A).rows w ↔ A.mulVec (fun j => w j) = 0 := by
  constructor
  · intro h
    funext i
    rw [← rowValue_ofRationals ρ]
    exact h _ (List.mem_of_getElem? (getElem?_rows_ofRationals A i))
  · intro h row hrow
    obtain ⟨i, rfl⟩ := (List.mem_ofFn' _ _).1 hrow
    exact (rowValue_ofRationals ρ A i w).trans (congrFun h i)

/-- Matrices whose rows have the same solutions have the same row space. -/
theorem rowSpace_eq_of_solves {A B : Matrix (Fin m) (Fin n) ℚ}
    (h : ∀ w, Solves (.rational ρ) n (ofRationals A).rows w ↔
      Solves (.rational ρ) n (ofRationals B).rows w) : rowSpace A = rowSpace B := by
  refine rowSpace_eq_of_mulVec_iff fun w => ?_
  obtain ⟨w, rfl⟩ : ∃ w' : Nat → ℚ, (fun j : Fin n => w' j) = w :=
    ⟨fun j => if hj : j < n then w ⟨j, hj⟩ else 0, by funext j; simp⟩
  rw [← solves_ofRationals ρ, ← solves_ofRationals ρ, h]

/-! ### Echelon forms -/

/-- The pivots of a matrix in reduced echelon form are read off it. -/
theorem IsReducedEchelon.pivotColumns_eq {matrix : SymbolicMatrix} {pivots : List Nat}
    (h : matrix.IsReducedEchelon pivots) (s : Settings) : matrix.pivotColumns s = pivots := by
  have hzero : Term.zero.nullity s = .yes := rfl
  have hentry {i j : Nat} {row : List Term} {t : Term} (hrow : matrix.rows[i]? = some row)
      (ht : matrix.entry? i j = some t) : row[j]? = some t := by
    rwa [entry?_eq hrow] at ht
  have hlength : pivots.length ≤ matrix.rows.length := h.length_le
  have hrows : matrix.rows.map (fun row => row.findIdx? fun t => t.nullity s ≠ .yes) =
      pivots.map some ++ List.replicate (matrix.rows.length - pivots.length) none := by
    refine List.ext_getElem (by simp; omega) fun i hi hi' => ?_
    have hi : i < matrix.rows.length := by simpa using hi
    have hrow : matrix.rows[i]? = some matrix.rows[i] := List.getElem?_eq_getElem hi
    rw [List.getElem_map, List.getElem_append]
    split_ifs with hpivot
    · rw [List.length_map] at hpivot
      have hj : pivots[i]? = some pivots[i] := List.getElem?_eq_getElem hpivot
      obtain ⟨hlt, hone⟩ := List.getElem?_eq_some_iff.1 (hentry hrow (h.one i _ hj))
      rw [List.getElem_map, List.findIdx?_eq_some_iff_getElem]
      refine ⟨hlt, by rw [hone]; rfl, fun k hk => ?_⟩
      obtain ⟨_, hbefore⟩ :=
        List.getElem?_eq_some_iff.1 (hentry hrow (h.zero_before i _ k hj hk))
      rw [hbefore, hzero]
      simp
    · rw [List.length_map, Nat.not_lt] at hpivot
      rw [List.getElem_replicate, List.findIdx?_eq_none_iff]
      intro t ht
      obtain ⟨j, hj⟩ := List.getElem?_of_mem ht
      have hjColumns : j < matrix.columns :=
        h.rectangular _ (List.getElem_mem hi) ▸ (List.getElem?_eq_some_iff.1 hj).1
      obtain rfl : t = .zero := Option.some.inj
        (hj.symm.trans (hentry hrow (h.zero_below i j hpivot hi hjColumns)))
      rw [hzero]
      rfl
  have hfilter : matrix.pivotColumns s =
      (matrix.rows.map fun row => row.findIdx? fun t => t.nullity s ≠ .yes).filterMap id := by
    rw [List.filterMap_map]
    rfl
  have hnone : (List.replicate (matrix.rows.length - pivots.length)
      (none : Option Nat)).filterMap id = [] :=
    List.filterMap_eq_nil_iff.2 fun x hx => List.eq_of_mem_replicate hx
  rw [hfilter, hrows, List.filterMap_append, List.filterMap_map, hnone, List.append_nil]
  exact List.filterMap_some

/-- Where the terms are in reduced echelon form, the numbers are. -/
theorem IsReducedEchelon.exists_rationals {R : Matrix (Fin m) (Fin n) ℚ} {pivots : List Nat}
    (h : (ofRationals R).IsReducedEchelon pivots) :
    ∃ pivots' : List (Fin n), pivots'.map Fin.val = pivots ∧
      EquationSolver.IsReducedEchelon R pivots' := by
  have hlt : ∀ j ∈ pivots, j < n := h.lt_columns
  have hpivots : ∃ pivots' : List (Fin n), pivots'.map Fin.val = pivots :=
    ⟨pivots.pmap Fin.mk hlt, by simp [List.map_pmap]⟩
  obtain ⟨pivots', rfl⟩ := hpivots
  have hget {i : Nat} {j : Fin n} (hj : pivots'[i]? = some j) :
      (pivots'.map Fin.val)[i]? = some j.val := by
    rw [List.getElem?_map, hj]
    rfl
  have hentry {i : Fin m} {j : Fin n} {a : ℚ}
      (ha : SymbolicMatrix.entry? (ofRationals R) i j = some (.number a)) : R i j = a :=
    Term.number.inj (Option.some.inj ((entry?_ofRationals R i j).symm.trans ha))
  refine ⟨pivots', rfl, ?_⟩
  constructor
  case ascending => exact (List.pairwise_map (f := Fin.val)).1 h.ascending
  case length_le => simpa [rowCount] using h.length_le
  case one => exact fun i j hj => hentry (h.one i j (hget hj))
  case zero_before => exact fun i j k hj hk => hentry (h.zero_before i j k (hget hj) hk)
  case zero_beside =>
    intro i k j hj hki
    exact hentry (h.zero_beside i j k (hget hj) (Fin.val_ne_of_ne hki) (by simp [rowCount]))
  case zero_below =>
    intro i hi
    funext j
    exact hentry (h.zero_below i j (by simpa using hi) (by simp [rowCount]) j.isLt)

/-! ### The rank -/

/-- The rank of a matrix of rationals is the one that is computed, and what is left in its place is
    its reduced row echelon form, of which the columns of the pivots are read off: the only
    matrix in reduced echelon form with the same row space.  Every number that is taken for a pivot
    has to be within the size limit of exact powers, or one. -/
theorem rank_ofRationals (s : Settings) (definitions : Definitions) (A : Matrix (Fin m) (Fin n) ℚ)
    (hinverts : (Elimination.start (ofRationals A).rows).InvertsPivots s n) :
    ∃ (R : Matrix (Fin m) (Fin n) ℚ) (pivots : List (Fin n)),
      ((ofRationals A).rank s definitions).value = (ofRationals R, some A.rank) ∧
      EquationSolver.IsReducedEchelon R pivots ∧ rowSpace R = rowSpace A ∧
      (∀ R' pivots', EquationSolver.IsReducedEchelon R' pivots' → rowSpace R' = rowSpace A →
        R' = R) ∧
      pivots.length = A.rank ∧
      ∀ s', (ofRationals R).pivotColumns s' = pivots.map Fin.val := by
  have hreduce := reduce_ofRationals s definitions A
  have hreduceNil := reduce_ofRationals s [] A
  have hm := isRectangular_ofRationals A
  have hexact : (Elimination.start (ofRationals A).rows).HasExactEntries := isExact_ofRationals A
  have hvalues : ∀ row ∈ (ofRationals A).rows, RowHasValues (.rational 0) row :=
    fun row hrow => rowHasValues_of_isExact 0 (hexact row hrow)
  have hroots := Reduction.drawsRoots_rational 0 s
  have hnonzero : (Elimination.start ((ofRationals A).reduce s []).value.rows).TakesNonzeroPivots
      (.rational 0) s (ofRationals A).columns :=
    hreduceNil.symm ▸ hexact.takesNonzeroPivots (.rational 0) hinverts
  obtain ⟨echelon, rank, hrank, -⟩ := exists_rank hroots hm hvalues hnonzero
  obtain ⟨-, -, -, -, -, hsolves⟩ := exists_reduced hroots hm hvalues hrank hnonzero
  obtain ⟨hcolumns, column, hrun⟩ := run_of_rank hrank
  rw [hreduceNil] at hrun
  obtain ⟨(R : Matrix (Fin m) (Fin n) ℚ), rfl⟩ := exists_eq_ofRationals
    ((rank_le hm hrank).2.2.trans length_rows_ofRationals) hcolumns
    (isRectangular_of_rank hm hrank) (hexact.run hrun hinverts)
  obtain ⟨pivots, hlength, hechelon⟩ := exists_isReducedEchelon hm hrank
    (hreduceNil.symm ▸ hexact.clearsEntries hinverts)
  obtain ⟨pivots, rfl, hR⟩ := hechelon.exists_rationals
  have hspace : rowSpace R = rowSpace A := rowSpace_eq_of_solves 0 hsolves
  have hrankEq : A.rank = pivots.length := (rank_eq_of_rowSpace_eq hspace).symm.trans hR.rank_eq
  rw [List.length_map, ← hrankEq] at hlength
  refine ⟨R, pivots, ?_, hR, hspace, fun R' pivots' hR' hspace' => ?_, hrankEq.symm,
    fun s' => hechelon.pivotColumns_eq s'⟩
  · rw [rank_congr (hreduce.trans hreduceNil.symm), hlength]
    exact hrank
  · exact (hR'.unique hR (hspace'.trans hspace.symm)).1

/-- The first pivot has to be fetched from the second row, and the third row is the sum of the
    others. -/
def dependentRows : Matrix (Fin 3) (Fin 3) ℚ :=
  !![0, 2, 4; 3, 0, 6; 3, 2, 10]

theorem rank_ofRationals_dependentRows :
    (Elimination.start (ofRationals dependentRows).rows).InvertsPivots {} 3 ∧
      ∃ (R : Matrix (Fin 3) (Fin 3) ℚ) (pivots : List (Fin 3)),
        ((ofRationals dependentRows).rank {} []).value = (ofRationals R, some dependentRows.rank) ∧
        EquationSolver.IsReducedEchelon R pivots ∧ rowSpace R = rowSpace dependentRows := by
  have hinverts : (Elimination.start (ofRationals dependentRows).rows).InvertsPivots {} 3 :=
    Elimination.invertsPivots_of_holdsAlong (by decide +kernel) (Nat.zero_add 3)
  obtain ⟨R, pivots, hrank, hR, hspace, -⟩ := rank_ofRationals {} [] dependentRows hinverts
  exact ⟨hinverts, R, pivots, hrank, hR, hspace⟩

end SymbolicMatrix

end EquationSolver
