import EquationSolver.Proofs.Solver.Parameters
import EquationSolver.Proofs.Solver.Pins
import EquationSolver.Proofs.Solver.RationalSystems
import Mathlib.LinearAlgebra.FiniteDimensional.Lemmas

/-!
# Parametric solutions

A consistent linear system with fewer pivots than unknowns is solved by pins: as many as pivots are
missing.  For each choice of the parameters the system has one solution with the pinned unknowns the
parameters, so the values of the unknowns describe all solutions, each of them once.
-/

namespace EquationSolver

open Reduction (Settings DrawsRoots)
open SymbolicMatrix

/-! ### Points that parameters determine -/

/-- Where for each choice of some coordinates there is one solution, the solution is an affine
    function of them, and there are as many of them as the rank leaves. -/
theorem exists_affine_solution {K : Type*} [Field K] {m n k : Nat} {A : Matrix (Fin m) (Fin n) K}
    {b : Fin m → K} {place : Fin k → Fin n} {x : (Fin k → K) → Fin n → K}
    (h : ∀ τ y, (A.mulVec y = b ∧ ∀ j, y (place j) = τ j) ↔ y = x τ) :
    ∃ B : Matrix (Fin n) (Fin k) K, (∀ τ, x τ = x 0 + B.mulVec τ) ∧ A.rank + k = n := by
  have hsolves (τ : Fin k → K) : A.mulVec (x τ) = b := ((h τ (x τ)).2 rfl).1
  have hplace (τ : Fin k → K) (j : Fin k) : x τ (place j) = τ j := ((h τ (x τ)).2 rfl).2 j
  -- the vectors that the matrix maps to zero are told apart by the chosen coordinates
  let coordinates : LinearMap.ker A.mulVecLin →ₗ[K] Fin k → K :=
    (LinearMap.funLeft K K place).comp (LinearMap.ker A.mulVecLin).subtype
  have hker {d : Fin n → K} : d ∈ LinearMap.ker A.mulVecLin ↔ A.mulVec d = 0 := Iff.rfl
  have hbijective : Function.Bijective coordinates := by
    constructor
    · refine (injective_iff_map_eq_zero coordinates).2 fun d hd => Subtype.ext ?_
      have hzero (j : Fin k) : d.val (place j) = 0 := congrFun hd j
      have hshift : x 0 + d.val = x 0 := (h 0 _).1 ⟨by
        rw [Matrix.mulVec_add, hsolves, hker.1 d.property, add_zero], fun j => by
        rw [Pi.add_apply, hplace, hzero, add_zero]⟩
      exact add_eq_left.1 hshift
    · intro τ
      have hmem : x τ - x 0 ∈ LinearMap.ker A.mulVecLin :=
        hker.2 (by rw [Matrix.mulVec_sub, hsolves, hsolves, sub_self])
      refine ⟨⟨_, hmem⟩, funext fun j => ?_⟩
      show x τ (place j) - x 0 (place j) = τ j
      rw [hplace, hplace, Pi.zero_apply, sub_zero]
  let direction := LinearEquiv.ofBijective coordinates hbijective
  refine ⟨LinearMap.toMatrix' ((LinearMap.ker A.mulVecLin).subtype.comp
    direction.symm.toLinearMap), fun τ => ?_, ?_⟩
  · rw [← Matrix.toLin'_apply, Matrix.toLin'_toMatrix']
    refine ((h τ _).1 ⟨?_, fun j => ?_⟩).symm
    · rw [Matrix.mulVec_add, hsolves]
      exact (congrArg (b + ·) (hker.1 (direction.symm τ).property)).trans (add_zero b)
    · have hτ : coordinates (direction.symm τ) = τ := direction.apply_symm_apply τ
      rw [Pi.add_apply, hplace, Pi.zero_apply, zero_add]
      exact congrFun hτ j
  · have hnullity := A.mulVecLin.finrank_range_add_finrank_ker
    rwa [direction.finrank_eq, Module.finrank_fin_fun, Module.finrank_fin_fun] at hnullity

namespace Linear

/-- The terms are affine functions of the parameters, whatever else symbols stand for.  As the
    parameters range over the rational numbers they run through the points, each of them once. -/
structure IsParametrization {n k : Nat} (points : Set (Fin n → ℚ)) (parameters : Fin k → String)
    (terms : Fin n → Term) (c : Fin n → ℚ) (B : Matrix (Fin n) (Fin k) ℚ) : Prop where
  independent : Function.Injective parameters
  denotes : ∀ ρ i, (Valuation.rational ρ).Denotes (terms i)
    ((c + B.mulVec fun j => ρ (parameters j)) i)
  injective : Function.Injective fun τ => c + B.mulVec τ
  range_eq : Set.range (fun τ => c + B.mulVec τ) = points

/-- Terms that are the only solution with some unknowns the parameters describe all solutions. -/
theorem exists_isParametrization {m n k : Nat} {A : Matrix (Fin m) (Fin n) ℚ} {b : Fin m → ℚ}
    {parameters : Fin k → String} (hindependent : Function.Injective parameters)
    {place : Fin k → Fin n} {terms : Fin n → Term}
    (hvalues : ∀ ρ i, (Valuation.rational ρ).HasValue (terms i))
    (h : ∀ ρ y, (A.mulVec y = b ∧ ∀ j, y (place j) = ρ (parameters j)) ↔
      y = fun i => (Valuation.rational ρ).value (terms i)) :
    A.rank + k = n ∧ ∃ c B, IsParametrization {y | A.mulVec y = b} parameters terms c B := by
  obtain ⟨x, hx⟩ : ∃ x : (Fin k → ℚ) → Fin n → ℚ, ∀ τ y,
      (A.mulVec y = b ∧ ∀ j, y (place j) = τ j) ↔ y = x τ := by
    refine ⟨fun τ i => (Valuation.rational (Function.extend parameters τ 0)).value (terms i),
      fun τ y => ?_⟩
    rw [← h]
    simp only [hindependent.extend_apply]
  obtain ⟨B, haffine, hrank⟩ := exists_affine_solution hx
  have hplace (τ : Fin k → ℚ) (j : Fin k) : (x 0 + B.mulVec τ) (place j) = τ j :=
    ((hx τ _).2 (haffine τ).symm).2 j
  refine ⟨hrank, x 0, B, hindependent, fun ρ i => ⟨hvalues ρ i, ?_⟩, fun τ τ' heq => ?_, ?_⟩
  · have hpoint := (hx (fun j => ρ (parameters j)) _).1 ((h ρ _).2 rfl)
    exact congrFun (hpoint.trans (haffine _)) i
  · funext j
    rw [← hplace τ j, ← hplace τ' j]
    exact congrFun heq (place j)
  · ext y
    constructor
    · rintro ⟨τ, rfl⟩
      exact ((hx τ _).2 (haffine τ).symm).1
    · intro hy
      refine ⟨fun j => y (place j), ?_⟩
      exact (haffine _).symm.trans ((hx _ y).1 ⟨hy, fun j => rfl⟩).symm

/-! ### The answer -/

section Answer

variable {s s' : Settings} {definitions : Definitions} {count parameters pins rank : Nat}
  {m echelon found : SymbolicMatrix} {places : List Nat}

/-- Each pin brings its parameter. -/
theorem PinsAt.symbols_pinFree
    (h : PinsAt s definitions count parameters pins rank m places found)
    (hcolumns : m.columns = count + 1) :
    (pinFree s definitions count parameters places.length pins rank m).symbols =
      parameterNames parameters (pins + 1) places.length := by
  induction h with
  | full => rfl
  | pin hfree hrank rest ih =>
    have hlength := rest.length_eq
    rw [List.length_cons, parameterNames_succ]
    unfold pinFree
    rw [if_neg (by omega), hfree]
    dsimp only
    rw [CheckedBuild.symbols_bind_of_ok (value_pinned hcolumns), symbols_pinned,
      CheckedBuild.symbols_build_bind, (addsNoSymbol_rank _).symbols_eq_nil, List.nil_append, hrank]
    dsimp only
    rw [if_neg (by omega), ih ((run_of_rank hrank).1.trans hcolumns)]
    rfl

theorem injective_parameterName (parameters : Nat) :
    Function.Injective fun k : Fin parameters => parameterName (k + 1) parameters := by
  by_cases hone : parameters = 1
  · subst hone
    exact Function.injective_of_subsingleton _
  · exact fun i j hnames => Fin.ext (Nat.succ_injective (parameterName_injective hone hnames))

/-- The answer holds the values that are read off once each unknown has a pivot. -/
theorem PinsAt.value_solve (settings : ReductionTarget → Settings) {rows : List (List Term)}
    {answers : List Term} (hm : ofRows rows = .ok m) (hcolumns : m.columns = count + 1)
    (hrank : (m.rank (settings .approximation) definitions).value = (echelon, some rank))
    (hsubtracts : SubtractsRank (settings .approximation) count echelon rank)
    (h : PinsAt { settings .analysis with symbols := .keepAll } definitions count (count - rank) 0
      rank echelon places found)
    (hread : values count found = .ok answers) :
    (solve settings definitions count rows).run.value = .ok (.parametric answers) := by
  have hcontradiction : ¬ echelon.rows.any (isContradiction (settings .approximation) count) := by
    rw [hsubtracts.consistent]
    exact Bool.false_ne_true
  have hpinned := h.value_pinFree ((run_of_rank hrank).1.trans hcolumns)
  have hlength : places.length = count - rank := by
    have := h.length_eq
    omega
  rw [hlength] at hpinned
  unfold solve
  rw [hm, CheckedBuild.value_bind_of_ok rfl, CheckedBuild.value_build_bind, hrank]
  dsimp only
  rw [if_neg hcontradiction, if_neg hsubtracts.not_unique, CheckedBuild.value_bind_of_ok hpinned]
  dsimp only
  rw [hread]
  rfl

end Answer

/-! ### Systems with rational coefficients -/

section Systems

variable {s s' : Settings} {definitions : Definitions} {names : List String} {forms : List Term}
  {A : Matrix (Fin forms.length) (Fin names.length) ℚ} {b : Fin forms.length → ℚ}

/-- The matrix of the system with its constants is one of exact numbers. -/
theorem IsRationalSystem.isExactSystem (h : IsRationalSystem names forms A b)
    (hinverts : (Elimination.start (ofRationals (augmented A b)).rows).InvertsPivots s
      (names.length + 1)) : IsExactSystem s names.length (ofRationals (augmented A b)).rows := by
  have hreduce := reduce_ofRationals s [] (augmented A b)
  constructor
  case width => exact isRectangular_ofRationals _
  case rows_ne_nil =>
    intro hnil
    have hlength := length_rows_ofRationals (A := augmented A b)
    rw [hnil] at hlength
    exact h.forms_ne_nil (List.eq_nil_of_length_eq_zero hlength.symm)
  case exact => exact hreduce.symm ▸ isExact_ofRationals _
  case inverts => exact hreduce.symm ▸ hinverts

end Systems

/-! ### The values of the unknowns -/

section Values

variable {s s' : Settings} {definitions : Definitions} {m n : Nat}
  {A : Matrix (Fin m) (Fin n) ℚ} {b : Fin m → ℚ} {echelon found : SymbolicMatrix}

/-- The numbers of a point, and minus one for the column of the constants. -/
def withConstant (x : Fin n → ℚ) (j : Nat) : ℚ :=
  if hj : j < n then x ⟨j, hj⟩ else -1

@[simp] theorem withConstant_val (x : Fin n → ℚ) (j : Fin n) : withConstant x j = x j :=
  dif_pos j.isLt

@[simp] theorem withConstant_last (x : Fin n → ℚ) : withConstant x n = -1 :=
  dif_neg (Nat.lt_irrefl n)

/-- An echelon form of the equations `A x = b`, whatever symbols stand for. -/
structure IsEchelonOf (A : Matrix (Fin m) (Fin n) ℚ) (b : Fin m → ℚ) (echelon : SymbolicMatrix) :
    Prop where
  isEchelon : ∀ ρ, IsEchelon (.rational ρ) n echelon
  solves_iff : ∀ ρ x, Solves (.rational ρ) (n + 1) echelon.rows (withConstant x) ↔ A.mulVec x = b

/-- A consistent system of exact numbers has an echelon form, of which no row is a contradiction. -/
theorem IsExactSystem.exists_isEchelonOf
    (h : IsExactSystem s n (ofRationals (augmented A b)).rows) (hsolution : ∃ x, A.mulVec x = b) :
    ∃ echelon, ((ofRationals (augmented A b)).rank s []).value =
        (echelon, some (leadColumns echelon.rows).length) ∧
      (∀ row ∈ echelon.rows, isContradiction s n row = false) ∧ IsEchelonOf A b echelon := by
  have hsolves (ρ : String → ℚ) (x : Fin n → ℚ) :
      Solves (.rational ρ) (n + 1) (ofRationals (augmented A b)).rows (withConstant x) ↔
        A.mulVec x = b := by
    rw [solves_ofRationals, mulVec_augmented A b (withConstant_last x)]
    simp only [withConstant_val]
  obtain ⟨x, hx⟩ := hsolution
  have hechelon (ρ : String → ℚ) := h.exists_isEchelon (V := .rational ρ)
    (Reduction.drawsRoots_rational ρ s)
    (fun row hrow => rowHasValues_of_isExact ρ (isExact_ofRationals _ row hrow))
    ⟨withConstant x, by simp, (hsolves ρ x).2 hx⟩
  -- elimination does not depend on what the symbols stand for
  obtain ⟨echelon, hrank, -, hconsistent, -⟩ := hechelon 0
  have hechelonOf (ρ : String → ℚ) : IsEchelon (.rational ρ) n echelon ∧
      ∀ x, Solves (.rational ρ) (n + 1) echelon.rows (withConstant x) ↔ A.mulVec x = b := by
    obtain ⟨echelon', hrank', hpinnable, -, hrows⟩ := hechelon ρ
    obtain rfl : echelon = echelon' := congrArg Prod.fst (hrank.symm.trans hrank')
    exact ⟨hpinnable, fun x => (hrows _).trans (hsolves ρ x)⟩
  exact ⟨echelon, hrank, hconsistent, fun ρ => (hechelonOf ρ).1, fun ρ => (hechelonOf ρ).2⟩

/-- With each unknown pinned that is free, the values are the only solution in which the pinned
    unknowns are the parameters. -/
theorem PinsAt.exists_terms {parameters rank : Nat} {places : List Nat}
    (h : PinsAt s definitions n parameters 0 rank echelon places found)
    (hechelon : IsEchelonOf A b echelon) (hrank : (leadColumns echelon.rows).length = rank)
    (hs : s.symbols = .keepAll) :
    ∃ terms : Fin n → Term, values n found = .ok (List.ofFn terms) ∧
      ∀ ρ, (∀ i, (Valuation.rational ρ).HasValue (terms i)) ∧
        ∀ x, (A.mulVec x = b ∧ ∀ k (hk : k < places.length),
            x ⟨places[k], h.lt _ (List.getElem_mem hk)⟩ = ρ (parameterName (k + 1) parameters)) ↔
          x = fun i => (Valuation.rational ρ).value (terms i) := by
  have hfound (ρ : String → ℚ) := h.isEchelon (Reduction.drawsRoots_rational ρ s) hs
    (hechelon.isEchelon ρ) hrank
  obtain ⟨hfoundEchelon, hfull, -⟩ := hfound 0
  obtain ⟨answers, hread, hlength⟩ :=
    values_eq_ok ⟨hfoundEchelon.rectangular, .inl hfoundEchelon.columns⟩
      (hfull ▸ List.length_filterMap_le _ _ : n ≤ found.rows.length)
  obtain ⟨terms, rfl⟩ : ∃ terms : Fin n → Term, List.ofFn terms = answers :=
    ⟨fun i => answers.get (i.cast hlength.symm),
      List.ext_getElem (by simp [hlength]) (by simp)⟩
  refine ⟨terms, hread, fun ρ => ?_⟩
  obtain ⟨hhas, honly⟩ := (hfound ρ).1.solves_iff_values hfull hread
  refine ⟨fun i => hhas _ (List.mem_ofFn.2 ⟨i, rfl⟩), fun x => ?_⟩
  have hpins := (hfound ρ).2.2 (withConstant x)
  have hparameter (k : Nat) (hk : k < places.length) :
      withConstant x places[k] + (Valuation.rational ρ).symbol (parameterName (0 + k + 1) parameters) *
          withConstant x n = 0 ↔
        x ⟨places[k], h.lt _ (List.getElem_mem hk)⟩ = ρ (parameterName (k + 1) parameters) := by
    rw [withConstant_last, mul_neg_one, ← sub_eq_add_neg, sub_eq_zero, Nat.zero_add]
    exact Eq.congr_left (withConstant_val x ⟨places[k], _⟩)
  simp only [hechelon.solves_iff ρ x, honly _ (withConstant_last x), hparameter] at hpins
  rw [← hpins, funext_iff]
  constructor
  · intro hall i
    rw [← withConstant_val x i]
    exact hall i _ (by simp)
  · intro hall i t ht
    obtain ⟨hi, rfl⟩ := List.getElem?_eq_some_iff.1 ht
    have hi : i < n := by simpa using hi
    rw [List.getElem_ofFn, ← hall ⟨i, hi⟩]
    exact withConstant_val x ⟨i, hi⟩

/-- A consistent system of exact numbers is solved by as many pins as its rank leaves, and the
    values of the unknowns describe its solutions. -/
theorem IsExactSystem.exists_parametric
    (h : IsExactSystem s' n (ofRationals (augmented A b)).rows) (hsolution : ∃ x, A.mulVec x = b)
    (hs : s.symbols = .keepAll) (definitions : Definitions) :
    ∃ echelon places found terms c B,
      ((ofRationals (augmented A b)).rank s' []).value = (echelon, some A.rank) ∧
      (∀ row ∈ echelon.rows, isContradiction s' n row = false) ∧
      PinsAt s definitions n (n - A.rank) 0 A.rank echelon places found ∧
      values n found = .ok (List.ofFn terms) ∧
      IsParametrization {x | A.mulVec x = b}
        (fun k : Fin (n - A.rank) => parameterName (k + 1) (n - A.rank)) terms c B := by
  obtain ⟨echelon, hrank, hconsistent, hechelon⟩ := h.exists_isEchelonOf hsolution
  generalize hpivots : (leadColumns echelon.rows).length = rank at hrank
  obtain ⟨places, found, hpins⟩ := (hechelon.isEchelon 0).exists_pinsAt
    (Reduction.drawsRoots_rational 0 s) hs definitions (n - rank) 0
  rw [hpivots] at hpins
  obtain ⟨terms, hread, hterms⟩ := hpins.exists_terms hechelon hpivots hs
  have hlength := hpins.length_eq
  have hmissing : n - rank = places.length := by omega
  let place (k : Fin (n - rank)) : Fin n :=
    ⟨places.get (k.cast hmissing), hpins.lt _ (List.get_mem _ _)⟩
  have hterms' (ρ : String → ℚ) (x : Fin n → ℚ) : (A.mulVec x = b ∧
        ∀ k, x (place k) = ρ (parameterName (k + 1) (n - rank))) ↔
      x = fun i => (Valuation.rational ρ).value (terms i) := by
    rw [← (hterms ρ).2 x, Fin.forall_iff]
    exact and_congr_right fun _ => forall_congr' fun k => by
      constructor
      · exact fun hpin hk => hpin (hk.trans_eq hmissing.symm)
      · exact fun hpin hk => hpin (hk.trans_eq hmissing)
  obtain ⟨hranks, c, B, hdescribes⟩ := exists_isParametrization
    (injective_parameterName (n - rank)) (fun ρ => (hterms ρ).1) hterms'
  obtain rfl : rank = A.rank := by omega
  exact ⟨echelon, places, found, terms, c, B, hrank, hconsistent, hpins, hread, hdescribes⟩

end Values

end Linear

/-! ### Attempts -/

namespace Attempt

variable {preferences : Preferences} {attempt : Attempt Term} {forms : List Term}
  {A : Matrix (Fin forms.length) (Fin attempt.unknownCount) ℚ} {b : Fin forms.length → ℚ}

/-- A consistent linear system with rational coefficients and fewer pivots than unknowns is solved
    without an error, as long as the numbers that are taken for pivots pass the size test.  As many
    unknowns are pinned as pivots are missing, each by a parameter of its own, and each pin adds one
    to the rank.  The values of the unknowns that are handed on to be registered are affine
    functions of the parameters, and the points that they give over all rational parameters are the
    solutions of the system. -/
theorem solveLinear_describes_solutions (settings : SolverSettings) (definitions : Definitions)
    (h : Linear.IsRationalSystem attempt.unknowns.items forms A b)
    (hsolution : ∃ x, A.mulVec x = b) (hrank : A.rank < attempt.unknownCount)
    (hinverts : (Elimination.start (ofRationals (Linear.augmented A b)).rows).InvertsPivots
      (attempt.reduction preferences .approximation) (attempt.unknownCount + 1)) :
    let missing := attempt.unknownCount - A.rank
    let solved := attempt.solveLinear preferences settings definitions forms
    ∃ m echelon places found terms c B,
      attempt.HasRank preferences definitions forms m echelon A.rank ∧
      Linear.PinsAt (attempt.parametricReduction preferences) definitions attempt.unknownCount
        missing 0 A.rank echelon places found ∧
      places.length = missing ∧ solved.symbols = Linear.parameterNames missing 1 missing ∧
      solved.run.value = (Attempt.registerAll preferences settings definitions
        { attempt with kind := some .linear, hasMore := true }
        { attempt.reduction preferences .user with symbols := .keepAll } .formal
        (List.ofFn terms)).run.value ∧
      Linear.IsParametrization {x | A.mulVec x = b}
        (fun k : Fin missing => Linear.parameterName (k + 1) missing) terms c B := by
  intro missing solved
  obtain ⟨rows, hrows⟩ := Linear.exists_augmentedRows (attempt.reduction preferences .analysis)
    (fun form hform => (h.exact form hform).isAffine) h.mentions
  obtain ⟨hwidth, hlength⟩ := Linear.hasWidth_augmentedRows hrows
  have hnonempty : rows ≠ [] := by
    rintro rfl
    exact h.forms_ne_nil (List.eq_nil_of_length_eq_zero hlength.symm)
  have hm := ofRows_eq hwidth hnonempty
  obtain ⟨echelon, places, found, terms, c, B, hechelon, hconsistent, hpins, hread, hdescribes⟩ :=
    (h.isExactSystem hinverts).exists_parametric hsolution
      (s := attempt.parametricReduction preferences) rfl definitions
  have hhas : attempt.HasRank preferences definitions forms _ echelon A.rank :=
    ⟨⟨rows, hrows, hm⟩, (h.rank_eq hrows _ definitions).trans hechelon⟩
  have hsubtracts : attempt.SubtractsRank preferences echelon A.rank :=
    ⟨List.any_eq_false.2 fun row hrow => Bool.eq_false_iff.1 (hconsistent row hrow),
      fun hfull => hrank.ne hfull.1⟩
  have hcount : places.length = missing := Nat.eq_sub_of_add_eq' hpins.length_eq
  refine ⟨_, echelon, places, found, terms, c, B, hhas, hpins, hcount, ?_, ?_, hdescribes⟩
  · have hsymbols := hpins.symbols_pinFree ((run_of_rank hechelon).1.trans rfl)
    rw [hcount] at hsymbols
    exact (symbols_solveLinear settings hhas hsubtracts).trans hsymbols
  · have hanswer := hpins.value_solve (attempt.reduction preferences) hm rfl
      hhas.rank_eq hsubtracts hread
    show (attempt.solveLinear preferences settings definitions forms).run.value = _
    unfold solveLinear
    rw [CheckedBuild.value_build_bind, hrows]
    dsimp only
    unfold solveRows
    rw [CheckedBuild.value_bind_of_ok hanswer]
    rfl

/-- That unknowns add up to one is an equation with rational coefficients. -/
theorem isRationalSystem_total {names : List String} (hnodup : names.Nodup) :
    Linear.IsRationalSystem names [totalForm names] (Matrix.of fun _ _ => 1) fun _ => 1 := by
  constructor
  case nodup => exact hnodup
  case forms_ne_nil => exact List.cons_ne_nil _ _
  case exact =>
    refine List.forall_mem_singleton.2 (Term.isExactAffine_sum fun t ht => ?_)
    rcases List.mem_append.1 ht with ht | ht
    · obtain ⟨name, -, rfl⟩ := List.mem_map.1 ht
      exact .inl ⟨name, rfl⟩
    · exact .inr ⟨-1, List.mem_singleton.1 ht⟩
  case mentions =>
    refine List.forall_mem_singleton.2 fun name hname => ?_
    obtain ⟨t, ht, hname⟩ := Term.mentions_sum.1 hname
    rcases List.mem_append.1 ht with ht | ht
    · obtain ⟨name', hname', rfl⟩ := List.mem_map.1 ht
      exact Term.mentions_symbol.1 hname ▸ hname'
    · rw [List.mem_singleton.1 ht] at hname
      exact Bool.noConfusion hname
  case value_eq =>
    intro ρ i
    have hform : [totalForm names][i] = totalForm names := by simp
    rw [hform]
    simp [totalForm, Matrix.mulVec, dotProduct, Function.comp_def, sub_eq_add_neg]
    rfl

/-- The solutions of `x + y + z = 1` are described by two parameters. -/
theorem solveLinear_describes_solutions_plane :
    let solved := (totalAttempt ["x", "y", "z"]).solveLinear {} {} [] [totalForm ["x", "y", "z"]]
    solved.symbols = ["t1", "t2"] ∧ ∃ terms c B, Linear.IsParametrization
      {x : Fin 3 → ℚ | x 0 + x 1 + x 2 = 1} (fun k : Fin 2 => Linear.parameterName (k + 1) 2)
        terms c B := by
  intro solved
  let A : Matrix (Fin 1) (Fin 3) ℚ := Matrix.of fun _ _ => 1
  have hone : A.rank = 1 :=
    LinearIndependent.rank_matrix (linearIndependent_unique_iff.2 fun hzero =>
      one_ne_zero (congrFun hzero 0))
  have hinverts : (Elimination.start (ofRationals (Linear.augmented A fun _ => 1)).rows).InvertsPivots
      ((totalAttempt ["x", "y", "z"]).reduction {} .approximation) 4 :=
    Elimination.invertsPivots_of_holdsAlong rfl (Nat.zero_add 4)
  have hsystem : Linear.IsRationalSystem (totalAttempt ["x", "y", "z"]).unknowns.items
      [totalForm ["x", "y", "z"]] A fun _ => 1 := isRationalSystem_total (by decide)
  have hsolution : A.mulVec ![1, 0, 0] = fun _ => 1 := by decide +kernel
  obtain ⟨-, -, -, -, terms, c, B, -, -, -, hsymbols, -, hdescribes⟩ :=
    solveLinear_describes_solutions {} [] hsystem ⟨_, hsolution⟩ (hone.trans_lt (by decide)) hinverts
  have hdescribed : solved.symbols = Linear.parameterNames (3 - A.rank) 1 (3 - A.rank) ∧
      ∃ terms c B, Linear.IsParametrization {x : Fin 3 → ℚ | A.mulVec x = fun _ => 1}
        (fun k : Fin (3 - A.rank) => Linear.parameterName (k + 1) (3 - A.rank)) terms c B :=
    ⟨hsymbols, terms, c, B, hdescribes⟩
  have hsolutions : {x : Fin 3 → ℚ | A.mulVec x = fun _ => 1} = {x | x 0 + x 1 + x 2 = 1} := by
    ext x
    simp [A, Matrix.mulVec, dotProduct, Fin.sum_univ_three, funext_iff]
  rw [hone, hsolutions] at hdescribed
  refine ⟨hdescribed.1.trans ?_, hdescribed.2⟩
  rfl

end Attempt

end EquationSolver
