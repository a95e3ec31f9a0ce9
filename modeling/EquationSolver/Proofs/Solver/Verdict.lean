import EquationSolver.Proofs.Reduction.Canonical
import EquationSolver.Proofs.Solver.Reading
import EquationSolver.Proofs.Solver.Listing

/-!
# The verdict on a linear system

What an exact solve reports of a system of affine equations is right where elimination decides
which entries are zero: without solutions the system is inconsistent, or the values of its only
solution are not shown as real; with solutions it has one, and they show its values; and when there
is more to come it has infinitely many.
-/

namespace EquationSolver

open Reduction (Settings DrawsRoots)
open SymbolicMatrix
open Solution (listed?)

variable {preferences : Preferences} {settings : SolverSettings}

/-! ### What is reported -/

namespace Attempt

/-- Elimination decides which entries of the augmented matrix of standard forms are zero, as far
    as the answer depends on it, whatever the symbols stand for. -/
def DecidesZeros (preferences : Preferences) (attempt : Attempt Term) (names : List String)
    (forms : List Term) : Prop :=
  ∀ rows ρ, (Linear.augmentedRows (attempt.reduction preferences .analysis) names forms).value =
    some rows → Linear.IsDecided (.real ρ) (attempt.reduction preferences .approximation)
      names.length ⟨rows, names.length + 1⟩

/-- The values of the unknowns are the numbers of a point, and so are the exact forms that are
    shown of them. -/
structure ShowsPoint (preferences : Preferences) (settings : SolverSettings)
    (attempt : Attempt Term) (values : List Term) (point : List ℝ) : Prop where
  haveValues : Linear.HaveValues values point
  dropped_iff : ∀ t ∈ values, attempt.listedValue? preferences settings [] false t = none ↔
    attempt.DropsValue preferences [] false t
  exact_denotes : ∀ t ∈ values, ∀ solution layout,
    attempt.listedValue? preferences settings [] false t = some solution →
      solution.exact = some layout →
        ∀ ρ, (Valuation.real ρ).Denotes layout.node ((Valuation.real ρ).value t)

variable {attempt base found : Attempt Term} {values : List Term} {point : List ℝ}

theorem Lists.showsPoint (h : attempt.Lists preferences settings [] false values found)
    (hvalues : Linear.HaveValues values point) :
    attempt.ShowsPoint preferences settings values point where
  haveValues := hvalues
  dropped_iff := h.dropped_iff
  exact_denotes := by
    intro t ht solution layout hlisted hexact ρ
    obtain ⟨v, -, hdenotes⟩ := exists_of_mem_forall₂ hvalues.flip ht
    have hreduced := Reduction.denotes_reduceKept
      (s := (attempt.reduction preferences .user).forDisplay)
      (Reduction.drawsRoots_real rfl ρ) t (hdenotes ρ).hasValue
    rw [← Reduction.reduce_nil] at hreduced
    rwa [Solution.node_of_exact SolutionType.noConfusion hlisted hexact]

/-- What is shown depends on the settings only. -/
theorem ShowsPoint.of_reduction_eq (h : attempt.ShowsPoint preferences settings values point)
    (hsame : attempt.reduction preferences = base.reduction preferences) :
    base.ShowsPoint preferences settings values point := by
  have hshowing := showing_congr hsame false
  obtain ⟨hvalues, hdropped, hexact⟩ := h
  unfold listedValue? DropsValue at hdropped
  unfold listedValue? at hexact
  rw [hshowing] at hdropped hexact
  exact ⟨hvalues, hdropped, hexact⟩

/-- What is reported of a system is right if the answer is. -/
theorem Reports.isRight {answer : LinearAnswer} {solutions : Set (List ℝ)}
    (h : attempt.Reports preferences settings [] answer found)
    (hright : Linear.IsRight solutions answer)
    (hsame : attempt.reduction preferences = base.reduction preferences) :
    (found.hasMore = false → found.registry.solutions = [] → solutions = ∅ ∨
      ∃ values point, solutions = {point} ∧ base.ShowsPoint preferences settings values point ∧
        ∀ t ∈ values, base.DropsValue preferences [] false t) ∧
    (found.hasMore = false → found.registry.solutions ≠ [] →
      ∃ values point, solutions = {point} ∧ base.ShowsPoint preferences settings values point ∧
        found.registry.solutions =
          values.filterMap (base.listedValue? preferences settings [] false)) ∧
    (found.hasMore = true → solutions.Infinite) := by
  cases h with
  | inconsistent hmore hnone =>
    exact ⟨fun _ _ => .inl hright, fun _ hsome => absurd hnone hsome,
      fun htrue => nomatch hmore.symm.trans htrue⟩
  | parametric hlists =>
    have hmore (hfalse : found.hasMore = false) : False :=
      Bool.noConfusion (hlists.hasMore_eq.symm.trans hfalse)
    exact ⟨fun hfalse => (hmore hfalse).elim, fun hfalse => (hmore hfalse).elim, fun _ => hright⟩
  | unique hlists =>
    rename_i values
    obtain ⟨point, hpoint, hvalues⟩ := hright
    have hshows := (hlists.showsPoint hvalues).of_reduction_eq hsame
    have hlisted : found.registry.solutions =
        values.filterMap (base.listedValue? preferences settings [] false) := by
      rw [hlists.solutions_eq]
      unfold listedValue?
      rw [showing_congr hsame]
    refine ⟨fun _ hnone => .inr ⟨values, point, hpoint, hshows, fun t ht => ?_⟩,
      fun _ _ => ⟨values, point, hpoint, hshows, hlisted⟩,
      fun htrue => nomatch hlists.hasMore_eq.symm.trans htrue⟩
    exact (hshows.dropped_iff t ht).1 (List.filterMap_eq_nil_iff.1 (hlisted.symm.trans hnone) t ht)

end Attempt

/-! ### A pass -/

/-- Where both sides of an equation have values, its standard form has their difference. -/
theorem standardForm_denotes {s : Settings} (hlimit : s.limits.maxExponentBits = 4096)
    {ρ : String → ℝ} {left right : Term} (hleft : (Valuation.real ρ).HasValue left)
    (hright : (Valuation.real ρ).HasValue right) :
    (Valuation.real ρ).Denotes (standardForm s [] left right).value
      ((Valuation.real ρ).value left - (Valuation.real ρ).value right) := by
  have hdifference : (Valuation.real ρ).HasValue (Term.sumOf [left, .negation right]) := by
    refine (Valuation.Denotes.sumOf fun t ht => ?_).hasValue
    rcases List.mem_pair.1 ht with rfl | rfl
    · exact hleft
    · simpa [Valuation.HasValue] using hright
  rw [standardForm_nil]
  refine (Reduction.denotes_reduceKept (Reduction.drawsRoots_real hlimit ρ) _ hdifference).congr ?_
  simp [Term.sumOf, Valuation.value, sub_eq_add_neg]

/-- The standard forms say of the unknowns what the equations say. -/
theorem Attempt.standardForms_eq_zero_iff (base : Attempt Term) {sides : List (Term × Term)}
    {ρ : String → ℝ}
    (hvalues : ∀ p ∈ sides, (Valuation.real ρ).HasValue p.1 ∧ (Valuation.real ρ).HasValue p.2) :
    (∀ form ∈ base.standardForms preferences sides, (Valuation.real ρ).value form = 0) ↔
      ∀ p ∈ sides, (Valuation.real ρ).value p.1 = (Valuation.real ρ).value p.2 := by
  unfold Attempt.standardForms
  rw [List.forall_mem_map]
  refine forall₂_congr fun p hp => ?_
  have hlimit : (base.reduction preferences .analysis).limits.maxExponentBits = 4096 := rfl
  rw [(standardForm_denotes hlimit (hvalues p hp).1 (hvalues p hp).2).value_eq, sub_eq_zero]

/-- A pass that solves an affine system of equations reports a right answer. -/
theorem Attempted.exists_isRight_of_ofSides {keepsDefined : Bool} {sides : List (Term × Term)}
    {forms : List Term} {found : Attempted Term}
    (hpass : ofSides preferences settings keepsDefined [] sides = .ok found)
    (hsolved : found.result = .ok .solved)
    (hforms : forms = (Attempt.initial preferences keepsDefined).standardForms preferences sides)
    (hunknowns : found.attempt.unknowns.items ≠ [])
    (haffine : ∀ form ∈ forms, form.IsAffine)
    (hdecides : (Attempt.initial preferences keepsDefined).DecidesZeros preferences
      found.attempt.unknowns.items forms) :
    found.attempt.kind = some .linear ∧
    ∃ (attempt : Attempt Term) (answer : LinearAnswer),
      attempt.reduction preferences =
        (Attempt.initial preferences keepsDefined).reduction preferences ∧
      attempt.Reports preferences settings [] answer found.attempt ∧
      Linear.IsRight (solutionSet found.attempt.unknowns.items forms) answer := by
  unfold ofSides at hpass
  split at hpass
  case h_1 hread =>
    cases hpass
    cases hsolved
  case h_2 attempt forms' hread =>
    have hreads := Attempt.readsReal_of_readSides (ρ := fun _ => 0)
      (fun form hform => (haffine form (hforms ▸ hform)).hasValue _) hread
    obtain rfl : forms' = forms := hreads.forms_eq.trans hforms.symm
    have hsame := Attempt.ensures_solveForms_sameReading attempt forms' found hpass
    have hnames : attempt.unknowns.items = found.attempt.unknowns.items :=
      congrArg VariableSet.items hsame.unknowns.symm
    rw [← hnames] at hunknowns hdecides ⊢
    have hreduction : attempt.reduction preferences =
        (Attempt.initial preferences keepsDefined).reduction preferences :=
      Attempt.reduction_congr hreads.keepsDefined hreads.complexFormat
    obtain ⟨rows, hrows⟩ := Linear.exists_augmentedRows
      (attempt.reduction preferences .analysis) haffine hreads.mentions
    have hnonempty : rows ≠ [] := by
      rintro rfl
      have hlength := (Linear.hasWidth_augmentedRows hrows).2
      exact hunknowns (by rw [hreads.unknowns_eq (List.eq_nil_of_length_eq_zero hlength.symm)]; rfl)
    obtain ⟨hkind, hanswered⟩ := Attempt.ensures_solveForms_of_rows
      (hreads.isReady (Attempt.isReady_initial preferences keepsDefined)) hrows
      (fun hnil => absurd hnil hnonempty) found hpass
    obtain ⟨answer, hanswer, hreports⟩ := hanswered hsolved
    rw [Attempt.DecidesZeros, ← hreduction] at hdecides
    have hsystem : Linear.IsAffineSystem (attempt.reduction preferences .analysis)
        (attempt.reduction preferences .approximation) attempt.unknowns.items forms' rows :=
      { limit := rfl
        limit' := rfl
        names_ne_nil := hunknowns
        rows_ne_nil := hnonempty
        nodup := hreads.nodup List.nodup_nil
        affine := haffine
        mentions := hreads.mentions
        rows_eq := hrows
        isDecided := fun ρ => hdecides rows ρ hrows }
    exact ⟨hkind, attempt, answer, hreduction, hreports, hanswer.isRight hsystem⟩

/-! ### Exact solving -/

namespace EquationSystem

/-- The verdict on a linear system is right where elimination decides which entries are zero.  The
    system is that of the standard forms, which say of the unknowns what the equations say where
    their sides have values.  It is inconsistent when no solution is reported and there is none to
    come, unless the values of its only solution are all passed over as not real.  It has one
    solution when solutions are reported and there is none to come, and these are its values, as
    far as they are not passed over, with exact forms that denote them.  And it has infinitely many
    when there are more to come. -/
theorem exactSolve_verdict (system : EquationSystem) (preferences : Preferences)
    (store : EquationStore) (context : Context) {solved : EquationSystem} {left : Context}
    {sides : List (Term × Term)} {base : Attempt Term} {forms : List Term}
    (hdefinitions : context.definitions = [])
    (hsides : store.HasSides context.pool sides)
    (hsolve : system.exactSolve preferences store context = .ok (solved, left))
    (hresult : solved.lastResult = some (.ok .solved))
    (hbase : base = .initial preferences solved.attempt.keepsDefined)
    (hforms : forms = base.standardForms preferences sides)
    (hunknowns : solved.attempt.unknowns.items ≠ [])
    (haffine : ∀ form ∈ forms, form.IsAffine)
    (hdecides : base.DecidesZeros preferences solved.attempt.unknowns.items forms) :
    (∀ ρ, (∀ p ∈ sides, (Valuation.real ρ).HasValue p.1 ∧ (Valuation.real ρ).HasValue p.2) →
      ((∀ form ∈ forms, (Valuation.real ρ).value form = 0) ↔
        ∀ p ∈ sides, (Valuation.real ρ).value p.1 = (Valuation.real ρ).value p.2)) ∧
    solved.attempt.kind = some .linear ∧
    (solved.attempt.hasMore = false → solved.attempt.registry.solutions = [] →
      solutionSet solved.attempt.unknowns.items forms = ∅ ∨
      ∃ values point, solutionSet solved.attempt.unknowns.items forms = {point} ∧
        base.ShowsPoint preferences system.settings values point ∧
        ∀ t ∈ values, base.DropsValue preferences [] false t) ∧
    (solved.attempt.hasMore = false → solved.attempt.registry.solutions ≠ [] →
      ∃ values point, solutionSet solved.attempt.unknowns.items forms = {point} ∧
        base.ShowsPoint preferences system.settings values point ∧
        solved.attempt.registry.solutions =
          (values.filterMap (base.listedValue? preferences system.settings [] false)).map
            (Solution.map left.pool.handleOf)) ∧
    (solved.attempt.hasMore = true →
      (solutionSet solved.attempt.unknowns.items forms).Infinite) := by
  obtain ⟨keepsDefined, found, after, hpass, hkeeps, rfl, hleft⟩ :=
    exists_pass_of_sides hsides hdefinitions hsolve
  obtain rfl : base = .initial preferences keepsDefined := hkeeps ▸ hbase
  obtain ⟨hkind, attempt, answer, hreduction, hreports, hright⟩ :=
    Attempted.exists_isRight_of_ofSides hpass (Option.some.inj hresult) hforms hunknowns haffine
      hdecides
  obtain ⟨hnone, hone, hmany⟩ := hreports.isRight hright hreduction
  refine ⟨fun ρ hvalues => hforms ▸ Attempt.standardForms_eq_zero_iff _ hvalues, hkind,
    fun hmore hempty => hnone hmore (List.map_eq_nil_iff.1 hempty), fun hmore hlisted => ?_, hmany⟩
  have hfound : found.attempt.registry.solutions ≠ [] := fun hempty => hlisted (by
    show found.attempt.registry.solutions.map _ = []
    rw [hempty, List.map_nil])
  obtain rfl := hleft hfound
  obtain ⟨values, point, hpoint, hshows, hsolutions⟩ := hone hmore hfound
  exact ⟨values, point, hpoint, hshows, congrArg (List.map _) hsolutions⟩

end EquationSystem

/-! ### A solution that is found -/

/-- A root of two whose index is beyond those that are drawn. -/
def highRoot : Term := .power (.number 2) (.number (1 / 65))

/-- The sides of `2^(1/65)*x = 3*2^(1/65)`, with their parts. -/
def scaledSides : List Term :=
  [.number 2, .number (1 / 65), highRoot, .symbol "x", .product [highRoot, .symbol "x"],
    .number 3, .product [.number 3, highRoot]]

def scaledEquations : List (Term × Term) :=
  [(.product [highRoot, .symbol "x"], .product [.number 3, highRoot])]

def scaledForms : List Term :=
  [.sum [.product [highRoot, .symbol "x"], .product [.number (-3), highRoot]]]

def scaledAttempt (keepsDefined : Bool) : Attempt Term :=
  { Attempt.initial {} keepsDefined with unknowns := ⟨["x"], 6⟩ }

section Scaled

variable (keepsDefined : Bool)

theorem standardForm_scaled (symbols : SymbolPolicy) :
    (standardForm { (Attempt.initial {} keepsDefined).reduction {} .analysis with symbols } []
      (.product [highRoot, .symbol "x"]) (.product [.number 3, highRoot])).value =
        scaledForms[0] := by
  rw [standardForm_nil]
  cases keepsDefined <;> cases symbols <;> decide +kernel

theorem readSides_scaled :
    (Attempt.initial {} keepsDefined).readSides {} [] scaledEquations =
      (scaledAttempt keepsDefined, .ok scaledForms) := by
  have hread : ((Attempt.initial {} keepsDefined).readEquation {} []
      (.product [highRoot, .symbol "x"]) (.product [.number 3, highRoot])).value =
        (scaledAttempt keepsDefined, .ok scaledForms[0]) :=
    (Attempt.value_readEquation_nil _ scaledForms[0] (standardForm_scaled keepsDefined)).trans rfl
  exact Attempt.readSides_singleton hread

def scaledMatrix : SymbolicMatrix :=
  ⟨[[highRoot, .negation (.product [.number (-3), highRoot])]], 2⟩

theorem findPivot?_scaled (s : Settings) :
    findPivot? s [[highRoot, .product [.number 3, highRoot]]] 0 0 = some 0 :=
  findPivot?_of_only (Term.unknown_ne_yes highRoot s) fun _ h => nomatch h

/-- The augmented row of the form, with its entries reduced and with its pivot made one. -/
theorem rows_scaled :
    (Linear.augmentedRows ((scaledAttempt keepsDefined).reduction {} .analysis) ["x"]
      scaledForms).value = some scaledMatrix.rows ∧
    (scaledMatrix.reduce ((scaledAttempt keepsDefined).reduction {} .approximation) []).value =
      ⟨[[highRoot, .product [.number 3, highRoot]]], 2⟩ ∧
    (eliminateColumn ((scaledAttempt keepsDefined).reduction {} .approximation) 0 0 0
      [[highRoot, .product [.number 3, highRoot]]]).value = [[.number 1, .number 3]] := by
  rw [value_reduce_nil]
  cases keepsDefined <;> decide +kernel

theorem rank_scaled :
    (scaledMatrix.rank ((scaledAttempt keepsDefined).reduction {} .approximation) []).value =
      (⟨[[.number 1, .number 3]], 2⟩, some 1) := by
  obtain ⟨-, hreduce, hcleared⟩ := rows_scaled keepsDefined
  refine value_rank hreduce ?_ rfl rfl
  exact (value_eliminate_of_pivot Nat.one_pos (findPivot?_scaled _) hcleared).trans
    (value_eliminate_of_le le_rfl)

/-- The solution is found. -/
theorem ofSides_scaled : ∃ solution,
      Attempted.ofSides {} {} keepsDefined [] scaledEquations =
        .ok ⟨{ scaledAttempt keepsDefined with
          kind := some .linear, registry := ⟨[solution]⟩ }, .ok .solved⟩ := by
  obtain ⟨solution, hthree⟩ : ∃ solution,
      (Solution.ofTerm? ((scaledAttempt keepsDefined).reduction {} .user) []
        (Attempt.displayPolicy {} {}) .exact (.number 3)).value = .ok (some solution) := by
    cases keepsDefined <;> exact ⟨_, rfl⟩
  have hlisted : [Term.number 3].filterMap
      ((scaledAttempt keepsDefined).listedValue? {} {} [] false) = [solution] :=
    List.filterMap_cons_some (Solution.listed?_of_ok hthree)
  have hrank : (scaledAttempt keepsDefined).HasRank {} [] scaledForms scaledMatrix
      ⟨[[.number 1, .number 3]], 2⟩ 1 :=
    ⟨⟨scaledMatrix.rows, (rows_scaled keepsDefined).1, rfl⟩, rank_scaled keepsDefined⟩
  refine ⟨solution, ?_⟩
  rw [Attempted.ofSides_of_ok (readSides_scaled keepsDefined)]
  have hvalues : Linear.values 1 ⟨[[.number 1, .number 3]], 2⟩ = .ok [.number 3] := rfl
  refine (Attempt.value_solveForms_of_values hrank ?_ Nat.one_pos hvalues ?_
    (by decide : 1 < maxSolutions)).trans ?_
  · cases keepsDefined <;> rfl
  · intro t ht
    obtain rfl := List.mem_singleton.1 ht
    exact ⟨some solution, hthree⟩
  · rw [hlisted]
    rfl

theorem highRoot_denotes (ρ : String → ℝ) :
    (Valuation.real ρ).Denotes highRoot (2 ^ (((1 / 65 : Rat)) : ℝ)) := by
  have htwo := (Valuation.Denotes.number (V := .real ρ) 2).rpow (by norm_num) (1 / 65)
  exact_mod_cast htwo

theorem scaledForm_denotes (ρ : String → ℝ) :
    (Valuation.real ρ).Denotes scaledForms[0] (2 ^ (((1 / 65 : Rat)) : ℝ) * (ρ "x" - 3)) := by
  have hunknown := Valuation.denotes_symbol ρ "x"
  have hroot := highRoot_denotes ρ
  have hne (a : Rat) : Term.number a ≠ highRoot := Term.noConfusion
  constructor
  · simp [scaledForms, hunknown.hasValue, hroot.hasValue, hne]
  · simp [scaledForms, hunknown.value_eq, hroot.value_eq]
    ring

theorem isAffine_scaledForms : ∀ form ∈ scaledForms, form.IsAffine := by
  intro form hform
  obtain rfl := List.mem_singleton.1 hform
  refine ⟨fun ρ => (scaledForm_denotes ρ).hasValue, fun u hu => ?_⟩
  rcases List.mem_pair.1 hu with rfl | rfl
  · exact .inr ⟨"x", rfl⟩
  · exact .inl rfl

theorem mem_solutionSet_scaled : [3] ∈ solutionSet ["x"] scaledForms := by
  refine ⟨fun _ => 3, rfl, fun form hform => ?_⟩
  obtain rfl := List.mem_singleton.1 hform
  have hvalue := (scaledForm_denotes fun _ => 3).value_eq
  rwa [sub_self, mul_zero] at hvalue

/-- The only pivot is not zero. -/
theorem decidesZeros_scaled :
    (Attempt.initial {} keepsDefined).DecidesZeros {} ["x"] scaledForms := by
  obtain ⟨haugmented, hreduce, heliminated⟩ := rows_scaled keepsDefined
  intro rows ρ hrows
  obtain rfl : scaledMatrix.rows = rows := Option.some.inj (haugmented.symm.trans hrows)
  constructor
  · have hreduced : (scaledMatrix.reduce ((Attempt.initial {} keepsDefined).reduction {}
        .approximation) []).value = _ := hreduce
    show (Elimination.start (scaledMatrix.reduce _ _).value.rows).TakesNonzeroPivots _ _ 2
    rw [hreduced]
    refine .of_pivot (findPivot?_scaled _) rfl ?_ (.of_finished ?_)
    · show (Valuation.real ρ).value highRoot ≠ 0
      rw [(highRoot_denotes ρ).value_eq]
      positivity
    · exact (congrArg List.length heliminated).le
  · intro row hrow hcoefficients
    have hrow : row ∈ [[Term.number 1, .number 3]] :=
      (congrArg (row ∈ ·.1.rows) (rank_scaled keepsDefined)).mp hrow
    obtain rfl := List.mem_singleton.1 hrow
    have hone : ((1 : Rat) : ℝ) = 0 := hcoefficients 0 Nat.one_pos
    norm_num at hone

end Scaled

namespace EquationSystem

/-- The only solution of `2^(1/65)*x = 3*2^(1/65)` is found, although it is not decided that the
    root is not zero. -/
theorem exactSolve_verdict_scaled :
    let context := Context.ofTerms scaledSides []
    ∃ solved left,
      (unsolved {} {}).exactSolve {} (EquationStore.ofSides context.pool scaledEquations) context =
        .ok (solved, left) ∧
      solved.attempt.hasMore = false ∧ solved.attempt.registry.solutions ≠ [] ∧
      solutionSet ["x"] scaledForms = {[3]} := by
  intro context
  obtain ⟨solution, hfirst⟩ := ofSides_scaled false
  obtain ⟨other, hsecond⟩ := ofSides_scaled true
  have hchildren : ∀ (i : Nat) (hi : i < scaledSides.length),
      ∀ u ∈ scaledSides[i].children, u ∈ scaledSides.take i := by
    rintro i (hi : i < 7)
    interval_cases i <;> simp [scaledSides, highRoot, Term.children]
  have hlisted : ∀ p ∈ scaledEquations, p.1 ∈ scaledSides ∧ p.2 ∈ scaledSides := by
    simp [scaledEquations, scaledSides]
  obtain ⟨context₁, context₂, hpasses⟩ := runsPasses_of_sides scaledSides hchildren (by decide)
    hlisted hfirst hsecond
  obtain ⟨solved, left, hsolve, hstands, -⟩ := exactSolve_of_runsPasses (unsolved {} {}) hpasses
  obtain rfl := hstands ⟨rfl, .inl (List.cons_ne_nil _ _)⟩
  have hsides : (EquationStore.ofSides context.pool scaledEquations).HasSides context.pool
      scaledEquations :=
    @EquationStore.hasSides_ofSides scaledSides [] hchildren _ hlisted
  have hforms : scaledForms = (Attempt.initial {} false).standardForms {} scaledEquations :=
    congrArg (fun form => [form]) (standardForm_scaled false (.ofOverride false)).symm
  obtain ⟨-, -, -, hone, -⟩ := exactSolve_verdict (unsolved {} {}) {}
    (EquationStore.ofSides context.pool scaledEquations) context rfl hsides hsolve rfl rfl hforms
    (List.cons_ne_nil _ _) isAffine_scaledForms (decidesZeros_scaled false)
  obtain ⟨values, point, hpoint, -⟩ := hone rfl (List.cons_ne_nil _ _)
  refine ⟨_, left, hsolve, rfl, List.cons_ne_nil _ _, ?_⟩
  have hpoint : solutionSet ["x"] scaledForms = {point} := hpoint
  have hmem : [3] ∈ ({point} : Set (List ℝ)) := hpoint ▸ mem_solutionSet_scaled
  rwa [← Set.mem_singleton_iff.1 hmem] at hpoint

end EquationSystem

/-! ### A solution that is missed -/

/-- The square root of two. -/
def sqrtTwo : Term := .power (.number 2) (.number (1 / 2))

/-- The square root of `3 + 2√2`, which is `√2 + 1`. -/
def nestedRoot : Term := .power (.sum [.product [.number 2, sqrtTwo], .number 3]) (.number (1 / 2))

/-- The square root of two is in standard form, whether it fits the limits or not. -/
theorem isCanonical_sqrtTwo (s : Settings) : Reduction.IsCanonical s sqrtTwo := by
  have hdrawn : Reduction.LeavesRational s 2 (1 / 2) :=
    .root (m := 2) (k := 2) rfl rfl le_rfl le_rfl (splitPower_prime Nat.prime_two le_rfl)
      (Reduction.lowerIndex_prime Nat.prime_two 2)
  refine .of_parts (.number (by norm_num) (by norm_num) (by norm_num) (by norm_num) hdrawn) ?_
  exact List.forall_mem_cons.2
    ⟨.of_isAtom rfl trivial, List.forall_mem_singleton.2 (.of_isAtom rfl trivial)⟩

theorem reduceKept_sqrtTwo (s : Settings) : (Reduction.reduceKept s sqrtTwo).value = sqrtTwo :=
  Reduction.reduceKept_of_isCanonical _ (isCanonical_sqrtTwo s)

/-- The settings under which the equations of the example are read and solved. -/
def exampleSettings (keepsDefined : Bool) (target : ReductionTarget) (symbols : SymbolPolicy) :
    Settings :=
  { (Attempt.initial {} keepsDefined).reduction {} target with symbols }

section Nested

variable (keepsDefined : Bool) (target : ReductionTarget) (symbols : SymbolPolicy)

theorem reduceKept_nestedRoot :
    (Reduction.reduceKept (exampleSettings keepsDefined target symbols) nestedRoot).value =
      nestedRoot := by
  have hroot : (Reduction.reduceKept (exampleSettings keepsDefined target symbols) sqrtTwo).value =
    sqrtTwo := reduceKept_sqrtTwo _
  simp only [nestedRoot, Reduction.reduceKept, Reduction.reduceKeptAll, Build.value_bind,
    Build.value_pure, hroot]
  cases keepsDefined <;> cases target <;> cases symbols <;> decide +kernel

def nestedForms : List Term :=
  [.sum [.symbol "x", .product [.number (-1), nestedRoot]],
    .sum [.symbol "x", .product [.number (-1), sqrtTwo], .number (-1)]]

/-- The sides of `x = √(3+2√2)` and `x = √2+1`, with their parts. -/
def nestedSides : List Term :=
  [.symbol "x", .number 2, .number (1 / 2), sqrtTwo, .product [.number 2, sqrtTwo], .number 3,
    .sum [.product [.number 2, sqrtTwo], .number 3], nestedRoot, .number 1,
    .sum [sqrtTwo, .number 1]]

def nestedEquations : List (Term × Term) :=
  [(.symbol "x", nestedRoot), (.symbol "x", .sum [sqrtTwo, .number 1])]

theorem standardForm_nested :
    (standardForm (exampleSettings keepsDefined .analysis symbols) [] (.symbol "x")
      nestedRoot).value = nestedForms[0] ∧
    (standardForm (exampleSettings keepsDefined .analysis symbols) [] (.symbol "x")
      (.sum [sqrtTwo, .number 1])).value = nestedForms[1] := by
  have hroot : (Reduction.reduceKept (exampleSettings keepsDefined .analysis symbols)
    sqrtTwo).value = sqrtTwo := reduceKept_sqrtTwo _
  rw [standardForm_nil, standardForm_nil]
  simp only [Term.sumOf, Reduction.reduceKept, Reduction.reduceKeptAll, Build.value_bind,
    Build.value_pure, hroot, reduceKept_nestedRoot]
  cases keepsDefined <;> cases symbols <;> decide +kernel

def nestedAttempt : Attempt Term :=
  { Attempt.initial {} keepsDefined with unknowns := ⟨["x"], 6⟩ }

theorem readSides_nested :
    (Attempt.initial {} keepsDefined).readSides {} [] nestedEquations =
      (nestedAttempt keepsDefined, .ok nestedForms) := by
  have hfirst : ((Attempt.initial {} keepsDefined).readEquation {} [] (.symbol "x")
      nestedRoot).value = (nestedAttempt keepsDefined, .ok nestedForms[0]) := by
    refine (Attempt.value_readEquation_nil _ nestedForms[0] fun symbols =>
      (standardForm_nested keepsDefined symbols).1).trans ?_
    rfl
  have hsecond : ((nestedAttempt keepsDefined).readEquation {} [] (.symbol "x")
      (.sum [sqrtTwo, .number 1])).value = (nestedAttempt keepsDefined, .ok nestedForms[1]) := by
    refine (Attempt.value_readEquation_nil (nestedAttempt keepsDefined) nestedForms[1]
      fun symbols => (standardForm_nested keepsDefined symbols).2).trans ?_
    rfl
  exact Attempt.readSides_pair hfirst hsecond

def nestedMatrix : SymbolicMatrix :=
  ⟨[[.number 1, .negation (.product [.number (-1), nestedRoot])],
    [.number 1, .negation (.sum [.product [.number (-1), sqrtTwo], .number (-1)])]], 2⟩

/-- The difference of the two values of `x`, which is zero. -/
def undecidedDifference : Term :=
  .sum [.product [.number (-1), .sum [.product [.number (-1), sqrtTwo], .number (-1)]],
    .product [.number (-1), nestedRoot]]

/-- The rows with their entries reduced, and with the first column cleared. -/
def nestedRows : List (List Term) :=
  [[.number 1, nestedRoot],
    [.number 1, .product [.number (-1), .sum [.product [.number (-1), sqrtTwo], .number (-1)]]]]

def clearedRows : List (List Term) :=
  [[.number 1, nestedRoot], [.number 0, undecidedDifference]]

/-- What is worked out about the rows without deciding whether a root is zero. -/
theorem rows_nested :
    (Linear.augmentedRows ((nestedAttempt keepsDefined).reduction {} .analysis) ["x"]
      nestedForms).value = some nestedMatrix.rows ∧
    (nestedMatrix.reduce ((nestedAttempt keepsDefined).reduction {} .approximation) []).value =
      ⟨nestedRows, 2⟩ ∧
    findPivot? ((nestedAttempt keepsDefined).reduction {} .approximation) nestedRows 0 0 = some 0 ∧
    (eliminateColumn ((nestedAttempt keepsDefined).reduction {} .approximation) 0 0 0
      nestedRows).value = clearedRows ∧
    pivotRowOf ((nestedAttempt keepsDefined).reduction {} .approximation) 1 1 1 clearedRows =
      [.number 0, .number 1] ∧
    (Reduction.add [nestedRoot, (Reduction.mul
      ((nestedAttempt keepsDefined).reduction {} .approximation) [(Reduction.mul
        ((nestedAttempt keepsDefined).reduction {} .approximation) [.number (-1), nestedRoot]).value,
          .number 1]).value]).value = .number 0 := by
  rw [value_reduce_nil]
  cases keepsDefined <;> decide +kernel

/-- The difference of the two values is taken for a pivot. -/
theorem rank_nested :
    (nestedMatrix.rank ((nestedAttempt keepsDefined).reduction {} .approximation) []).value =
      (⟨[[.number 1, .number 0], [.number 0, .number 1]], 2⟩, some 2) := by
  obtain ⟨-, hreduce, hfirst, hcleared, hpivotRow, hdifference⟩ := rows_nested keepsDefined
  have hsecond : findPivot? ((nestedAttempt keepsDefined).reduction {} .approximation)
      clearedRows 1 1 = some 1 := by
    have hundecided : (entryAt [.number 0, undecidedDifference] 1).nullity
        ((nestedAttempt keepsDefined).reduction {} .approximation) ≠ .yes :=
      Term.unknown_ne_yes undecidedDifference _
    rw [findPivot?_drop]
    exact congrArg (Option.map (1 + ·)) (findPivot?_of_only hundecided (by simp))
  have hclear : (clearRow ((nestedAttempt keepsDefined).reduction {} .approximation) 1
      [.number 0, .number 1] [.number 1, nestedRoot]).value = [.number 1, .number 0] := by
    have hne : (entryAt [.number 1, nestedRoot] 1).nullity
        ((nestedAttempt keepsDefined).reduction {} .approximation) ≠ .yes :=
      Term.unknown_ne_yes nestedRoot _
    rw [value_clearRow_of_ne_yes hne]
    exact congrArg (fun entry => [.number 1, entry]) hdifference
  have hlast : (eliminateColumn ((nestedAttempt keepsDefined).reduction {} .approximation) 1 1 1
      clearedRows).value = [[.number 1, .number 0], [.number 0, .number 1]] := by
    rw [value_eliminateColumn, hpivotRow]
    show (clearRow _ 1 [.number 0, .number 1] [.number 1, nestedRoot]).value :: _ = _
    rw [hclear]
    rfl
  refine value_rank hreduce ?_ rfl rfl
  exact (value_eliminate_of_pivot Nat.two_pos hfirst hcleared).trans
    ((value_eliminate_of_pivot Nat.one_lt_two hsecond hlast).trans (value_eliminate_of_le le_rfl))

/-- No solution is found. -/
theorem ofSides_nested :
    Attempted.ofSides {} {} keepsDefined [] nestedEquations =
      .ok ⟨{ nestedAttempt keepsDefined with kind := some .linear }, .ok .solved⟩ := by
  have hrank : (nestedAttempt keepsDefined).HasRank {} [] nestedForms nestedMatrix
      ⟨[[.number 1, .number 0], [.number 0, .number 1]], 2⟩ 2 := by
    exact ⟨⟨nestedMatrix.rows, (rows_nested keepsDefined).1, rfl⟩, rank_nested keepsDefined⟩
  rw [Attempted.ofSides_of_ok (readSides_nested keepsDefined)]
  refine (Attempt.value_solveForms_of_contradiction hrank ?_).trans rfl
  cases keepsDefined <;> rfl

end Nested

theorem sqrtTwo_denotes (ρ : String → ℝ) : (Valuation.real ρ).Denotes sqrtTwo √2 := by
  refine ((Valuation.Denotes.number (V := .real ρ) 2).rpow (by norm_num) (1 / 2)).congr ?_
  rw [Real.sqrt_eq_rpow]
  norm_num

theorem nestedRoot_denotes (ρ : String → ℝ) : (Valuation.real ρ).Denotes nestedRoot (√2 + 1) := by
  obtain ⟨hroot, hvalue⟩ := sqrtTwo_denotes ρ
  have hinner : (Valuation.real ρ).Denotes (.sum [.product [.number 2, sqrtTwo], .number 3])
      ((√2 + 1) ^ 2) := by
    constructor
    · have hne : Term.number 0 ≠ sqrtTwo := Term.noConfusion
      simp [hroot, hne]
    · have hsquare := Real.sq_sqrt (zero_le_two : (0 : ℝ) ≤ 2)
      simp [hvalue]
      linarith
  refine (hinner.rpow (by positivity) (1 / 2)).congr ?_
  have hhalf : (((1 / 2 : Rat)) : ℝ) = 1 / 2 := by norm_num
  rw [hhalf, ← Real.sqrt_eq_rpow, Real.sqrt_sq (by positivity)]

theorem nestedForms_denote (ρ : String → ℝ) :
    (Valuation.real ρ).Denotes (.sum [.symbol "x", .product [.number (-1), nestedRoot]])
      (ρ "x" - (√2 + 1)) ∧
    (Valuation.real ρ).Denotes
      (.sum [.symbol "x", .product [.number (-1), sqrtTwo], .number (-1)])
      (ρ "x" - (√2 + 1)) := by
  have hunknown := Valuation.denotes_symbol ρ "x"
  have hnested := (nestedRoot_denotes ρ).opposite Term.noConfusion
  have hroot := (sqrtTwo_denotes ρ).opposite Term.noConfusion
  constructor
  · constructor
    · simp only [Valuation.hasValue_sum, List.forall_mem_cons]
      exact ⟨hunknown.hasValue, hnested.hasValue, by simp⟩
    · simp only [Valuation.value_sum, List.map_cons, List.map_nil, List.sum_cons, List.sum_nil,
        hunknown.value_eq, hnested.value_eq]
      ring
  · constructor
    · simp only [Valuation.hasValue_sum, List.forall_mem_cons]
      exact ⟨hunknown.hasValue, hroot.hasValue, Valuation.hasValue_number _, by simp⟩
    · simp only [Valuation.value_sum, List.map_cons, List.map_nil, List.sum_cons, List.sum_nil,
        hunknown.value_eq, hroot.value_eq, Valuation.value_number]
      push_cast
      ring

theorem isAffine_nestedForms : ∀ form ∈ nestedForms, form.IsAffine := by
  intro form hform
  rcases List.mem_pair.1 hform with rfl | rfl
  · refine ⟨fun ρ => (nestedForms_denote ρ).1.hasValue, fun u hu => ?_⟩
    rcases List.mem_pair.1 hu with rfl | rfl
    · exact .inr ⟨"x", rfl⟩
    · exact .inl rfl
  · refine ⟨fun ρ => (nestedForms_denote ρ).2.hasValue, fun u hu => ?_⟩
    simp only [Reduction.summands, List.mem_cons, List.not_mem_nil, or_false] at hu
    rcases hu with rfl | rfl | rfl
    · exact .inr ⟨"x", rfl⟩
    · exact .inl rfl
    · exact .inl rfl

/-- Both equations say that `x` is `√2 + 1`. -/
theorem mem_solutionSet_nested : [√2 + 1] ∈ solutionSet ["x"] nestedForms := by
  refine ⟨fun _ => √2 + 1, rfl, fun form hform => ?_⟩
  obtain ⟨hfirst, hsecond⟩ := nestedForms_denote fun _ => √2 + 1
  rcases List.mem_pair.1 hform with rfl | rfl
  · exact hfirst.value_eq.trans (sub_self _)
  · exact hsecond.value_eq.trans (sub_self _)

namespace EquationSystem

/-- A solution can be missed: `x = √(3+2√2)` and `x = √2+1` are solved as a linear system without
    solutions, although their only solution is `√2+1`. -/
theorem exactSolve_misses_solution :
    let context := Context.ofTerms nestedSides []
    ∃ solved left,
      (unsolved {} {}).exactSolve {} (EquationStore.ofSides context.pool nestedEquations) context =
        .ok (solved, left) ∧
      solved.lastResult = some (.ok .solved) ∧ solved.attempt.kind = some .linear ∧
      solved.attempt.unknowns.items = ["x"] ∧
      (Attempt.initial {} solved.attempt.keepsDefined).standardForms {} nestedEquations =
        nestedForms ∧
      (∀ form ∈ nestedForms, form.IsAffine) ∧
      solved.attempt.hasMore = false ∧ solved.attempt.registry.solutions = [] ∧
      solutionSet ["x"] nestedForms ≠ ∅ := by
  intro context
  have hchildren : ∀ (i : Nat) (hi : i < nestedSides.length),
      ∀ u ∈ nestedSides[i].children, u ∈ nestedSides.take i := by
    rintro i (hi : i < 10)
    interval_cases i <;> simp [nestedSides, nestedRoot, sqrtTwo, Term.children]
  have hlisted : ∀ p ∈ nestedEquations, p.1 ∈ nestedSides ∧ p.2 ∈ nestedSides := by
    simp [nestedEquations, nestedSides]
  obtain ⟨context₁, context₂, hpasses⟩ := runsPasses_of_sides nestedSides hchildren (by decide)
    hlisted (ofSides_nested false) (ofSides_nested true)
  obtain ⟨solved, left, hsolve, -, hadopts⟩ := exactSolve_of_runsPasses (unsolved {} {}) hpasses
  obtain ⟨rfl, -⟩ := hadopts fun hstands => by
    rcases hstands.2 with hsome | ⟨e, he⟩
    · exact hsome rfl
    · cases he
  refine ⟨_, left, hsolve, rfl, rfl, rfl, ?_, isAffine_nestedForms, rfl, rfl, ?_⟩
  · obtain ⟨hfirst, hsecond⟩ := standardForm_nested true .keepAll
    exact congrArg₂ (fun a b => [a, b]) hfirst hsecond
  · exact Set.nonempty_iff_ne_empty.1 ⟨_, mem_solutionSet_nested⟩

end EquationSystem

end EquationSolver
