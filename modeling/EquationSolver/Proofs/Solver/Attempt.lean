import EquationSolver.Proofs.Polynomial.Roots
import EquationSolver.Proofs.Pool.Interning
import EquationSolver.Proofs.Solver.Capacity

/-!
# Attempts without faults

An attempt starts with an empty registry, and reading the equations leaves it so.  What it
registers afterwards is either a term for each unknown of a linear system or the roots of
one polynomial with the discriminant behind them, for which there is room.
-/

namespace EquationSolver

open Reduction (Settings)

/-! ### The registry -/

namespace Solution

variable {s : Settings} {definitions : Definitions} {policy : DisplayPolicy}
  {type : SolutionType}

/-- The only reason to refuse a solution is that it is undefined. -/
theorem eq_of_ofTerm?_eq_error {t : Term} {e : SolverError}
    (h : (ofTerm? s definitions policy type t).value = .error e) : e = .equationUndefined := by
  unfold ofTerm? at h
  rw [Build.value_bind] at h
  cases hforms : (forms s definitions type t).value with
  | mk exact approximate =>
    rw [hforms] at h
    dsimp only at h
    split at h
    · cases h
    · split_ifs at h with hundefined
      cases h
      rfl

end Solution

namespace SolutionRegistry

variable {registry : SolutionRegistry Term} {s : Settings} {definitions : Definitions}
  {policy : DisplayPolicy} {type : SolutionType}

theorem exists_add (h : registry.solutions.length < maxSolutions - 1)
    (solution : Option (Solution Term)) : ∃ registry', registry.add solution = .ok registry' ∧
      registry'.solutions.length ≤ registry.solutions.length + 1 := by
  cases solution with
  | none => exact ⟨registry, rfl, Nat.le_succ _⟩
  | some solution => exact ⟨_, if_pos h, by simp⟩

theorem yields_addTerm (h : registry.solutions.length < maxSolutions - 1) (t : Term) :
    (registry.addTerm s definitions policy type t).Yields fun added =>
      match added with
      | .error e => e = .equationUndefined
      | .ok registry' => registry'.solutions.length ≤ registry.solutions.length + 1 := by
  unfold addTerm
  apply CheckedBuild.yields_build_bind
  split
  case h_1 e he => exact CheckedBuild.yields_pure (Solution.eq_of_ofTerm?_eq_error he)
  case h_2 solution _ =>
    obtain ⟨registry', hadd, hlength⟩ := exists_add h solution
    exact CheckedBuild.yields_except_bind hadd (CheckedBuild.yields_pure hlength)

/-- Terms for which there is room are registered, up to the first that is undefined. -/
theorem yields_addTerms (terms : List Term)
    (h : registry.solutions.length + terms.length ≤ maxSolutions - 1) :
    (registry.addTerms s definitions policy type terms).Yields fun added =>
      added.1.solutions.length ≤ registry.solutions.length + terms.length ∧
        (added.2 = none ∨ added.2 = some .equationUndefined) := by
  induction terms generalizing registry with
  | nil => exact CheckedBuild.yields_pure ⟨Nat.le_refl _, .inl rfl⟩
  | cons t ts ih =>
    rw [List.length_cons] at h
    unfold addTerms
    refine (yields_addTerm (by omega) t).bind ?_
    intro added _ hadded
    cases added with
    | error e => exact CheckedBuild.yields_pure ⟨Nat.le_add_right _ _, .inr (congrArg some hadded)⟩
    | ok registry' =>
      have hlength : registry'.solutions.length ≤ registry.solutions.length + 1 := hadded
      refine (ih (by omega)).mono ?_
      rintro result ⟨hresult, hrefusal⟩
      refine ⟨?_, hrefusal⟩
      rw [List.length_cons]
      omega

end SolutionRegistry

/-! ### Solving standard forms -/

namespace Attempt

variable (preferences : Preferences) (settings : SolverSettings) (definitions : Definitions)

/-- Terms for which there is room are registered.  A refusal does not mean that the system is
    not linear. -/
theorem yields_registerAll (attempt : Attempt Term) (s : Settings) (type : SolutionType)
    (terms : List Term)
    (h : attempt.registry.solutions.length + terms.length ≤ maxSolutions - 1) :
    (attempt.registerAll preferences settings definitions s type terms).Yields fun found =>
      found.attempt.registry.solutions.length ≤
          attempt.registry.solutions.length + terms.length ∧
        found.result ≠ .error .nonlinearSystem := by
  unfold registerAll
  refine (SolutionRegistry.yields_addTerms terms h).bind ?_
  rintro ⟨registry, refusal⟩ - ⟨hlength, hrefusal⟩
  refine CheckedBuild.yields_pure ⟨hlength, ?_⟩
  rcases hrefusal with hnone | hundefined
  · dsimp only at hnone
    subst hnone
    simp
  · dsimp only at hundefined
    subst hundefined
    simp

/-- An attempt that has read its equations and found no solutions yet. -/
structure IsReady (attempt : Attempt Term) : Prop where
  registry : attempt.registry.solutions = []
  room : attempt.unknowns.HasRoom maxVariables

variable {attempt : Attempt Term}

/-- A linear system is solved without faults. -/
theorem yields_solveRows (hready : attempt.IsReady) {rows : List (List Term)}
    (hwidth : SymbolicMatrix.HasWidth (attempt.unknowns.items.length + 1) rows)
    (hempty : rows = [] → attempt.unknowns.items.length = 0) :
    (attempt.solveRows preferences settings definitions rows).Yields fun found =>
      found.result ≠ .error .nonlinearSystem := by
  have hroom (terms : List Term) (hterms : terms.length ≤ attempt.unknowns.items.length) :
      attempt.registry.solutions.length + terms.length ≤ maxSolutions - 1 := by
    have hunknowns := hready.room.length_le
    rw [hready.registry]
    simp only [List.length_nil, maxSolutions, maxPolynomialDegree, maxApproximateSolutions,
      maxVariables] at hunknowns ⊢
    omega
  unfold solveRows
  refine (Linear.yields_solve hwidth hempty).bind ?_
  intro answer _ hanswer
  cases answer with
  | undefined => exact CheckedBuild.yields_pure (by simp)
  | inconsistent => exact CheckedBuild.yields_pure (by simp)
  | unique values =>
    refine (yields_registerAll preferences settings definitions _ _ _ values ?_).mono
      fun _ hfound => hfound.2
    exact hroom values hanswer
  | unresolved => exact CheckedBuild.yields_pure (by simp)
  | parametric values =>
    refine (yields_registerAll preferences settings definitions _ _ _ values ?_).mono
      fun _ hfound => hfound.2
    exact hroom values hanswer

/-- Trying to solve a system as a linear one comes to no fault, and changes nothing when it is
    not linear. -/
theorem yields_solveLinear (hready : attempt.IsReady) {forms : List Term}
    (hempty : forms = [] → attempt.unknowns.items = []) :
    (attempt.solveLinear preferences settings definitions forms).Yields fun found =>
      found.result = .error .nonlinearSystem → found.attempt = attempt := by
  unfold solveLinear
  apply CheckedBuild.yields_build_bind
  split
  case h_1 => exact CheckedBuild.yields_pure fun _ => rfl
  case h_2 rows hrows =>
    obtain ⟨hwidth, hlength⟩ := Linear.hasWidth_augmentedRows hrows
    refine (yields_solveRows preferences settings definitions hready hwidth ?_).mono
      fun found hfound hresult => absurd hresult hfound
    intro hnil
    have hforms : forms = [] := List.eq_nil_of_length_eq_zero (by rw [← hlength, hnil]; rfl)
    rw [hempty hforms]
    rfl

/-- A polynomial has at most three roots in closed form. -/
theorem length_closedRoots {s : Settings} {unknown : String} {form : Term} {degree : Nat}
    {roots : PolynomialRoots}
    (h : (closedRoots s unknown form).value = some (degree, roots)) : roots.roots.length ≤ 3 := by
  unfold closedRoots at h
  split at h
  · cases h
  · rw [Build.value_bind] at h
    split at h
    · cases h
      exact Nat.le_succ_of_le (Roots.length_ofQuadratic s _ _ _)
    · cases h
      exact Roots.length_ofCubic s _
    · cases h

/-- The roots of a polynomial are registered with its discriminant. -/
theorem yields_registerRoots (hready : attempt.IsReady) {roots : PolynomialRoots}
    (hroots : roots.roots.length ≤ 3) :
    (attempt.registerRoots preferences settings definitions roots).Yields fun _ => True := by
  have hmax : maxSolutions - 1 = 10 := rfl
  have hnil : attempt.registry.solutions.length = 0 := by rw [hready.registry]; rfl
  unfold registerRoots
  refine (yields_registerAll preferences settings definitions attempt _ _ roots.roots
    (by omega)).bind ?_
  rintro found - ⟨hlength, -⟩
  split
  case h_1 => exact CheckedBuild.yields_pure trivial
  case h_2 =>
    apply CheckedBuild.yields_build_bind
    refine (yields_registerAll preferences settings definitions found.attempt _ _ _ ?_).mono
      fun _ _ => trivial
    rw [List.length_singleton]
    omega

theorem yields_solvePolynomial (hready : attempt.IsReady) (unknown : String) (form : Term) :
    (attempt.solvePolynomial preferences settings definitions unknown form).Yields
      fun _ => True := by
  unfold solvePolynomial
  apply CheckedBuild.yields_build_bind
  split
  case h_1 degree roots hroots =>
    refine yields_registerRoots preferences settings definitions ?_ (length_closedRoots hroots)
    exact ⟨hready.registry, hready.room⟩
  case h_2 => exact CheckedBuild.yields_pure trivial

/-- Solving standard forms comes to no fault. -/
theorem yields_solveForms (hready : attempt.IsReady) {forms : List Term}
    (hempty : forms = [] → attempt.unknowns.items = []) :
    (attempt.solveForms preferences settings definitions forms).Yields fun _ => True := by
  unfold solveForms
  refine (yields_solveLinear preferences settings definitions hready hempty).bind ?_
  intro linear _ hlinear
  split
  case h_1 hresult _ _ =>
    rw [hlinear hresult]
    exact yields_solvePolynomial preferences settings definitions hready _ _
  case h_2 => exact CheckedBuild.yields_pure trivial

end Attempt

end EquationSolver
