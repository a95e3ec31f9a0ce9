import EquationSolver.Proofs.Reduction.Memory
import EquationSolver.Proofs.Solver.ExactSolve

/-!
# Which way an attempt takes

Reading an equation comes down to its standard forms, and what is found about the rows of the
augmented matrix decides how an attempt goes on.
-/

namespace EquationSolver

open Reduction (Settings)

theorem standardForm_keepAll {s : Settings} (hs : s.symbols = .keepAll) (definitions : Definitions)
    (left right : Term) :
    (standardForm s definitions left right).value =
      (Reduction.reduceKept s (Term.sumOf [left, .negation right])).value := by
  simp [standardForm, Build.difference, (Reduction.reduce_keepAll hs _ _).1]

theorem standardForm_nil (s : Settings) (left right : Term) :
    (standardForm s [] left right).value =
      (Reduction.reduceKept s (Term.sumOf [left, .negation right])).value := by
  simp [standardForm, Build.difference, Reduction.reduce_nil]

namespace Attempt

variable {preferences : Preferences} {settings : SolverSettings} {definitions : Definitions}

/-- A system that is not linear is left as it was read. -/
theorem value_solveLinear_of_nonlinear {attempt : Attempt Term} {forms : List Term}
    (h : (Linear.augmentedRows (attempt.reduction preferences .analysis) attempt.unknowns.items
      forms).value = none) :
    (attempt.solveLinear preferences settings definitions forms).run.value =
      .ok ⟨attempt, .error .nonlinearSystem⟩ := by
  unfold solveLinear
  rw [CheckedBuild.value_build_bind, h]
  rfl

/-- One equation in one unknown without a closed form is left to a numeric search. -/
theorem value_solveForms_of_general {attempt : Attempt Term} {unknown : String} {form : Term}
    (h : (Linear.augmentedRows (attempt.reduction preferences .analysis) attempt.unknowns.items
      [form]).value = none)
    (hunknown : attempt.unknowns.items = [unknown])
    (hroots : (closedRoots (attempt.reduction preferences .analysis) unknown form).value = none) :
    (attempt.solveForms preferences settings definitions [form]).run.value =
      .ok ⟨{ attempt with kind := some (.general unknown settings.interval) },
        .ok .needsApproximation⟩ := by
  unfold solveForms
  rw [CheckedBuild.value_bind_of_ok (value_solveLinear_of_nonlinear h), hunknown]
  dsimp only
  unfold solvePolynomial
  rw [CheckedBuild.value_build_bind, hroots]
  rfl

/-- Several unknowns are too many for a system that is not linear. -/
theorem value_solveForms_of_nonlinear {attempt : Attempt Term} {forms : List Term}
    (h : (Linear.augmentedRows (attempt.reduction preferences .analysis) attempt.unknowns.items
      forms).value = none)
    (hunknowns : 1 < attempt.unknowns.items.length) :
    (attempt.solveForms preferences settings definitions forms).run.value =
      .ok ⟨attempt, .error .nonlinearSystem⟩ := by
  unfold solveForms
  rw [CheckedBuild.value_bind_of_ok (value_solveLinear_of_nonlinear h)]
  dsimp only
  split
  case h_1 _ hitems =>
    rw [hitems] at hunknowns
    exact absurd hunknowns (Nat.lt_irrefl 1)
  case h_2 => rfl

/-- A contradiction among the rows in echelon form settles that there is no solution. -/
theorem value_solveForms_of_contradiction {attempt : Attempt Term} {forms : List Term}
    {m echelon : SymbolicMatrix} {rank : Nat}
    (h : attempt.HasRank preferences definitions forms m echelon rank)
    (hcontradiction : echelon.rows.any (Linear.isContradiction
      (attempt.reduction preferences .approximation) attempt.unknowns.items.length) = true) :
    (attempt.solveForms preferences settings definitions forms).run.value =
      .ok ⟨{ attempt with kind := some .linear, hasMore := false }, .ok .solved⟩ := by
  obtain ⟨rows, hrows, hm⟩ := h.exists_rows
  have hsolve : (Linear.solve (attempt.reduction preferences) definitions
      attempt.unknowns.items.length rows).run.value = .ok .inconsistent := by
    unfold Linear.solve
    rw [CheckedBuild.value_except_bind hm, CheckedBuild.value_build_bind, h.rank_eq]
    dsimp only
    rw [if_pos hcontradiction]
    rfl
  have hlinear : (attempt.solveLinear preferences settings definitions forms).run.value =
      .ok ⟨{ attempt with kind := some .linear, hasMore := false }, .ok .solved⟩ := by
    unfold solveLinear
    rw [CheckedBuild.value_build_bind, hrows]
    dsimp only
    unfold solveRows
    rw [CheckedBuild.value_bind_of_ok hsolve]
    rfl
  unfold solveForms
  rw [CheckedBuild.value_bind_of_ok hlinear]
  rfl

/-- What reading an equation comes to, by its standard forms with defined symbols kept and
    replaced. -/
theorem value_readEquation (attempt : Attempt Term) (left right : Term) :
    (readEquation preferences definitions attempt left right).value =
      addForm
        { attempt with
          userVariables :=
            (VariableSet.collect (fun name => (definitions.lookup name).isSome)
              attempt.userVariables
              (standardForm { attempt.reduction preferences .analysis with symbols := .keepAll }
                definitions left right).value).1 }
        (if attempt.keepsDefined then
          (standardForm { attempt.reduction preferences .analysis with symbols := .keepAll }
            definitions left right).value
        else
          (standardForm (attempt.reduction preferences .analysis) definitions left right).value) := by
  unfold readEquation
  cases hkeeps : attempt.keepsDefined <;> simp

/-- Without definitions, reading an equation comes down to one standard form. -/
theorem value_readEquation_nil (attempt : Attempt Term) {left right : Term} (form : Term)
    (h : ∀ symbols, (standardForm { attempt.reduction preferences .analysis with symbols } []
      left right).value = form) :
    (readEquation preferences [] attempt left right).value =
      addForm
        { attempt with
          userVariables :=
            (VariableSet.collect (fun _ => false) attempt.userVariables form).1 } form := by
  have hform : (standardForm (attempt.reduction preferences .analysis) [] left right).value = form :=
    h (attempt.reduction preferences .analysis).symbols
  rw [value_readEquation, h .keepAll, hform, ite_self]
  rfl
end Attempt

end EquationSolver
