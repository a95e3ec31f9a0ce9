import EquationSolver.Proofs.Solver.Exact
import EquationSolver.Proofs.Solver.Reading

/-!
# When a linear system is solved

A linear system is solved unless it has no rank, its free unknowns cannot be pinned, or a value of
its only solution is refused.  Values that depend on parameters are never refused.
-/

namespace EquationSolver

open Reduction (Settings)

variable {preferences : Preferences} {settings : SolverSettings} {definitions : Definitions}
  {s : Settings} {policy : DisplayPolicy}

/-! ### Refusals -/

/-- A formal value is not refused. -/
theorem Solution.exists_ofTerm?_formal (s : Settings) (definitions : Definitions)
    (policy : DisplayPolicy) (t : Term) :
    ∃ solution, (ofTerm? s definitions policy .formal t).value = .ok solution := by
  unfold ofTerm?
  rw [Build.value_bind, value_forms SolutionType.noConfusion]
  dsimp only
  split
  case h_1 => exact ⟨none, rfl⟩
  case h_2 =>
    rw [if_neg (by simp)]
    exact ⟨_, rfl⟩

/-- Terms are refused only if one of them is. -/
theorem SolutionRegistry.ensures_addTerms_refusal {type : SolutionType}
    (registry : SolutionRegistry Term) (terms : List Term) :
    (registry.addTerms s definitions policy type terms).Ensures fun added =>
      (∀ t ∈ terms, ∃ solution, (Solution.ofTerm? s definitions policy type t).value = .ok solution) →
        added.2 = none := by
  induction terms generalizing registry with
  | nil => exact CheckedBuild.ensures_pure fun _ => rfl
  | cons t ts ih =>
    unfold addTerms
    refine CheckedBuild.Ensures.bind (P := fun added => (∃ solution,
      (Solution.ofTerm? s definitions policy type t).value = .ok solution) →
        ∃ registry', added = .ok registry') ?_ fun added hadded => ?_
    · unfold addTerm
      apply CheckedBuild.ensures_build_bind
      cases (Solution.ofTerm? s definitions policy type t).value with
      | error e => exact CheckedBuild.ensures_pure (by rintro ⟨_, ⟨⟩⟩)
      | ok solution =>
        refine CheckedBuild.ensures_except_bind fun registry' _ => ?_
        exact CheckedBuild.ensures_pure fun _ => ⟨registry', rfl⟩
    · cases added with
      | error e =>
        refine CheckedBuild.ensures_pure fun haccepted => ?_
        obtain ⟨registry', hregistry⟩ := hadded (haccepted t List.mem_cons_self)
        cases hregistry
      | ok registry' =>
        exact (ih registry').mono fun result hresult haccepted =>
          hresult fun u hu => haccepted u (List.mem_cons_of_mem t hu)

/-! ### Outcomes -/

/-- The result is no error. -/
def Attempted.IsOk {ν : Type} (found : Attempted ν) : Prop :=
  ∃ outcome, found.result = .ok outcome

/-- The answer to a linear system is a solution, and none of the values of a unique one is
    refused. -/
def LinearAnswer.IsAccepted (accepts : Term → Prop) : LinearAnswer → Prop
  | .undefined | .unresolved => False
  | .inconsistent | .parametric _ => True
  | .unique values => ∀ t ∈ values, accepts t

namespace Attempt

variable {attempt : Attempt Term}

/-- The value of an unknown can be shown as a solution, or passed over. -/
def Accepts (preferences : Preferences) (settings : SolverSettings) (definitions : Definitions)
    (attempt : Attempt Term) (t : Term) : Prop :=
  ∃ solution, (Solution.ofTerm? (attempt.reduction preferences .user) definitions
    (displayPolicy preferences settings) .exact t).value = .ok solution

theorem ensures_registerAll_isOk (attempt : Attempt Term) (s : Settings) (type : SolutionType)
    (terms : List Term) :
    (attempt.registerAll preferences settings definitions s type terms).Ensures fun found =>
      found.IsOk ↔ ∀ t ∈ terms, ∃ solution, (Solution.ofTerm? s definitions
        (displayPolicy preferences settings) type t).value = .ok solution := by
  unfold registerAll
  refine CheckedBuild.Ensures.bind (P := fun added => added.2 = none ↔ ∀ t ∈ terms, ∃ solution,
    (Solution.ofTerm? s definitions (displayPolicy preferences settings) type t).value =
      .ok solution) ?_ ?_
  · intro added hadded
    constructor
    · exact fun hnone =>
        (SolutionRegistry.ensures_addTerms attempt.registry terms added hadded hnone).1
    · exact SolutionRegistry.ensures_addTerms_refusal attempt.registry terms added hadded
  · rintro ⟨registry, refusal⟩ hadded
    refine CheckedBuild.ensures_pure (.trans ?_ hadded)
    cases refusal with
    | none => exact iff_of_true ⟨.solved, rfl⟩ rfl
    | some e => exact iff_of_false (fun ⟨_, h⟩ => nomatch h) (Option.some_ne_none e)

/-- A linear system is solved just when the answer to it is accepted. -/
theorem ensures_solveRows_isOk (attempt : Attempt Term) (rows : List (List Term)) :
    (attempt.solveRows preferences settings definitions rows).Ensures fun found =>
      ∃ answer, (Linear.solve (attempt.reduction preferences) definitions
          attempt.unknowns.items.length rows).run.value = .ok answer ∧
        (found.IsOk ↔
          answer.IsAccepted (attempt.Accepts preferences settings definitions)) := by
  unfold solveRows
  refine CheckedBuild.Ensures.bind (P := fun answer => (Linear.solve (attempt.reduction preferences)
    definitions attempt.unknowns.items.length rows).run.value = .ok answer) (fun _ h => h)
      fun answer hanswer => ?_
  cases answer with
  | undefined | unresolved =>
    refine CheckedBuild.ensures_pure ⟨_, hanswer, iff_of_false ?_ not_false⟩
    rintro ⟨outcome, houtcome⟩
    cases houtcome
  | inconsistent =>
    exact CheckedBuild.ensures_pure ⟨_, hanswer, iff_of_true ⟨.solved, rfl⟩ trivial⟩
  | unique values =>
    exact (ensures_registerAll_isOk _ _ _ values).mono fun found hfound => ⟨_, hanswer, hfound⟩
  | parametric values =>
    refine (ensures_registerAll_isOk _ _ _ values).mono fun found hfound => ⟨_, hanswer, ?_⟩
    exact iff_of_true (hfound.2 fun t _ => Solution.exists_ofTerm?_formal _ _ _ t) trivial

/-- Several standard forms are solved just when they are those of a linear system whose answer is
    accepted. -/
theorem ensures_solveForms_isOk (attempt : Attempt Term) {forms : List Term}
    (hlength : 2 ≤ forms.length) :
    (attempt.solveForms preferences settings definitions forms).Ensures fun found =>
      found.IsOk ↔ ∃ rows answer,
        (Linear.augmentedRows (attempt.reduction preferences .analysis) attempt.unknowns.items
          forms).value = some rows ∧
        (Linear.solve (attempt.reduction preferences) definitions
          attempt.unknowns.items.length rows).run.value = .ok answer ∧
        answer.IsAccepted (attempt.Accepts preferences settings definitions) := by
  have hlinear : (attempt.solveLinear preferences settings definitions forms).Ensures fun found =>
      found.IsOk ↔ ∃ rows answer,
        (Linear.augmentedRows (attempt.reduction preferences .analysis) attempt.unknowns.items
          forms).value = some rows ∧
        (Linear.solve (attempt.reduction preferences) definitions
          attempt.unknowns.items.length rows).run.value = .ok answer ∧
        answer.IsAccepted (attempt.Accepts preferences settings definitions) := by
    unfold solveLinear
    apply CheckedBuild.ensures_build_bind
    split
    case h_1 hrows =>
      refine CheckedBuild.ensures_pure (iff_of_false (fun ⟨_, h⟩ => nomatch h) ?_)
      rintro ⟨rows, -, hsome, -⟩
      cases hrows.symm.trans hsome
    case h_2 rows hrows =>
      refine (ensures_solveRows_isOk attempt rows).mono fun found hfound => ?_
      obtain ⟨answer, hanswer, hfound⟩ := hfound
      rw [hfound]
      constructor
      · exact fun haccepted => ⟨rows, answer, hrows, hanswer, haccepted⟩
      · rintro ⟨rows', answer', hrows', hanswer', haccepted⟩
        obtain rfl : rows = rows' := Option.some.inj (hrows.symm.trans hrows')
        obtain rfl : answer = answer' := Except.ok.inj (hanswer.symm.trans hanswer')
        exact haccepted
  unfold solveForms
  refine hlinear.bind fun linear hlinear => ?_
  split
  case h_1 => exact absurd hlength (by simp)
  case h_2 => exact CheckedBuild.ensures_pure hlinear

end Attempt

end EquationSolver
