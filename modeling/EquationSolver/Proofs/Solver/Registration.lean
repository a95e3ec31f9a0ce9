import EquationSolver.Proofs.Solver.Checked
import Mathlib.Tactic.SplitIfs

/-!
# What is listed

A term is registered for display as a solution, unless its approximate value is not real.
Terms are registered in their order, so the solutions that are listed are those of the terms
that are not dropped, one behind the other.
-/

namespace EquationSolver

open Reduction (Settings)

variable {s : Settings} {definitions : Definitions} {policy : DisplayPolicy}
  {type : SolutionType}

namespace Solution

/-- A term is dropped when its approximate value is not real. -/
def IsDropped (s : Settings) (definitions : Definitions) (t : Term) : Prop :=
  (simplifyAndApproximate s definitions t).value.2 = .nonreal

/-- The solution that a term is listed as, if it is. -/
def listed? (s : Settings) (definitions : Definitions) (policy : DisplayPolicy)
    (type : SolutionType) (t : Term) : Option (Solution Term) :=
  match (ofTerm? s definitions policy type t).value with
  | .ok solution => solution
  | .error _ => none

theorem listed?_of_ok {solution : Option (Solution Term)}
    (h : (ofTerm? s definitions policy type t).value = .ok solution) :
    listed? s definitions policy type t = solution := by
  rw [listed?, h]

theorem ofTerm?_of_listed? {t : Term} {solution : Solution Term}
    (h : listed? s definitions policy type t = some solution) :
    (ofTerm? s definitions policy type t).value = .ok (some solution) := by
  unfold listed? at h
  split at h
  case h_1 hvalue => rw [hvalue, h]
  case h_2 => cases h

/-- The forms of a term that is shown exactly or formally. -/
theorem value_forms (htype : type ≠ .approximate) (t : Term) :
    (forms s definitions type t).value =
      (some (simplifyAndApproximate s definitions t).value.1,
        (simplifyAndApproximate s definitions t).value.2) := by
  unfold forms
  split
  case h_1 => exact absurd rfl htype
  case h_2 => rfl

/-- An exact or formal term that is not refused is listed unless it is dropped. -/
theorem ofTerm?_eq_none_iff {t : Term} {solution : Option (Solution Term)}
    (htype : type ≠ .approximate)
    (h : (ofTerm? s definitions policy type t).value = .ok solution) :
    solution = none ↔ IsDropped s definitions t := by
  unfold ofTerm? at h
  rw [Build.value_bind, value_forms htype] at h
  unfold IsDropped
  dsimp only at h
  split at h
  case h_1 hnonreal =>
    cases h
    exact iff_of_true rfl hnonreal
  case h_2 hreal =>
    rw [apply_ite Build.value] at h
    refine iff_of_false ?_ hreal
    rintro rfl
    split_ifs at h
    exact nomatch h

/-- Of two layouts the exact one is shown, or none. -/
theorem compareLayouts_eq (s : Settings) (definitions : Definitions) (type : SolutionType)
    (exact approximate : Option (Layout Term)) :
    (compareLayouts s definitions type exact approximate).value.1 = none ∨
      (compareLayouts s definitions type exact approximate).value.1 = exact := by
  unfold compareLayouts
  split
  · split_ifs
    · exact .inl rfl
    · exact .inr rfl
  · exact .inr rfl

/-- The exact form that is shown is the reduced term. -/
theorem node_of_exact {t : Term} {solution : Solution Term} {layout : Layout Term}
    (htype : type ≠ .approximate) (h : listed? s definitions policy type t = some solution)
    (hexact : solution.exact = some layout) :
    layout.node = (Reduction.reduce s.forDisplay definitions t).value := by
  have hshown : (ofForms s definitions policy type
      (some (simplifyAndApproximate s definitions t).value.1)
      (simplifyAndApproximate s definitions t).value.2).value = solution := by
    unfold listed? ofTerm? at h
    rw [Build.value_bind, value_forms htype] at h
    dsimp only at h
    split at h
    case h_2 => cases h
    case h_1 found hfound =>
      subst h
      split at hfound
      · cases hfound
      · split_ifs at hfound
        exact Option.some.inj (Except.ok.inj hfound)
  rw [← hshown] at hexact
  unfold ofForms at hexact
  simp only [Build.value_bind, Build.value_pure, Option.bind_some] at hexact
  rcases compareLayouts_eq s definitions type
    (exactLayout? policy (simplifyAndApproximate s definitions t).value.1)
    (if type = .formal then none
      else some (Solution.layout policy (simplifyAndApproximate s definitions t).value.2))
    with hnone | hsame
  · rw [hnone] at hexact
    cases hexact
  · rw [hsame] at hexact
    unfold exactLayout? at hexact
    obtain ⟨-, hlayout⟩ := Option.ite_none_left_eq_some.1 hexact
    cases hlayout
    rfl

end Solution

namespace SolutionRegistry

open Solution (listed? listed?_of_ok)

/-- Nothing else is in the registry afterwards than before, up to one solution more. -/
theorem solutions_add {registry registry' : SolutionRegistry Term}
    {solution : Option (Solution Term)} (h : registry.add solution = .ok registry') :
    registry'.solutions = registry.solutions ++ solution.toList := by
  unfold add at h
  split at h
  case h_1 =>
    cases h
    exact (List.append_nil _).symm
  case h_2 =>
    split at h
    · cases h
      rfl
    · cases h

theorem ensures_addTerm (registry : SolutionRegistry Term) (t : Term) :
    (registry.addTerm s definitions policy type t).Ensures fun added =>
      ∀ registry', added = .ok registry' →
        (∃ solution, (Solution.ofTerm? s definitions policy type t).value = .ok solution) ∧
          registry'.solutions = registry.solutions ++ (listed? s definitions policy type t).toList := by
  unfold addTerm
  apply CheckedBuild.ensures_build_bind
  cases hsolution : (Solution.ofTerm? s definitions policy type t).value with
  | error e => exact CheckedBuild.ensures_pure fun _ h => nomatch h
  | ok solution =>
    apply CheckedBuild.ensures_except_bind
    intro found hfound
    apply CheckedBuild.ensures_pure
    rintro registry' ⟨⟩
    refine ⟨⟨solution, rfl⟩, ?_⟩
    rw [solutions_add hfound, listed?_of_ok hsolution]

/-- Terms of which none is refused are listed in their order, as far as they are not dropped. -/
theorem ensures_addTerms (registry : SolutionRegistry Term) (terms : List Term) :
    (registry.addTerms s definitions policy type terms).Ensures fun added =>
      added.2 = none →
        (∀ t ∈ terms, ∃ solution,
          (Solution.ofTerm? s definitions policy type t).value = .ok solution) ∧
        added.1.solutions =
          registry.solutions ++ terms.filterMap (listed? s definitions policy type) := by
  induction terms generalizing registry with
  | nil => exact CheckedBuild.ensures_pure fun _ => ⟨by simp, by simp⟩
  | cons t ts ih =>
    unfold addTerms
    refine (ensures_addTerm registry t).bind fun added hadded => ?_
    cases added with
    | error e => exact CheckedBuild.ensures_pure fun h => nomatch h
    | ok registry' =>
      obtain ⟨haccepted, hsolutions⟩ := hadded registry' rfl
      refine (ih registry').mono fun result hresult hnone => ?_
      obtain ⟨hrest, hlisted⟩ := hresult hnone
      refine ⟨List.forall_mem_cons.2 ⟨haccepted, hrest⟩, ?_⟩
      rw [hlisted, hsolutions, List.append_assoc]
      cases hfirst : listed? s definitions policy type t <;> simp [hfirst]

theorem value_addTerm (registry : SolutionRegistry Term) {t : Term}
    {solution : Option (Solution Term)}
    (h : (Solution.ofTerm? s definitions policy type t).value = .ok solution)
    (hroom : registry.solutions.length + 1 < maxSolutions) :
    (registry.addTerm s definitions policy type t).run.value =
      .ok (.ok ⟨registry.solutions ++ solution.toList⟩) := by
  have hadd : registry.add solution = .ok ⟨registry.solutions ++ solution.toList⟩ := by
    cases solution with
    | none => rw [Option.toList_none, List.append_nil]; rfl
    | some solution => exact if_pos (by omega)
  unfold addTerm
  rw [CheckedBuild.value_build_bind, h]
  dsimp only
  rw [CheckedBuild.value_except_bind hadd]
  rfl

/-- Terms of which none is refused are all registered, if there is room for them, and then the
    terms behind them. -/
theorem value_addTerms_append (registry : SolutionRegistry Term) {terms : List Term}
    (haccepted : ∀ t ∈ terms, ∃ solution,
      (Solution.ofTerm? s definitions policy type t).value = .ok solution)
    (hroom : registry.solutions.length + terms.length < maxSolutions) (more : List Term) :
    (registry.addTerms s definitions policy type (terms ++ more)).run.value =
      (addTerms ⟨registry.solutions ++ terms.filterMap (listed? s definitions policy type)⟩
        s definitions policy type more).run.value := by
  induction terms generalizing registry with
  | nil => rw [List.filterMap_nil, List.append_nil, List.nil_append]
  | cons t ts ih =>
    obtain ⟨⟨solution, hsolution⟩, hrest⟩ := List.forall_mem_cons.1 haccepted
    rw [List.length_cons] at hroom
    have hlength : (registry.solutions ++ solution.toList).length + ts.length < maxSolutions := by
      rw [List.length_append]
      have := Option.length_toList_le (o := solution)
      omega
    rw [List.cons_append, addTerms,
      CheckedBuild.value_bind_of_ok (value_addTerm registry hsolution (by omega))]
    refine (ih ⟨_⟩ hrest hlength).trans ?_
    have hlisted := listed?_of_ok hsolution
    cases solution <;> simp [hlisted]

/-- Terms of which none is refused are all registered, if there is room for them. -/
theorem value_addTerms (registry : SolutionRegistry Term) {terms : List Term}
    (haccepted : ∀ t ∈ terms, ∃ solution,
      (Solution.ofTerm? s definitions policy type t).value = .ok solution)
    (hroom : registry.solutions.length + terms.length < maxSolutions) :
    (registry.addTerms s definitions policy type terms).run.value =
      .ok (⟨registry.solutions ++ terms.filterMap (listed? s definitions policy type)⟩, none) := by
  have happend := value_addTerms_append registry haccepted hroom []
  rwa [List.append_nil] at happend

end SolutionRegistry

namespace Attempt

open Solution (listed? IsDropped)

variable {preferences : Preferences} {settings : SolverSettings}

/-- Registering touches nothing but the registry. -/
theorem ensures_registerAll (attempt : Attempt Term) (s : Settings) (type : SolutionType)
    (terms : List Term) :
    (attempt.registerAll preferences settings definitions s type terms).Ensures fun found =>
      found.attempt = { attempt with registry := found.attempt.registry } := by
  unfold registerAll
  refine CheckedBuild.Ensures.bind (P := fun _ => True) (fun _ _ => trivial) fun added _ => ?_
  exact CheckedBuild.ensures_pure rfl

/-- What registering terms without a refusal leaves in an empty registry. -/
theorem ensures_registerAll_listed (attempt : Attempt Term)
    (hempty : attempt.registry.solutions = []) (htype : type ≠ .approximate) (terms : List Term) :
    (attempt.registerAll preferences settings definitions s type terms).Ensures fun found =>
      found.result = .ok .solved →
        found.attempt.registry.solutions =
          terms.filterMap (listed? s definitions (displayPolicy preferences settings) type) ∧
        ∀ t ∈ terms, listed? s definitions (displayPolicy preferences settings) type t = none ↔
          IsDropped s definitions t := by
  unfold registerAll
  refine (SolutionRegistry.ensures_addTerms attempt.registry terms).bind ?_
  rintro ⟨registry, refusal⟩ hadded
  apply CheckedBuild.ensures_pure
  intro hresult
  cases refusal with
  | some e => cases hresult
  | none =>
    obtain ⟨haccepted, hlisted⟩ := hadded rfl
    rw [hempty, List.nil_append] at hlisted
    refine ⟨hlisted, fun t ht => ?_⟩
    obtain ⟨solution, hsolution⟩ := haccepted t ht
    rw [← Solution.ofTerm?_eq_none_iff htype hsolution, Solution.listed?_of_ok hsolution]

end Attempt

end EquationSolver
