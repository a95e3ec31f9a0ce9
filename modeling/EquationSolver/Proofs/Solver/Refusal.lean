import EquationSolver.Proofs.Solver.Permutation

/-!
# What an error leaves behind

The values of a system are registered one by one, up to the first that is refused.  So a solve that
ends in the refusal of a value leaves the solutions before it in the list, as if they were all.
Every other error comes before anything is registered.
-/

namespace EquationSolver

open Reduction (Settings)

variable {preferences : Preferences} {settings : SolverSettings} {definitions : Definitions}
  {s : Settings} {policy : DisplayPolicy} {type : SolutionType}

/-! ### Refusals -/

/-- Only undefined values are refused. -/
theorem Solution.eq_undefined_of_error {t : Term} {e : SolverError}
    (h : (ofTerm? s definitions policy type t).value = .error e) : e = .equationUndefined := by
  unfold ofTerm? at h
  rw [Build.value_bind] at h
  obtain ⟨exact, approximate⟩ := (forms s definitions type t).value
  dsimp only at h
  split at h
  case h_1 => cases h
  case h_2 =>
    rw [apply_ite Build.value] at h
    split_ifs at h
    exact (Except.error.inj h).symm

theorem Solution.ofTerm?_of_undefined {t : Term}
    (h : (simplifyAndApproximate s definitions t).value.2 = .undefined) :
    (ofTerm? s definitions policy .exact t).value = .error .equationUndefined := by
  unfold ofTerm?
  rw [Build.value_bind, value_forms SolutionType.noConfusion]
  dsimp only
  rw [h]
  rfl

/-- Some of the terms are listed: those before one that is refused, as far as they are not
    dropped. -/
def Solution.IsCutShort (s : Settings) (definitions : Definitions) (policy : DisplayPolicy)
    (type : SolutionType) (terms : List Term) (listed : List (Solution Term)) : Prop :=
  ∃ before t after, terms = before ++ t :: after ∧
    (∀ u ∈ before, ∃ solution, (ofTerm? s definitions policy type u).value = .ok solution) ∧
    (ofTerm? s definitions policy type t).value = .error .equationUndefined ∧
    listed = before.filterMap (listed? s definitions policy type)

namespace Solution.IsCutShort

variable {terms : List Term} {listed : List (Solution Term)}

theorem of_refused {t : Term}
    (h : (ofTerm? s definitions policy type t).value = .error .equationUndefined)
    (after : List Term) : IsCutShort s definitions policy type (t :: after) [] :=
  ⟨[], t, after, rfl, List.forall_mem_nil _, h, rfl⟩

/-- Terms that are not refused are listed before the others. -/
theorem append_left (accepted : List Term)
    (haccepted : ∀ u ∈ accepted, ∃ solution,
      (ofTerm? s definitions policy type u).value = .ok solution)
    (h : IsCutShort s definitions policy type terms listed) :
    IsCutShort s definitions policy type (accepted ++ terms)
      (accepted.filterMap (listed? s definitions policy type) ++ listed) := by
  obtain ⟨before, t, after, rfl, hbefore, hrefused, rfl⟩ := h
  exact ⟨accepted ++ before, t, after, by rw [List.append_assoc],
    List.forall_mem_append.2 ⟨haccepted, hbefore⟩, hrefused, List.filterMap_append.symm⟩

/-- What comes behind the refused term is of no account. -/
theorem append_right (h : IsCutShort s definitions policy type terms listed)
    (more : List Term) : IsCutShort s definitions policy type (terms ++ more) listed := by
  obtain ⟨before, t, after, rfl, hbefore, hrefused, rfl⟩ := h
  exact ⟨before, t, after ++ more, by simp, hbefore, hrefused, rfl⟩

end Solution.IsCutShort

/-! ### Registering -/

open Solution (IsCutShort)

namespace SolutionRegistry

theorem ensures_addTerm_error (registry : SolutionRegistry Term) (t : Term) :
    (registry.addTerm s definitions policy type t).Ensures fun added =>
      ∀ e, added = .error e → (Solution.ofTerm? s definitions policy type t).value = .error e := by
  unfold addTerm
  apply CheckedBuild.ensures_build_bind
  cases hsolution : (Solution.ofTerm? s definitions policy type t).value with
  | error e =>
    refine CheckedBuild.ensures_pure ?_
    rintro _ ⟨⟩
    rfl
  | ok solution =>
    refine CheckedBuild.ensures_except_bind fun registry' _ => ?_
    exact CheckedBuild.ensures_pure fun _ h => nomatch h

/-- Terms of which one is refused are registered up to that. -/
theorem ensures_addTerms_error (registry : SolutionRegistry Term) (terms : List Term) :
    (registry.addTerms s definitions policy type terms).Ensures fun added =>
      ∀ e, added.2 = some e → e = .equationUndefined ∧
        ∃ listed, IsCutShort s definitions policy type terms listed ∧
          added.1.solutions = registry.solutions ++ listed := by
  induction terms generalizing registry with
  | nil => exact CheckedBuild.ensures_pure fun _ h => nomatch h
  | cons t ts ih =>
    unfold addTerms
    refine CheckedBuild.Ensures.bind (fun added hadded =>
      And.intro (ensures_addTerm registry t added hadded)
        (ensures_addTerm_error registry t added hadded)) ?_
    rintro added ⟨haccepted, hrefused⟩
    cases added with
    | error e =>
      refine CheckedBuild.ensures_pure ?_
      rintro _ ⟨⟩
      obtain rfl := Solution.eq_undefined_of_error (hrefused e rfl)
      exact ⟨rfl, [], .of_refused (hrefused _ rfl) ts, (List.append_nil _).symm⟩
    | ok registry' =>
      obtain ⟨hfirst, hsolutions⟩ := haccepted registry' rfl
      refine (ih registry').mono fun result hresult e he => ?_
      obtain ⟨hundefined, listed, hlisted, hrest⟩ := hresult e he
      refine ⟨hundefined, _, hlisted.append_left [t] ?_, ?_⟩
      · simpa using hfirst
      · rw [hrest, hsolutions, List.append_assoc]
        cases hlist : Solution.listed? s definitions policy type t <;> simp [hlist]

/-- Terms are registered up to the first that is refused, if there is room for them. -/
theorem value_addTerms_of_refused (registry : SolutionRegistry Term) (before : List Term) {t : Term}
    {e : SolverError} (hbefore : ∀ u ∈ before, ∃ solution,
      (Solution.ofTerm? s definitions policy type u).value = .ok solution)
    (ht : (Solution.ofTerm? s definitions policy type t).value = .error e)
    (hroom : registry.solutions.length + before.length < maxSolutions) (after : List Term) :
    (registry.addTerms s definitions policy type (before ++ t :: after)).run.value =
      .ok (⟨registry.solutions ++
        before.filterMap (Solution.listed? s definitions policy type)⟩, some e) := by
  have hrefused (found : SolutionRegistry Term) :
      (found.addTerm s definitions policy type t).run.value = .ok (.error e) := by
    unfold addTerm
    rw [CheckedBuild.value_build_bind, ht]
    rfl
  rw [value_addTerms_append registry hbefore hroom, addTerms,
    CheckedBuild.value_bind_of_ok (hrefused _)]
  rfl

end SolutionRegistry

/-! ### Solving standard forms -/

namespace Attempt

variable {attempt : Attempt Term} {forms : List Term}

/-- What there is to be listed: the values of the unknowns of a linear system that has just one
    solution, or the roots of a polynomial and its discriminant. -/
inductive HasValues (preferences : Preferences) (definitions : Definitions)
    (attempt : Attempt Term) (forms : List Term) : SystemKind → SolutionType → List Term → Prop
  | linear {rows : List (List Term)} {values : List Term} :
      (Linear.augmentedRows (attempt.reduction preferences .analysis) attempt.unknowns.items
        forms).value = some rows →
      (Linear.solve (attempt.reduction preferences) definitions attempt.unknowns.items.length
        rows).run.value = .ok (.unique values) →
      HasValues preferences definitions attempt forms .linear .exact values
  | polynomial {unknown : String} {form : Term} {degree : Nat} {roots : PolynomialRoots} :
      (Linear.augmentedRows (attempt.reduction preferences .analysis) attempt.unknowns.items
        forms).value = none →
      attempt.unknowns.items = [unknown] → forms = [form] →
      (closedRoots (attempt.reduction preferences .analysis) unknown form).value =
        some (degree, roots) →
      HasValues preferences definitions attempt forms (.polynomial degree)
        (if roots.isApproximate then .approximate else .exact)
        (roots.roots ++ [(shownDiscriminant (attempt.reduction preferences .user) roots).value])

/-- The attempt has come to the refusal of one of the values that there are to be listed. -/
structure EndsInRefusal (preferences : Preferences) (settings : SolverSettings)
    (definitions : Definitions) (attempt : Attempt Term) (kind : SystemKind) (type : SolutionType)
    (values : List Term) (found : Attempted Term) (e : SolverError) : Prop where
  error_eq : e = .equationUndefined
  kind_eq : found.attempt.kind = some kind
  hasMore_eq : found.attempt.hasMore = false
  isCutShort : IsCutShort (attempt.reduction preferences .user) definitions
    (displayPolicy preferences settings) type values found.attempt.registry.solutions

/-- What is left after an error: what is before the first value that was refused, and nothing if
    there was nothing to be listed. -/
structure LeavesBehind (preferences : Preferences) (settings : SolverSettings)
    (definitions : Definitions) (attempt : Attempt Term) (forms : List Term)
    (found : Attempted Term) (e : SolverError) : Prop where
  endsInRefusal {kind type values} :
    attempt.HasValues preferences definitions forms kind type values →
      attempt.EndsInRefusal preferences settings definitions kind type values found e
  eq_nil : (∀ kind type values,
    ¬attempt.HasValues preferences definitions forms kind type values) →
      found.attempt.registry.solutions = []

/-- Registering ends with all terms listed that are not dropped, or with a refusal. -/
theorem ensures_registerAll_cutShort (attempt : Attempt Term) (s : Settings) (type : SolutionType)
    (terms : List Term) :
    (attempt.registerAll preferences settings definitions s type terms).Ensures fun found =>
      (∃ registry, found.attempt = { attempt with registry }) ∧
      (∀ outcome, found.result = .ok outcome →
        (∀ t ∈ terms, ∃ solution, (Solution.ofTerm? s definitions
          (displayPolicy preferences settings) type t).value = .ok solution) ∧
        found.attempt.registry.solutions = attempt.registry.solutions ++ terms.filterMap
          (Solution.listed? s definitions (displayPolicy preferences settings) type)) ∧
      ∀ e, found.result = .error e → e = .equationUndefined ∧
        ∃ listed, IsCutShort s definitions (displayPolicy preferences settings) type terms listed ∧
          found.attempt.registry.solutions = attempt.registry.solutions ++ listed := by
  unfold registerAll
  refine CheckedBuild.Ensures.bind (fun added hadded =>
    And.intro (SolutionRegistry.ensures_addTerms attempt.registry terms added hadded)
      (SolutionRegistry.ensures_addTerms_error attempt.registry terms added hadded)) ?_
  rintro ⟨registry, refusal⟩ ⟨haccepted, hrefused⟩
  refine CheckedBuild.ensures_pure ⟨⟨registry, rfl⟩, ?_⟩
  cases refusal with
  | none => exact ⟨fun _ _ => haccepted rfl, fun _ h => nomatch h⟩
  | some e =>
    refine ⟨fun _ h => (nomatch h), ?_⟩
    rintro _ ⟨⟩
    exact hrefused e rfl

variable (hempty : attempt.registry.solutions = [])

include hempty

/-- The roots are registered before the discriminant. -/
theorem ensures_registerRoots_error (hmore : attempt.hasMore = false) {kind : SystemKind}
    (hkind : attempt.kind = some kind) (roots : PolynomialRoots) :
    (attempt.registerRoots preferences settings definitions roots).Ensures fun found =>
      ∀ e, found.result = .error e → attempt.EndsInRefusal preferences settings definitions kind
        (if roots.isApproximate then .approximate else .exact)
        (roots.roots ++ [(shownDiscriminant (attempt.reduction preferences .user) roots).value])
        found e := by
  unfold registerRoots
  refine (ensures_registerAll_cutShort attempt _ _ roots.roots).bind ?_
  rintro found ⟨⟨registry, hfound⟩, hok, herror⟩
  split
  case h_1 =>
    refine CheckedBuild.ensures_pure fun e he => ?_
    obtain ⟨hundefined, listed, hlisted, hsolutions⟩ := herror e he
    rw [hempty, List.nil_append] at hsolutions
    exact ⟨hundefined, hfound ▸ hkind, hfound ▸ hmore, hsolutions ▸ hlisted.append_right _⟩
  case h_2 outcome houtcome =>
    obtain ⟨haccepted, hroots⟩ := hok outcome houtcome
    apply CheckedBuild.ensures_build_bind
    refine (ensures_registerAll_cutShort found.attempt _ _ _).mono ?_
    rintro last ⟨⟨registry', hlast⟩, -, herror'⟩ e he
    obtain ⟨hundefined, listed, hlisted, hsolutions⟩ := herror' e he
    refine ⟨hundefined, by rw [hlast, hfound]; exact hkind, by rw [hlast, hfound]; exact hmore, ?_⟩
    rw [hsolutions, hroots, hempty, List.nil_append]
    exact hlisted.append_left _ haccepted

omit hempty in
/-- What has rows is solved as a linear system, for values only if there is just one solution. -/
theorem HasValues.of_rows {rows : List (List Term)} {answer : LinearAnswer} {kind : SystemKind}
    {type : SolutionType} {values : List Term}
    (h : attempt.HasValues preferences definitions forms kind type values)
    (hrows : (Linear.augmentedRows (attempt.reduction preferences .analysis) attempt.unknowns.items
      forms).value = some rows)
    (hanswer : (Linear.solve (attempt.reduction preferences) definitions
      attempt.unknowns.items.length rows).run.value = .ok answer) :
    kind = .linear ∧ type = .exact ∧ answer = .unique values := by
  cases h with
  | linear hrows' hunique =>
    cases hrows.symm.trans hrows'
    exact ⟨rfl, rfl, Except.ok.inj (hanswer.symm.trans hunique)⟩
  | polynomial hnone => cases hrows.symm.trans hnone

/-- A system of rows that is not solved has no rank, or free unknowns that cannot be pinned, or a
    value of its only solution is refused. -/
theorem ensures_solveRows_error {rows : List (List Term)}
    (hrows : (Linear.augmentedRows (attempt.reduction preferences .analysis) attempt.unknowns.items
      forms).value = some rows) :
    (attempt.solveRows preferences settings definitions rows).Ensures fun found =>
      ∀ e, found.result = .error e → e = .equationUndefined ∧
        attempt.LeavesBehind preferences settings definitions forms found e := by
  unfold solveRows
  refine CheckedBuild.Ensures.bind (P := fun answer => (Linear.solve (attempt.reduction preferences)
    definitions attempt.unknowns.items.length rows).run.value = .ok answer) (fun _ h => h)
      fun answer hanswer => ?_
  cases answer with
  | undefined | unresolved =>
    refine CheckedBuild.ensures_pure ?_
    rintro _ ⟨⟩
    exact ⟨rfl, fun h => (nomatch (h.of_rows hrows hanswer).2.2), fun _ => hempty⟩
  | inconsistent => exact CheckedBuild.ensures_pure fun _ h => nomatch h
  | parametric values =>
    refine (ensures_registerAll_isOk _ _ _ values).mono fun found hfound e he => ?_
    obtain ⟨outcome, houtcome⟩ := hfound.2 fun t _ => Solution.exists_ofTerm?_formal _ _ _ t
    cases houtcome.symm.trans he
  | unique values =>
    refine (ensures_registerAll_cutShort _ _ _ values).mono ?_
    rintro found ⟨⟨registry, hfound⟩, -, herror⟩ e he
    obtain ⟨hundefined, listed, hlisted, hsolutions⟩ := herror e he
    have hlist : found.attempt.registry.solutions = listed :=
      hsolutions.trans (congrArg (· ++ listed) hempty)
    refine ⟨hundefined, fun h => ?_, fun hnone => absurd (.linear hrows hanswer) (hnone _ _ _)⟩
    obtain ⟨rfl, rfl, hunique⟩ := h.of_rows hrows hanswer
    cases hunique
    exact ⟨hundefined, by rw [hfound], by rw [hfound], hlist ▸ hlisted⟩

/-- The equation is not linear. -/
theorem ensures_solvePolynomial_error (hmore : attempt.hasMore = false)
    (hrows : (Linear.augmentedRows (attempt.reduction preferences .analysis) attempt.unknowns.items
      forms).value = none) {unknown : String} {form : Term}
    (hunknown : attempt.unknowns.items = [unknown]) (hform : forms = [form]) :
    (attempt.solvePolynomial preferences settings definitions unknown form).Ensures fun found =>
      ∀ e, found.result = .error e →
        attempt.LeavesBehind preferences settings definitions forms found e := by
  unfold solvePolynomial
  apply CheckedBuild.ensures_build_bind
  split
  case h_1 degree roots hroots =>
    let attempt' := { attempt with kind := some (.polynomial degree) }
    have hempty' : attempt'.registry.solutions = [] := hempty
    refine (ensures_registerRoots_error hempty' hmore rfl roots).mono fun found hfound e he => ?_
    refine ⟨fun h => ?_, fun hnone =>
      absurd (.polynomial hrows hunknown hform hroots) (hnone _ _ _)⟩
    cases h with
    | linear hsome => cases hrows.symm.trans hsome
    | polynomial _ hunknown' hform' hroots' =>
      cases hunknown.symm.trans hunknown'
      cases hform.symm.trans hform'
      cases hroots.symm.trans hroots'
      obtain ⟨herror, hkind, hmore', hcut⟩ := hfound e he
      exact ⟨herror, hkind, hmore', hcut⟩
  case h_2 => exact CheckedBuild.ensures_pure fun _ h => nomatch h

/-- What is neither linear nor one polynomial in one unknown has no values. -/
theorem ensures_solveForms_error (hmore : attempt.hasMore = false) (forms : List Term) :
    (attempt.solveForms preferences settings definitions forms).Ensures fun found =>
      ∀ e, found.result = .error e →
        attempt.LeavesBehind preferences settings definitions forms found e := by
  have hlinear : (attempt.solveLinear preferences settings definitions forms).Ensures fun linear =>
      (Linear.augmentedRows (attempt.reduction preferences .analysis) attempt.unknowns.items
          forms).value = none ∧ linear = ⟨attempt, .error .nonlinearSystem⟩ ∨
        ∀ e, linear.result = .error e → e = .equationUndefined ∧
          attempt.LeavesBehind preferences settings definitions forms linear e := by
    unfold solveLinear
    apply CheckedBuild.ensures_build_bind
    split
    case h_1 hnone => exact CheckedBuild.ensures_pure (.inl ⟨hnone, rfl⟩)
    case h_2 rows hrows => exact (ensures_solveRows_error hempty hrows).mono fun _ h => .inr h
  unfold solveForms
  refine hlinear.bind ?_
  rintro linear (⟨hnone, rfl⟩ | hfound)
  · split
    case h_1 unknown form _ hunknown =>
      exact ensures_solvePolynomial_error hempty hmore hnone hunknown rfl
    case h_2 hother =>
      refine CheckedBuild.ensures_pure fun e _ => ⟨fun h => ?_, fun _ => hempty⟩
      cases h with
      | linear hsome => cases hnone.symm.trans hsome
      | polynomial _ hunknown hform => exact absurd hform (hother _ _ rfl hunknown)
  · split
    case h_1 hresult _ => cases (hfound _ hresult).1
    case h_2 => exact CheckedBuild.ensures_pure fun e he => (hfound e he).2

omit hempty in
/-- Only an undefined value leaves solutions behind. -/
theorem LeavesBehind.eq_nil_of_ne {found : Attempted Term} {e : SolverError}
    (h : attempt.LeavesBehind preferences settings definitions forms found e)
    (he : e ≠ .equationUndefined) : found.attempt.registry.solutions = [] :=
  h.eq_nil fun _ _ _ hvalues => he (h.endsInRefusal hvalues).error_eq

end Attempt

/-! ### Solving a system -/

/-- A pass over a store that ends in an error has failed to read an equation, or to solve the
    standard forms. -/
theorem ofStore_error {keepsDefined : Bool} {store : EquationStore} {context context' : Context}
    {found : Attempted Handle} {e : SolverError}
    (h : Attempted.ofStore preferences settings keepsDefined store context =
      .ok (found, context')) (he : found.result = .error e) :
    (∃ attempt, (Attempt.initial preferences keepsDefined).readEquations preferences context
        store.equations = .ok ((attempt, .error e), context') ∧
      found.attempt.registry.solutions = []) ∨
    ∃ attempt forms before solved, (Attempt.initial preferences keepsDefined).readEquations
        preferences context store.equations = .ok ((attempt, .ok forms), before) ∧
      found.attempt = solved.attempt.map context'.pool.handleOf ∧
      attempt.LeavesBehind preferences settings before.definedTerms forms solved e := by
  unfold Attempted.ofStore at h
  obtain ⟨⟨⟨attempt, forms⟩, before⟩, hread, h⟩ := exists_of_bind_eq_ok h
  obtain ⟨hmore, hempty⟩ : attempt.hasMore = false ∧ attempt.registry.solutions = [] :=
    Attempt.of_readEquations (P := fun read => read.hasMore = false ∧ read.registry.solutions = [])
      (fun definitions read left right hkeeps => by
        obtain ⟨userVariables, hvalue⟩ :=
          Attempt.value_readEquation_reduction preferences definitions read left right
        rw [hvalue]
        unfold Attempt.addForm
        split <;> exact hkeeps) hread ⟨rfl, rfl⟩
  cases forms with
  | error e' =>
    cases h
    cases he
    exact .inl ⟨attempt, hread, congrArg (List.map _) hempty⟩
  | ok forms =>
    obtain ⟨⟨solved, context₂⟩, hsolved, h⟩ := exists_of_bind_eq_ok h
    cases h
    exact .inr ⟨attempt, forms, before, solved, hread, rfl,
      Attempt.ensures_solveForms_error hempty hmore forms solved
        (Context.of_recordChecked_eq_ok hsolved).1 e he⟩

namespace EquationSystem

variable {system solved : EquationSystem} {store : EquationStore} {context left : Context}
  {e : SolverError}

/-- A solve that ends in an error has come to it in its second pass. -/
theorem exists_runsPasses_of_error
    (h : system.exactSolve preferences store context = .ok (solved, left))
    (he : solved.lastResult = some (.error e)) :
    ∃ first second before, RunsPasses preferences system.settings store context first second before
        left ∧ second.result = .error e ∧ solved = system.adopt second := by
  unfold exactSolve at h
  obtain ⟨⟨first, before⟩, hfirst, h⟩ := exists_of_bind_eq_ok h
  dsimp only at h
  by_cases hsettled : isSettled first = true
  · rw [if_pos hsettled] at h
    cases h
    cases (isSettled_iff.1 hsettled).1.symm.trans (Option.some.inj he)
  · rw [if_neg hsettled] at h
    obtain ⟨⟨second, context₂⟩, hsecond, h⟩ := exists_of_bind_eq_ok h
    cases h
    have hresult : (preferred first second).result = .error e := Option.some.inj he
    have hpreferred : preferred first second = second := by
      by_cases hsolved : first.result = .ok .solved
      · cases hfails : second.result with
        | error e' =>
          rw [preferred_of_solved hsolved hfails, hsolved] at hresult
          cases hresult
        | ok outcome => exact preferred_of_ok hfails
      · exact preferred_of_not_solved hsolved
    rw [hpreferred] at hresult ⊢
    exact ⟨first, second, before, ⟨hfirst, hsecond⟩, hresult, rfl⟩

/-- A solve that ends in an error leaves nothing listed, unless the error is the refusal of a value
    that is undefined.  Then the solutions before that are left, although they are not all and
    there are said to be no more. -/
theorem exactSolve_error_leaves
    (h : system.exactSolve preferences store context = .ok (solved, left))
    (he : solved.lastResult = some (.error e)) :
    (e ≠ .equationUndefined → solved.solutions = []) ∧
    ∃ first before, Attempted.ofStore preferences system.settings false store context =
        .ok (first, before) ∧
      ((∃ attempt, (Attempt.initial preferences true).readEquations preferences before
          store.equations = .ok ((attempt, .error e), left) ∧ solved.solutions = []) ∨
        ∃ attempt forms after found, (Attempt.initial preferences true).readEquations preferences
            before store.equations = .ok ((attempt, .ok forms), after) ∧
          solved.attempt = found.attempt.map left.pool.handleOf ∧
          attempt.LeavesBehind preferences system.settings after.definedTerms forms found e) := by
  obtain ⟨first, second, before, hpasses, hsecond, rfl⟩ := exists_runsPasses_of_error h he
  have hleft := ofStore_error hpasses.second_eq hsecond
  refine ⟨fun hne => ?_, first, before, hpasses.first_eq, hleft⟩
  obtain ⟨-, -, hnone⟩ | ⟨attempt, forms, after, found, -, hfound, hleaves⟩ := hleft
  · exact hnone
  · show second.attempt.registry.solutions = []
    rw [hfound]
    exact congrArg (List.map _) (hleaves.eq_nil_of_ne hne)

end EquationSystem

/-! ### A solution that is left behind -/

/-- A number that no double comes close to. -/
def hugeNumber : Rat := 10 ^ 400

/-- The sides of `x = 1` and `y = 10^400`. -/
def hugeSides : List Term :=
  [.symbol "x", .number 1, .symbol "y", .number hugeNumber]

def hugeEquations : List (Term × Term) :=
  [(.symbol "x", .number 1), (.symbol "y", .number hugeNumber)]

def hugeForms : List Term :=
  [.sum [.symbol "x", .number (-1)], .sum [.symbol "y", .number (-hugeNumber)]]

section Huge

variable (keepsDefined : Bool)

def hugeAttempt (names : List String) : Attempt Term :=
  { Attempt.initial {} keepsDefined with unknowns := ⟨names, 6⟩ }

theorem standardForm_huge (symbols : SymbolPolicy) :
    (standardForm { (Attempt.initial {} keepsDefined).reduction {} .analysis with symbols } []
        (.symbol "x") (.number 1)).value = hugeForms[0] ∧
      (standardForm { (Attempt.initial {} keepsDefined).reduction {} .analysis with symbols } []
        (.symbol "y") (.number hugeNumber)).value = hugeForms[1] := by
  rw [standardForm_nil, standardForm_nil]
  cases keepsDefined <;> cases symbols <;> decide +kernel

theorem readSides_huge :
    (Attempt.initial {} keepsDefined).readSides {} [] hugeEquations =
      (hugeAttempt keepsDefined ["x", "y"], .ok hugeForms) := by
  have hone := Attempt.value_readEquation_nil (hugeAttempt keepsDefined []) hugeForms[0]
    fun symbols => (standardForm_huge keepsDefined symbols).1
  have hhuge := Attempt.value_readEquation_nil (hugeAttempt keepsDefined ["x"]) hugeForms[1]
    fun symbols => (standardForm_huge keepsDefined symbols).2
  exact Attempt.readSides_pair (hone.trans rfl) (hhuge.trans rfl)

def hugeMatrix : SymbolicMatrix :=
  ⟨[[.number 1, .number 0, .negation (.number (-1))],
    [.number 0, .number 1, .negation (.number (-hugeNumber))]], 3⟩

theorem hasRank_huge : (hugeAttempt keepsDefined ["x", "y"]).HasRank {} [] hugeForms hugeMatrix
    ⟨[[.number 1, .number 0, .number 1], [.number 0, .number 1, .number hugeNumber]], 3⟩ 2 := by
  have hrows : (Linear.augmentedRows ((hugeAttempt keepsDefined ["x", "y"]).reduction {} .analysis)
        ["x", "y"] hugeForms).value = some hugeMatrix.rows ∧
      (hugeMatrix.reduce ((hugeAttempt keepsDefined ["x", "y"]).reduction {} .approximation)
        []).value = ⟨[[.number 1, .number 0, .number 1], [.number 0, .number 1, .number hugeNumber]],
          3⟩ ∧
      (SymbolicMatrix.eliminate
        ((hugeAttempt keepsDefined ["x", "y"]).reduction {} .approximation) 3 0 0
        [[.number 1, .number 0, .number 1], [.number 0, .number 1, .number hugeNumber]]).value =
          ([[.number 1, .number 0, .number 1], [.number 0, .number 1, .number hugeNumber]], 2) := by
    rw [SymbolicMatrix.value_reduce_nil]
    cases keepsDefined <;> decide +kernel
  obtain ⟨haugmented, hreduce, heliminate⟩ := hrows
  exact ⟨⟨hugeMatrix.rows, haugmented, rfl⟩, SymbolicMatrix.value_rank hreduce heliminate rfl rfl⟩

/-- The value of `x` is listed before that of `y` is refused. -/
theorem ofSides_huge : ∃ solution, Attempted.ofSides {} {} keepsDefined [] hugeEquations =
    .ok ⟨{ hugeAttempt keepsDefined ["x", "y"] with
      kind := some .linear, registry := ⟨[solution]⟩ }, .error .equationUndefined⟩ := by
  obtain ⟨solution, hone⟩ : ∃ solution,
      (Solution.ofTerm? ((hugeAttempt keepsDefined ["x", "y"]).reduction {} .user) []
        (Attempt.displayPolicy {} {}) .exact (.number 1)).value = .ok (some solution) := by
    cases keepsDefined <;> exact ⟨_, rfl⟩
  have hhuge : (Solution.ofTerm? ((hugeAttempt keepsDefined ["x", "y"]).reduction {} .user) []
      (Attempt.displayPolicy {} {}) .exact (.number hugeNumber)).value =
        .error .equationUndefined := by
    apply Solution.ofTerm?_of_undefined
    cases keepsDefined <;> decide +kernel
  have hregistered := SolutionRegistry.value_addTerms_of_refused {} [.number 1]
    (List.forall_mem_singleton.2 ⟨_, hone⟩) hhuge (by decide) []
  rw [List.filterMap_cons_some (Solution.listed?_of_ok hone)] at hregistered
  refine ⟨solution, ?_⟩
  rw [Attempted.ofSides_of_ok (readSides_huge keepsDefined)]
  refine (Attempt.value_solveForms_of_unique (hasRank_huge keepsDefined) ?_ Nat.two_pos rfl
    hregistered nofun).trans rfl
  cases keepsDefined <;> rfl

end Huge

namespace EquationSystem

/-- The solve of `x = 1` and `y = 10^400` ends in an error, and one solution is listed. -/
theorem exactSolve_error_leaves_one :
    let context := Context.ofTerms hugeSides []
    let store := EquationStore.ofSides context.pool hugeEquations
    ∃ solved left, (unsolved {} {}).exactSolve {} store context = .ok (solved, left) ∧
      solved.lastResult = some (.error .equationUndefined) ∧ solved.solutions.length = 1 ∧
      solved.attempt.unknowns.items = ["x", "y"] ∧ solved.attempt.hasMore = false ∧
      ∃ (attempt : Attempt Term) (forms : List Term) (after : Context) (found : Attempted Term),
        solved.attempt = found.attempt.map left.pool.handleOf ∧
        attempt.LeavesBehind {} {} after.definedTerms forms found .equationUndefined := by
  intro context store
  obtain ⟨first, hfirst⟩ := ofSides_huge false
  obtain ⟨second, hsecond⟩ := ofSides_huge true
  obtain ⟨context₁, context₂, hpasses⟩ := runsPasses_of_sides hugeSides (by decide)
    (List.forall_mem_nil _) (by simp [hugeEquations, hugeSides]) hfirst hsecond
  obtain ⟨solved, left, hsolve, -, hadopts⟩ := exactSolve_of_runsPasses (unsolved {} {}) hpasses
  obtain ⟨rfl, -⟩ := hadopts fun hstands => nomatch hstands.1
  refine ⟨_, left, hsolve, rfl, rfl, rfl, rfl, ?_⟩
  obtain ⟨-, _, _, -, ⟨_, -, hnone⟩ | ⟨attempt, forms, after, found, -, hfound⟩⟩ :=
    exactSolve_error_leaves hsolve rfl
  · cases hnone
  · exact ⟨attempt, forms, after, found, hfound⟩

end EquationSystem

end EquationSolver
