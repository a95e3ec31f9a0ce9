import EquationSolver.Proofs.Matrix.Rank
import EquationSolver.Proofs.Solver.ExactSolve
import EquationSolver.Proofs.Solver.Registration

/-!
# What an answer rests on

Every answer of the linear solver is read off a matrix in echelon form: that of the augmented
matrix or, when parameters are needed, the one that pins make of it.  What a system is found to
be and what is listed follow from the answer.
-/

namespace EquationSolver

open Reduction (Settings)
open Solution (listed? IsDropped)

/-! ### Answers of the linear solver -/

namespace Linear

/-- What each answer to a linear system rests on. -/
inductive Answers (settings : ReductionTarget → Settings) (definitions : Definitions)
    (count : Nat) (rows : List (List Term)) : LinearAnswer → Prop
  | undefined {m echelon : SymbolicMatrix} (hm : SymbolicMatrix.ofRows rows = .ok m)
      (hrank : (m.rank (settings .approximation) definitions).value = (echelon, none)) :
      Answers settings definitions count rows .undefined
  | inconsistent {m echelon : SymbolicMatrix} {rank : Nat}
      (hm : SymbolicMatrix.ofRows rows = .ok m)
      (hrank : (m.rank (settings .approximation) definitions).value = (echelon, some rank))
      (hcontradiction : ∃ row ∈ echelon.rows,
        isContradiction (settings .approximation) count row = true) :
      Answers settings definitions count rows .inconsistent
  | unique {m echelon : SymbolicMatrix} {found : List Term}
      (hm : SymbolicMatrix.ofRows rows = .ok m)
      (hrank : (m.rank (settings .approximation) definitions).value = (echelon, some count))
      (hconsistent : ∀ row ∈ echelon.rows,
        isContradiction (settings .approximation) count row = false)
      (hcount : 0 < count) (hvalues : values count echelon = .ok found) :
      Answers settings definitions count rows (.unique found)
  | unresolved {m echelon : SymbolicMatrix} {rank : Nat}
      (hm : SymbolicMatrix.ofRows rows = .ok m)
      (hrank : (m.rank (settings .approximation) definitions).value = (echelon, some rank))
      (hsubtracts : SubtractsRank (settings .approximation) count echelon rank) :
      Answers settings definitions count rows .unresolved
  | parametric {m echelon pinned : SymbolicMatrix} {rank : Nat} {found : List Term}
      (hm : SymbolicMatrix.ofRows rows = .ok m)
      (hrank : (m.rank (settings .approximation) definitions).value = (echelon, some rank))
      (hsubtracts : SubtractsRank (settings .approximation) count echelon rank)
      (hpinned : (pinFree { settings .analysis with symbols := .keepAll } definitions count
        (count - rank) (count - rank) 0 rank echelon).run.value = .ok (some pinned))
      (hvalues : values count pinned = .ok found) :
      Answers settings definitions count rows (.parametric found)

variable {settings : ReductionTarget → Settings} {definitions : Definitions} {count : Nat}
  {rows : List (List Term)}

theorem ensures_solve : (solve settings definitions count rows).Ensures
    (Answers settings definitions count rows) := by
  unfold solve
  refine CheckedBuild.ensures_except_bind fun m hm => ?_
  apply CheckedBuild.ensures_build_bind
  split
  case h_1 echelon hrank => exact CheckedBuild.ensures_pure (.undefined hm hrank)
  case h_2 echelon rank hrank =>
    by_cases hcontradiction :
        echelon.rows.any (isContradiction (settings .approximation) count) = true
    · rw [if_pos hcontradiction]
      exact CheckedBuild.ensures_pure (.inconsistent hm hrank (List.any_eq_true.1 hcontradiction))
    · rw [if_neg hcontradiction]
      have hnone := Bool.eq_false_iff.2 hcontradiction
      by_cases hunique : rank = count ∧ 0 < count
      · rw [if_pos hunique]
        obtain ⟨rfl, hcount⟩ := hunique
        refine CheckedBuild.ensures_except_bind fun found hvalues => ?_
        refine CheckedBuild.ensures_pure (.unique hm hrank ?_ hcount hvalues)
        exact fun row hrow => by simpa using List.any_eq_false.1 hnone row hrow
      · rw [if_neg hunique]
        have hsubtracts : SubtractsRank (settings .approximation) count echelon rank :=
          ⟨hnone, hunique⟩
        refine CheckedBuild.Ensures.bind (fun found hfound => hfound) fun found hpinned => ?_
        cases found with
        | none => exact CheckedBuild.ensures_pure (.unresolved hm hrank hsubtracts)
        | some pinned =>
          refine CheckedBuild.ensures_except_bind fun found hvalues => ?_
          exact CheckedBuild.ensures_pure (.parametric hm hrank hsubtracts hpinned hvalues)

/-- The values are the entries in the column of the constants. -/
theorem of_values_eq_ok {m : SymbolicMatrix} {found : List Term}
    (h : values count m = .ok found) :
    found.length = count ∧ ∀ i < count, ∃ t, found[i]? = some t ∧ m.entry? i count = some t := by
  have hentries : List.Forall₂ (fun i t => m.entry? i count = some t) (List.range count) found := by
    refine (forall₂_of_mapM_eq_ok h).imp fun i t ht => ?_
    split at ht
    · cases ht
      assumption
    · cases ht
  have hlength : found.length = count := by
    simpa using (List.Forall₂.length_eq hentries).symm
  refine ⟨hlength, fun i hi => ?_⟩
  have hget := List.Forall₂.get hentries (by simpa using hi) (by omega)
  refine ⟨found[i], List.getElem?_eq_getElem (by omega), by simpa using hget⟩

end Linear

/-! ### What is reported of a system -/

namespace Attempt

variable (preferences : Preferences) (settings : SolverSettings) (definitions : Definitions)

/-- The settings under which a value is shown, and the way: as it is, or by parameters. -/
def showing (attempt : Attempt Term) (hasMore : Bool) : Settings × SolutionType :=
  let user := attempt.reduction preferences .user
  if hasMore then ({ user with symbols := .keepAll }, .formal) else (user, .exact)

/-- The solution that the value of an unknown is listed as, if it is. -/
def listedValue? (attempt : Attempt Term) (hasMore : Bool) (t : Term) :
    Option (Solution Term) :=
  listed? (attempt.showing preferences hasMore).1 definitions (displayPolicy preferences settings)
    (attempt.showing preferences hasMore).2 t

/-- The value of an unknown is dropped, since its approximate value is not real. -/
def DropsValue (attempt : Attempt Term) (hasMore : Bool) (t : Term) : Prop :=
  IsDropped (attempt.showing preferences hasMore).1 definitions t

/-- The values are listed in their order, as far as they are not dropped. -/
structure Lists (attempt : Attempt Term) (hasMore : Bool) (values : List Term)
    (found : Attempt Term) : Prop where
  hasMore_eq : found.hasMore = hasMore
  solutions_eq : found.registry.solutions =
    values.filterMap (attempt.listedValue? preferences settings definitions hasMore)
  dropped_iff : ∀ t ∈ values, attempt.listedValue? preferences settings definitions hasMore t = none ↔
    attempt.DropsValue preferences definitions hasMore t

/-- What is reported of a system that is solved, by the answer to it. -/
inductive Reports (attempt : Attempt Term) : LinearAnswer → Attempt Term → Prop
  | inconsistent {found : Attempt Term} (hmore : found.hasMore = false)
      (hnone : found.registry.solutions = []) : Reports attempt .inconsistent found
  | unique {values : List Term} {found : Attempt Term}
      (hlists : attempt.Lists preferences settings definitions false values found) :
      Reports attempt (.unique values) found
  | parametric {values : List Term} {found : Attempt Term}
      (hlists : attempt.Lists preferences settings definitions true values found) :
      Reports attempt (.parametric values) found

variable {preferences settings definitions}

/-- Registering the values of the unknowns lists them. -/
theorem ensures_registerAll_lists (attempt registering : Attempt Term)
    (hempty : registering.registry.solutions = []) (values : List Term) :
    (registering.registerAll preferences settings definitions
      (attempt.showing preferences registering.hasMore).1
      (attempt.showing preferences registering.hasMore).2 values).Ensures fun found =>
        found.attempt.kind = registering.kind ∧
        (found.result = .ok .solved →
          attempt.Lists preferences settings definitions registering.hasMore values found.attempt) := by
  have htype : (attempt.showing preferences registering.hasMore).2 ≠ .approximate := by
    unfold showing
    cases registering.hasMore <;> exact SolutionType.noConfusion
  intro found hvalue
  have hfound := ensures_registerAll registering _ _ values found hvalue
  have hlisted := ensures_registerAll_listed registering hempty htype values found hvalue
  rw [hfound]
  exact ⟨rfl, fun hresult => ⟨rfl, (hlisted hresult).1, (hlisted hresult).2⟩⟩

/-- A system that is solved as a linear one has an answer, which is reported. -/
theorem ensures_solveRows {attempt : Attempt Term} (hempty : attempt.registry.solutions = [])
    (rows : List (List Term)) :
    (attempt.solveRows preferences settings definitions rows).Ensures fun found =>
      found.attempt.kind = some .linear ∧
      (found.result = .ok .solved → ∃ answer,
        Linear.Answers (attempt.reduction preferences) definitions
          attempt.unknowns.items.length rows answer ∧
        attempt.Reports preferences settings definitions answer found.attempt) := by
  unfold solveRows
  refine Linear.ensures_solve.bind fun answer hanswer => ?_
  cases answer with
  | undefined => exact CheckedBuild.ensures_pure ⟨rfl, fun h => nomatch h⟩
  | unresolved => exact CheckedBuild.ensures_pure ⟨rfl, fun h => nomatch h⟩
  | inconsistent =>
    exact CheckedBuild.ensures_pure ⟨rfl, fun _ => ⟨_, hanswer, .inconsistent rfl hempty⟩⟩
  | unique values =>
    refine (ensures_registerAll_lists attempt
      { attempt with kind := some .linear, hasMore := false } hempty values).mono ?_
    rintro found ⟨hkind, hlists⟩
    exact ⟨hkind, fun hresult => ⟨_, hanswer, .unique (hlists hresult)⟩⟩
  | parametric values =>
    refine (ensures_registerAll_lists attempt
      { attempt with kind := some .linear, hasMore := true } hempty values).mono ?_
    rintro found ⟨hkind, hlists⟩
    exact ⟨hkind, fun hresult => ⟨_, hanswer, .parametric (hlists hresult)⟩⟩

/-- A system with a pivot for each unknown and no contradiction comes to what registering the
    values of the unknowns comes to. -/
theorem value_solveForms_of_unique {attempt : Attempt Term} {forms : List Term}
    {m echelon : SymbolicMatrix} {values : List Term} {registry : SolutionRegistry Term}
    {refusal : Option SolverError}
    (h : attempt.HasRank preferences definitions forms m echelon attempt.unknownCount)
    (hconsistent : echelon.rows.any (Linear.isContradiction
      (attempt.reduction preferences .approximation) attempt.unknownCount) = false)
    (hcount : 0 < attempt.unknownCount)
    (hvalues : Linear.values attempt.unknownCount echelon = .ok values)
    (hregistered : (attempt.registry.addTerms (attempt.reduction preferences .user) definitions
      (displayPolicy preferences settings) .exact values).run.value = .ok (registry, refusal))
    (hrefusal : refusal ≠ some .nonlinearSystem) :
    (attempt.solveForms preferences settings definitions forms).run.value =
      .ok ⟨{ attempt with kind := some .linear, hasMore := false, registry },
        match refusal with
        | some e => .error e
        | none => .ok .solved⟩ := by
  obtain ⟨rows, hrows, hm⟩ := h.exists_rows
  have hsolve : (Linear.solve (attempt.reduction preferences) definitions
      attempt.unknowns.items.length rows).run.value = .ok (.unique values) := by
    unfold Linear.solve
    rw [CheckedBuild.value_except_bind hm, CheckedBuild.value_build_bind, h.rank_eq]
    dsimp only
    rw [if_neg (Bool.not_eq_true _ ▸ hconsistent), if_pos ⟨rfl, hcount⟩]
    exact CheckedBuild.value_except_bind hvalues _
  have hlinear : (attempt.solveLinear preferences settings definitions forms).run.value =
      .ok ⟨{ attempt with kind := some .linear, hasMore := false, registry },
        match refusal with
        | some e => .error e
        | none => .ok .solved⟩ := by
    unfold solveLinear
    rw [CheckedBuild.value_build_bind, hrows]
    dsimp only
    unfold solveRows
    rw [CheckedBuild.value_bind_of_ok hsolve]
    dsimp only
    unfold registerAll
    rw [CheckedBuild.value_bind_of_ok hregistered]
    cases refusal <;> rfl
  unfold solveForms
  rw [CheckedBuild.value_bind_of_ok hlinear]
  cases refusal with
  | none => rfl
  | some e =>
    cases e with
    | nonlinearSystem => exact absurd rfl hrefusal
    | _ => rfl

/-- A system with a pivot for each unknown and no contradiction is solved, with the values of the
    unknowns listed, when none of these is refused and there is room for them. -/
theorem value_solveForms_of_values {attempt : Attempt Term} {forms : List Term}
    {m echelon : SymbolicMatrix} {values : List Term}
    (h : attempt.HasRank preferences definitions forms m echelon attempt.unknownCount)
    (hconsistent : echelon.rows.any (Linear.isContradiction
      (attempt.reduction preferences .approximation) attempt.unknownCount) = false)
    (hcount : 0 < attempt.unknownCount)
    (hvalues : Linear.values attempt.unknownCount echelon = .ok values)
    (haccepted : ∀ t ∈ values, ∃ solution,
      (Solution.ofTerm? (attempt.reduction preferences .user) definitions
        (displayPolicy preferences settings) .exact t).value = .ok solution)
    (hroom : attempt.registry.solutions.length + values.length < maxSolutions) :
    (attempt.solveForms preferences settings definitions forms).run.value =
      .ok ⟨{ attempt with
        kind := some .linear
        hasMore := false
        registry := ⟨attempt.registry.solutions ++
          values.filterMap (attempt.listedValue? preferences settings definitions false)⟩ },
        .ok .solved⟩ :=
  value_solveForms_of_unique h hconsistent hcount hvalues
    (SolutionRegistry.value_addTerms attempt.registry haccepted hroom) nofun

end Attempt

end EquationSolver
