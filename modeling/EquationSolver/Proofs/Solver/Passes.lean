import EquationSolver.Proofs.Solver.Dispatch
import EquationSolver.Proofs.Solver.Registration
import EquationSolver.Proofs.Solver.Sides

/-!
# The two passes of an exact solve

Each pass reads the equations on its own; the second starts from nothing but the context that
the first has left behind.  What solving finds out does not touch what was read, so the adopted
attempt tells by its flag which pass it comes from.  The first pass stands when it has solved
the system and the second has nothing better: it has found solutions already, or the second
ends in an error.
-/

namespace EquationSolver

open Reduction (Settings)

namespace Attempt

variable {preferences : Preferences} {settings : SolverSettings} {definitions : Definitions}

/-! ### What solving leaves alone -/

/-- What was read is the same; the kind, the solutions and whether there are more may differ. -/
structure SameReading (attempt found : Attempt Term) : Prop where
  keepsDefined : found.keepsDefined = attempt.keepsDefined
  complexFormat : found.complexFormat = attempt.complexFormat
  unknowns : found.unknowns = attempt.unknowns
  userVariables : found.userVariables = attempt.userVariables

theorem SameReading.refl (attempt : Attempt Term) : attempt.SameReading attempt :=
  ⟨rfl, rfl, rfl, rfl⟩

theorem SameReading.trans {attempt found last : Attempt Term} (h : attempt.SameReading found)
    (h' : found.SameReading last) : attempt.SameReading last where
  keepsDefined := h'.keepsDefined.trans h.keepsDefined
  complexFormat := h'.complexFormat.trans h.complexFormat
  unknowns := h'.unknowns.trans h.unknowns
  userVariables := h'.userVariables.trans h.userVariables

/-- Neither the kind nor the flag of further solutions was read. -/
theorem SameReading.of_with (attempt : Attempt Term) {found : Attempt Term}
    {kind : Option SystemKind} {hasMore : Bool} (h : SameReading { attempt with kind, hasMore } found) :
    attempt.SameReading found :=
  ⟨h.keepsDefined, h.complexFormat, h.unknowns, h.userVariables⟩

theorem ensures_registerAll_sameReading (attempt : Attempt Term) (s : Settings)
    (type : SolutionType) (terms : List Term) :
    (attempt.registerAll preferences settings definitions s type terms).Ensures fun found =>
      attempt.SameReading found.attempt :=
  (ensures_registerAll attempt s type terms).mono fun found hfound => by
    rw [hfound]
    exact ⟨rfl, rfl, rfl, rfl⟩

theorem ensures_solveRows_sameReading (attempt : Attempt Term) (rows : List (List Term)) :
    (attempt.solveRows preferences settings definitions rows).Ensures fun found =>
      attempt.SameReading found.attempt := by
  unfold solveRows
  refine CheckedBuild.Ensures.bind (P := fun _ => True) (fun _ _ => trivial) ?_
  intro answer _
  cases answer with
  | undefined => exact CheckedBuild.ensures_pure ⟨rfl, rfl, rfl, rfl⟩
  | inconsistent => exact CheckedBuild.ensures_pure ⟨rfl, rfl, rfl, rfl⟩
  | unresolved => exact CheckedBuild.ensures_pure ⟨rfl, rfl, rfl, rfl⟩
  | unique values =>
    exact (ensures_registerAll_sameReading _ _ _ values).mono fun _ h => .of_with attempt h
  | parametric values =>
    exact (ensures_registerAll_sameReading _ _ _ values).mono fun _ h => .of_with attempt h

theorem ensures_solveLinear_sameReading (attempt : Attempt Term) (forms : List Term) :
    (attempt.solveLinear preferences settings definitions forms).Ensures fun found =>
      attempt.SameReading found.attempt := by
  unfold solveLinear
  apply CheckedBuild.ensures_build_bind
  split
  · exact CheckedBuild.ensures_pure (.refl attempt)
  · exact ensures_solveRows_sameReading attempt _

theorem ensures_registerRoots_sameReading (attempt : Attempt Term) (roots : PolynomialRoots) :
    (attempt.registerRoots preferences settings definitions roots).Ensures fun found =>
      attempt.SameReading found.attempt := by
  unfold registerRoots
  refine (ensures_registerAll_sameReading attempt _ _ roots.roots).bind fun found hfound => ?_
  split
  · exact CheckedBuild.ensures_pure hfound
  · apply CheckedBuild.ensures_build_bind
    exact (ensures_registerAll_sameReading found.attempt _ _ _).mono fun _ h => hfound.trans h

theorem ensures_solvePolynomial_sameReading (attempt : Attempt Term) (unknown : String)
    (form : Term) :
    (attempt.solvePolynomial preferences settings definitions unknown form).Ensures fun found =>
      attempt.SameReading found.attempt := by
  unfold solvePolynomial
  apply CheckedBuild.ensures_build_bind
  split
  · exact (ensures_registerRoots_sameReading _ _).mono fun _ h => .of_with attempt h
  · exact CheckedBuild.ensures_pure ⟨rfl, rfl, rfl, rfl⟩

theorem ensures_solveForms_sameReading (attempt : Attempt Term) (forms : List Term) :
    (attempt.solveForms preferences settings definitions forms).Ensures fun found =>
      attempt.SameReading found.attempt := by
  unfold solveForms
  refine (ensures_solveLinear_sameReading attempt forms).bind fun linear hlinear => ?_
  split
  · exact (ensures_solvePolynomial_sameReading linear.attempt _ _).mono fun _ h =>
      hlinear.trans h
  · exact CheckedBuild.ensures_pure hlinear

/-! ### What reading leaves alone -/

theorem keepsDefined_addForm (attempt : Attempt Term) (form : Term) :
    (attempt.addForm form).1.keepsDefined = attempt.keepsDefined := by
  unfold addForm
  split <;> rfl

theorem keepsDefined_readEquation (attempt : Attempt Term) (left right : Term) :
    (readEquation preferences definitions attempt left right).value.1.keepsDefined =
      attempt.keepsDefined := by
  unfold readEquation
  simp only [Build.value_bind]
  split <;> exact keepsDefined_addForm _ _

/-- What reading one equation preserves, whatever the definitions are, reading equations does. -/
theorem of_readEquations {P : Attempt Term → Prop}
    (hstep : ∀ (definitions : Definitions) (attempt : Attempt Term) (left right : Term),
      P attempt → P (readEquation preferences definitions attempt left right).value.1) :
    ∀ {equations : List StoredEquation} {attempt attempt' : Attempt Term}
      {context context' : Context} {forms : Except SolverError (List Term)},
      attempt.readEquations preferences context equations = .ok ((attempt', forms), context') →
        P attempt → P attempt'
  | [], attempt, attempt', context, context', forms, h, hattempt => by
    cases h
    exact hattempt
  | equation :: rest, attempt, attempt', context, context', forms, h, hattempt => by
    unfold readEquations at h
    obtain ⟨left, -, h⟩ := exists_of_bind_eq_ok h
    obtain ⟨right, -, h⟩ := exists_of_bind_eq_ok h
    have hnext := hstep context.definedTerms attempt left right hattempt
    generalize hread : context.record
      (readEquation preferences context.definedTerms attempt left right) = read at h
    obtain ⟨⟨next, form⟩, context₁⟩ := read
    rw [show (readEquation preferences context.definedTerms attempt left right).value =
      (next, form) from congrArg Prod.fst hread] at hnext
    cases form with
    | error e =>
      cases h
      exact hnext
    | ok form =>
      obtain ⟨⟨⟨last, found⟩, context₂⟩, hrest, h⟩ := exists_of_bind_eq_ok h
      cases h
      exact of_readEquations hstep hrest hnext

theorem keepsDefined_readEquations {equations : List StoredEquation}
    {attempt attempt' : Attempt Term} {context context' : Context}
    {forms : Except SolverError (List Term)}
    (h : attempt.readEquations preferences context equations = .ok ((attempt', forms), context')) :
    attempt'.keepsDefined = attempt.keepsDefined :=
  of_readEquations (P := fun read => read.keepsDefined = attempt.keepsDefined)
    (fun _ read left right hread => (keepsDefined_readEquation read left right).trans hread) h rfl

end Attempt

/-- An attempt tells whether the defined symbols were unknowns. -/
theorem keepsDefined_ofStore {preferences : Preferences} {settings : SolverSettings}
    {keepsDefined : Bool} {store : EquationStore} {context context' : Context}
    {found : Attempted Handle}
    (h : Attempted.ofStore preferences settings keepsDefined store context =
      .ok (found, context')) : found.attempt.keepsDefined = keepsDefined := by
  unfold Attempted.ofStore at h
  obtain ⟨⟨⟨attempt, forms⟩, context₁⟩, hread, h⟩ := exists_of_bind_eq_ok h
  have hkeeps : attempt.keepsDefined = keepsDefined := Attempt.keepsDefined_readEquations hread
  cases forms with
  | error e =>
    cases h
    exact hkeeps
  | ok forms =>
    obtain ⟨⟨solved, context₂⟩, hsolved, h⟩ := exists_of_bind_eq_ok h
    cases h
    have hsame := Attempt.ensures_solveForms_sameReading attempt forms solved
      (Context.of_recordChecked_eq_ok hsolved).1
    exact hsame.keepsDefined.trans hkeeps

/-! ### Which pass is adopted -/

/-- The passes of an exact solve, and the contexts that they leave behind. -/
structure RunsPasses (preferences : Preferences) (settings : SolverSettings)
    (store : EquationStore) (context : Context) (first second : Attempted Handle)
    (context₁ context₂ : Context) : Prop where
  first_eq : Attempted.ofStore preferences settings false store context = .ok (first, context₁)
  second_eq : Attempted.ofStore preferences settings true store context₁ = .ok (second, context₂)

namespace EquationSystem

variable {first second : Attempted Handle}

theorem isSettled_iff : isSettled first = true ↔
    first.result = .ok .solved ∧ first.attempt.registry.solutions ≠ [] := by
  unfold isSettled
  rcases hresult : first.result with e | outcome
  · simp
  · cases outcome <;> simp

theorem preferred_of_solved {e : SolverError} (h : first.result = .ok .solved)
    (hfails : second.result = .error e) : preferred first second = first := by
  unfold preferred
  rw [h, hfails]

theorem preferred_of_not_solved (h : first.result ≠ .ok .solved) :
    preferred first second = second := by
  unfold preferred
  split
  · exact absurd ‹_› h
  · rfl

theorem preferred_of_ok {outcome : Outcome} (h : second.result = .ok outcome) :
    preferred first second = second := by
  unfold preferred
  rw [h]
  split
  · exact nomatch ‹Except.ok outcome = .error _›
  · rfl

/-- The first pass stands: it has solved the system, and it has found solutions or the second
    pass ends in an error. -/
def FirstStands (first second : Attempted Handle) : Prop :=
  first.result = .ok .solved ∧
    (first.attempt.registry.solutions ≠ [] ∨ ∃ e, second.result = .error e)

/-- Both passes over equations that are in the pool come to their ends. -/
theorem exists_runsPasses (preferences : Preferences) (settings : SolverSettings)
    {store : EquationStore} {context : Context} (h : store.IsLive context.pool) :
    ∃ first second context₁ context₂,
      RunsPasses preferences settings store context first second context₁ context₂ := by
  obtain ⟨⟨first, context₁⟩, hfirst, hextends⟩ := exists_ofStore preferences settings false h
  obtain ⟨⟨second, context₂⟩, hsecond, -⟩ :=
    exists_ofStore preferences settings true (h.mono hextends)
  exact ⟨first, second, context₁, context₂, hfirst, hsecond⟩

/-- Both passes over equations whose sides are among given terms. -/
theorem runsPasses_of_sides {preferences : Preferences} {settings : SolverSettings}
    (ts : List Term) {definitions : Definitions} {sides : List (Term × Term)}
    {first second : Attempted Term}
    (h : ∀ (i : Nat) (hi : i < ts.length), ∀ u ∈ ts[i].children, u ∈ ts.take i)
    (hdefinitions : ∀ d ∈ definitions, d.2 ∈ ts) (hsides : ∀ p ∈ sides, p.1 ∈ ts ∧ p.2 ∈ ts)
    (hfirst : Attempted.ofSides preferences settings false definitions sides = .ok first)
    (hsecond : Attempted.ofSides preferences settings true definitions sides = .ok second) :
    let context := Context.ofTerms ts definitions
    ∃ context₁ context₂, RunsPasses preferences settings
      (EquationStore.ofSides context.pool sides) context
      ⟨first.attempt.map context₁.pool.handleOf, first.result⟩
      ⟨second.attempt.map context₂.pool.handleOf, second.result⟩ context₁ context₂ := by
  intro context
  obtain ⟨hdefines, hterms⟩ := Context.definesTerms_ofTerms ts h hdefinitions
  have hstore : (EquationStore.ofSides context.pool sides).HasSides context.pool sides :=
    EquationStore.hasSides_ofSides ts h hsides
  obtain ⟨context₁, hfirst, hdefines₁, hterms₁, hextends⟩ :=
    ofStore_eq hstore hdefines (hterms.symm ▸ hfirst)
  obtain ⟨context₂, hsecond, -⟩ :=
    ofStore_eq (hstore.extends hextends) hdefines₁ ((hterms₁.trans hterms).symm ▸ hsecond)
  exact ⟨context₁, context₂, hfirst, hsecond⟩

variable {preferences : Preferences} {store : EquationStore} {context context₁ context₂ : Context}

/-- What an exact solve comes to is what one of its passes comes to: the first, or the second,
    which starts from the context that the first has left behind.  The pool is the one that the
    pass has left behind, if there are solutions in it. -/
theorem exists_pass_before {system solved : EquationSystem} {left : Context}
    (h : system.exactSolve preferences store context = .ok (solved, left)) :
    ∃ keepsDefined before after found,
      (keepsDefined = false ∧ before = context ∨ keepsDefined = true ∧
        ∃ first, Attempted.ofStore preferences system.settings false store context =
          .ok (first, before)) ∧
      Attempted.ofStore preferences system.settings keepsDefined store before =
        .ok (found, after) ∧
      solved = system.adopt found ∧
      (found.attempt.registry.solutions ≠ [] → left = after) := by
  unfold exactSolve at h
  obtain ⟨⟨first, context₁⟩, hfirst, h⟩ := exists_of_bind_eq_ok h
  dsimp only at h
  by_cases hsettled : isSettled first = true
  · rw [if_pos hsettled] at h
    cases h
    exact ⟨false, context, left, first, .inl ⟨rfl, rfl⟩, hfirst, rfl, fun _ => rfl⟩
  · rw [if_neg hsettled] at h
    obtain ⟨⟨second, context₂⟩, hsecond, h⟩ := exists_of_bind_eq_ok h
    cases h
    by_cases hsolved : first.result = .ok .solved
    · cases hresult : second.result with
      | error e =>
        rw [preferred_of_solved hsolved hresult]
        refine ⟨false, context, context₁, first, .inl ⟨rfl, rfl⟩, hfirst, rfl, fun hfound => ?_⟩
        exact absurd (isSettled_iff.2 ⟨hsolved, hfound⟩) hsettled
      | ok outcome =>
        rw [preferred_of_ok hresult]
        exact ⟨true, context₁, context₂, second, .inr ⟨rfl, first, hfirst⟩, hsecond, rfl,
          fun _ => rfl⟩
    · rw [preferred_of_not_solved hsolved]
      exact ⟨true, context₁, context₂, second, .inr ⟨rfl, first, hfirst⟩, hsecond, rfl,
        fun _ => rfl⟩

/-- An exact solve adopts the first pass if that stands, and otherwise the second. -/
theorem exactSolve_of_runsPasses (system : EquationSystem)
    (h : RunsPasses preferences system.settings store context first second context₁ context₂) :
    ∃ solved left, system.exactSolve preferences store context = .ok (solved, left) ∧
      (FirstStands first second → solved = system.adopt first) ∧
      (¬FirstStands first second → solved = system.adopt second ∧ left = context₂) := by
  unfold exactSolve
  rw [h.first_eq]
  show ∃ solved left, (if isSettled first then _ else _) = Except.ok (solved, left) ∧ _
  by_cases hsettled : isSettled first = true
  · rw [if_pos hsettled]
    obtain ⟨hsolved, hfound⟩ := isSettled_iff.1 hsettled
    exact ⟨_, _, rfl, fun _ => rfl, fun hnot => absurd ⟨hsolved, .inl hfound⟩ hnot⟩
  · rw [if_neg hsettled, h.second_eq]
    refine ⟨_, _, rfl, ?_, fun hnot => ⟨congrArg system.adopt ?_, rfl⟩⟩
    · rintro ⟨hsolved, hfound | ⟨e, he⟩⟩
      · exact absurd (isSettled_iff.2 ⟨hsolved, hfound⟩) hsettled
      · rw [preferred_of_solved hsolved he]
    · by_cases hsolved : first.result = .ok .solved
      · cases hsecond : second.result with
        | error e => exact absurd ⟨hsolved, .inr ⟨e, hsecond⟩⟩ hnot
        | ok outcome => exact preferred_of_ok hsecond
      · exact preferred_of_not_solved hsolved

/-- A retry that fails never loses a first pass that has solved the system.  Both passes of an
    exact solve come to their ends, and so does the solve.  When the first has solved the
    system, with or without solutions, and the second ends in an error, the result and the
    attempt are those of the first; they are whenever the first pass stands, and those of the
    second otherwise.  So the attempt tells which pass it is from, and the solve ends in an
    error only if the second pass does and the first has not solved the system. -/
theorem exactSolve_keeps_solved (system : EquationSystem) (preferences : Preferences)
    (store : EquationStore) (context : Context) (hlive : store.IsLive context.pool) :
    ∃ first second context₁ context₂ solved left,
      RunsPasses preferences system.settings store context first second context₁ context₂ ∧
      system.exactSolve preferences store context = .ok (solved, left) ∧
      (∀ e, first.result = .ok .solved → second.result = .error e →
        solved.lastResult = some (.ok .solved) ∧ solved.attempt = first.attempt) ∧
      (FirstStands first second → solved = system.adopt first) ∧
      (¬FirstStands first second → solved = system.adopt second ∧ left = context₂) ∧
      (solved.attempt.keepsDefined = false ↔ FirstStands first second) ∧
      (∀ e, solved.lastResult = some (.error e) ↔
        second.result = .error e ∧ first.result ≠ .ok .solved) := by
  obtain ⟨first, second, context₁, context₂, hpasses⟩ :=
    exists_runsPasses preferences system.settings hlive
  obtain ⟨solved, left, hsolve, hfirst, hsecond⟩ := exactSolve_of_runsPasses system hpasses
  refine ⟨first, second, context₁, context₂, solved, left, hpasses, hsolve, ?_, hfirst, hsecond,
    ?_, ?_⟩
  · intro e hsolved he
    rw [hfirst ⟨hsolved, .inr ⟨e, he⟩⟩]
    exact ⟨congrArg some hsolved, rfl⟩
  · by_cases hstands : FirstStands first second
    · rw [hfirst hstands]
      exact iff_of_true (keepsDefined_ofStore hpasses.first_eq) hstands
    · rw [(hsecond hstands).1]
      have hkept : second.attempt.keepsDefined = true := keepsDefined_ofStore hpasses.second_eq
      exact iff_of_false (by simp [adopt, hkept]) hstands
  · intro e
    by_cases hstands : FirstStands first second
    · rw [hfirst hstands]
      refine iff_of_false ?_ fun h => h.2 hstands.1
      simp [adopt, hstands.1]
    · rw [(hsecond hstands).1]
      refine ⟨fun h => ⟨Option.some.inj h, fun hsolved => hstands ⟨hsolved, .inr ⟨e, ?_⟩⟩⟩,
        fun h => congrArg some h.1⟩
      exact Option.some.inj h

/-! ### A first pass that is kept -/

/-- The value of `a` and the sides of `a * x = 1`, with their parts. -/
def productSides : List Term :=
  [.number 0, .symbol "a", .symbol "x", .product [.symbol "a", .symbol "x"], .number 1]

/-- Where `a` is defined as a number, it is replaced and `x` is left. -/
theorem reduceSymbol_replaced {s : Settings} (hs : s.symbols = .replaceDefined) (n : Rat) :
    Reduction.reduceSymbol s [("a", .number n)] 1 [] "x" = pure (.symbol "x") ∧
      Reduction.reduceSymbol s [("a", .number n)] 1 [] "a" = pure (.number n) :=
  ⟨Reduction.reduceSymbol_of_undefined rfl s 1 [],
    Reduction.reduceSymbol_of_number hs rfl List.not_mem_nil 0⟩

/-- With `a` replaced by zero, `a * x = 1` says that minus one is zero. -/
theorem standardForm_product_replaced :
    (standardForm ((Attempt.initial {} false).reduction {} .analysis) [("a", .number 0)]
      (.product [.symbol "a", .symbol "x"]) (.number 1)).value = .number (-1) := by
  have hreduced : ∀ s : Settings, s.symbols = .replaceDefined →
      (standardForm s [("a", .number 0)] (.product [.symbol "a", .symbol "x"]) (.number 1)).value =
        (Reduction.add [(Reduction.mul s [.number 0, .symbol "x"]).value,
          (Reduction.mul s [.number (-1), .number 1]).value]).value := by
    intro s hs
    obtain ⟨hx, ha⟩ := reduceSymbol_replaced hs 0
    simp [standardForm, Build.difference, Term.sumOf, Reduction.reduce, Reduction.reduceWith,
      Reduction.reduceTerm, Reduction.reduceTerms, Reduction.value_remember_of_none, hx, ha]
  rw [hreduced _ rfl]
  decide +kernel

theorem standardForm_product_kept (keepsDefined : Bool) :
    (standardForm
      { (Attempt.initial {} keepsDefined).reduction {} .analysis with symbols := .keepAll }
      [("a", .number 0)] (.product [.symbol "a", .symbol "x"]) (.number 1)).value =
        .sum [.product [.symbol "a", .symbol "x"], .number (-1)] := by
  rw [standardForm_keepAll rfl]
  cases keepsDefined <;> decide +kernel

/-- The first pass over `a * x = 1` finds that there is no solution. -/
theorem ofSides_product_replaced :
    Attempted.ofSides {} {} false [("a", .number 0)]
        [(.product [.symbol "a", .symbol "x"], .number 1)] =
      .ok ⟨{ Attempt.initial {} false with kind := some .linear, userVariables := ⟨["a"], 6⟩ },
        .ok .solved⟩ := by
  have hread : (Attempt.initial {} false).readSides {} [("a", .number 0)]
      [(.product [.symbol "a", .symbol "x"], .number 1)] =
        ({ Attempt.initial {} false with userVariables := ⟨["a"], 6⟩ }, .ok [.number (-1)]) := by
    refine Attempt.readSides_singleton ?_
    rw [Attempt.value_readEquation, standardForm_product_kept, standardForm_product_replaced]
    rfl
  have hreduced : ∀ s : Settings, (SymbolicMatrix.reduce s [("a", .number 0)]
      ⟨[[.negation (.number (-1))]], 1⟩).value = ⟨[[(Reduction.mul s
        [.number (-1), .number (-1)]).value]], 1⟩ := by
    intro s
    simp [SymbolicMatrix.reduce, SymbolicMatrix.entries, SymbolicMatrix.rowCount,
      SymbolicMatrix.pieces, Reduction.reduceAll, Reduction.reduceTerms, Reduction.reduceTerm,
      Reduction.value_remember_of_none]
  have hrank : { Attempt.initial {} false with userVariables := ⟨["a"], 6⟩ }.HasRank {}
      [("a", .number 0)] [.number (-1)] ⟨[[.negation (.number (-1))]], 1⟩ ⟨[[.number 1]], 1⟩ 1 := by
    refine ⟨⟨[[.negation (.number (-1))]], by decide +kernel, rfl⟩, ?_⟩
    refine SymbolicMatrix.value_rank (hreduced _) ?_ (by decide +kernel) rfl
    decide +kernel
  rw [Attempted.ofSides_of_ok hread]
  exact Attempt.value_solveForms_of_contradiction hrank rfl

/-- The second pass over `a * x = 1` fails. -/
theorem ofSides_product_kept :
    Attempted.ofSides {} {} true [("a", .number 0)]
        [(.product [.symbol "a", .symbol "x"], .number 1)] =
      .ok ⟨{ Attempt.initial {} true with
        unknowns := ⟨["a", "x"], 6⟩, userVariables := ⟨["a"], 6⟩ }, .error .nonlinearSystem⟩ := by
  have hread : (Attempt.initial {} true).readSides {} [("a", .number 0)]
      [(.product [.symbol "a", .symbol "x"], .number 1)] =
        ({ Attempt.initial {} true with unknowns := ⟨["a", "x"], 6⟩, userVariables := ⟨["a"], 6⟩ },
          .ok [.sum [.product [.symbol "a", .symbol "x"], .number (-1)]]) := by
    refine Attempt.readSides_singleton ?_
    rw [Attempt.value_readEquation, standardForm_product_kept]
    rfl
  rw [Attempted.ofSides_of_ok hread]
  exact Attempt.value_solveForms_of_nonlinear rfl (by decide)

/-- The first pass over `a * x = 1` is kept: there is no solution with `a` zero, and with `a` an
    unknown the solve fails. -/
theorem exactSolve_keeps_solved_product :
    let context := Context.ofTerms productSides [("a", .number 0)]
    let store := EquationStore.ofSides context.pool
      [(.product [.symbol "a", .symbol "x"], .number 1)]
    store.IsLive context.pool ∧
    ∃ solved left, (unsolved {} {}).exactSolve {} store context = .ok (solved, left) ∧
      solved.lastResult = some (.ok .solved) ∧ solved.attempt.keepsDefined = false := by
  intro context store
  have hlive : store.IsLive context.pool :=
    (EquationStore.hasSides_ofSides productSides (by decide) (by decide)).isLive
  obtain ⟨context₁, context₂, hpasses⟩ := runsPasses_of_sides productSides (by decide) (by decide)
    (by decide) ofSides_product_replaced ofSides_product_kept
  obtain ⟨first, second, _, _, solved, left, hruns, hsolve, hkeeps, -, -, hfirst, -⟩ :=
    exactSolve_keeps_solved (unsolved {} {}) {} store context hlive
  cases hruns.first_eq.symm.trans hpasses.first_eq
  cases hruns.second_eq.symm.trans hpasses.second_eq
  exact ⟨hlive, solved, left, hsolve, (hkeeps _ rfl rfl).1, hfirst.2 ⟨rfl, .inr ⟨_, rfl⟩⟩⟩

/-! ### A first pass that is lost -/

/-- The value of `a` and the sides of `cos(x) = a`, with their parts. -/
def cosineSides : List Term :=
  [.number 1, .symbol "x", .apply .cos (.symbol "x"), .symbol "a"]

/-- With `a` replaced, `cos(x) = a` is an equation in `x`. -/
theorem standardForm_cosine_replaced :
    (standardForm ((Attempt.initial {} false).reduction {} .analysis) [("a", .number 1)]
      (.apply .cos (.symbol "x")) (.symbol "a")).value =
        .sum [.apply .cos (.symbol "x"), .number (-1)] := by
  have hreduced : ∀ s : Settings, s.symbols = .replaceDefined →
      (standardForm s [("a", .number 1)] (.apply .cos (.symbol "x")) (.symbol "a")).value =
        (Reduction.add [(Reduction.apply s .cos (.symbol "x")).value,
          (Reduction.mul s [.number (-1), .number 1]).value]).value := by
    intro s hs
    obtain ⟨hx, ha⟩ := reduceSymbol_replaced hs 1
    simp [standardForm, Build.difference, Term.sumOf, Reduction.reduce, Reduction.reduceWith,
      Reduction.reduceTerm, Reduction.reduceTerms, Reduction.value_remember_of_none, hx, ha]
  rw [hreduced _ rfl]
  decide +kernel

/-- With `a` kept, `cos(x) = a` is an equation in `a` and `x`. -/
theorem standardForm_cosine_kept (keepsDefined : Bool) :
    (standardForm
      { (Attempt.initial {} keepsDefined).reduction {} .analysis with symbols := .keepAll }
      [("a", .number 1)] (.apply .cos (.symbol "x")) (.symbol "a")).value =
        .sum [.product [.number (-1), .symbol "a"], .apply .cos (.symbol "x")] := by
  rw [standardForm_keepAll rfl]
  cases keepsDefined <;> decide +kernel

/-- The first pass over `cos(x) = a` asks for a numeric search. -/
theorem ofSides_cosine_replaced :
    Attempted.ofSides {} {} false [("a", .number 1)] [(.apply .cos (.symbol "x"), .symbol "a")] =
      .ok ⟨{ Attempt.initial {} false with
        kind := some (.general "x" ⟨-10, 10⟩), unknowns := ⟨["x"], 6⟩, userVariables := ⟨["a"], 6⟩ },
        .ok .needsApproximation⟩ := by
  have hread : (Attempt.initial {} false).readSides {} [("a", .number 1)]
      [(.apply .cos (.symbol "x"), .symbol "a")] =
        ({ Attempt.initial {} false with unknowns := ⟨["x"], 6⟩, userVariables := ⟨["a"], 6⟩ },
          .ok [.sum [.apply .cos (.symbol "x"), .number (-1)]]) := by
    refine Attempt.readSides_singleton ?_
    rw [Attempt.value_readEquation, standardForm_cosine_kept, standardForm_cosine_replaced]
    rfl
  rw [Attempted.ofSides_of_ok hread]
  exact Attempt.value_solveForms_of_general rfl rfl rfl

/-- The second pass over `cos(x) = a` fails. -/
theorem ofSides_cosine_kept :
    Attempted.ofSides {} {} true [("a", .number 1)] [(.apply .cos (.symbol "x"), .symbol "a")] =
      .ok ⟨{ Attempt.initial {} true with
        unknowns := ⟨["a", "x"], 6⟩, userVariables := ⟨["a"], 6⟩ }, .error .nonlinearSystem⟩ := by
  have hread : (Attempt.initial {} true).readSides {} [("a", .number 1)]
      [(.apply .cos (.symbol "x"), .symbol "a")] =
        ({ Attempt.initial {} true with unknowns := ⟨["a", "x"], 6⟩, userVariables := ⟨["a"], 6⟩ },
          .ok [.sum [.product [.number (-1), .symbol "a"], .apply .cos (.symbol "x")]]) := by
    refine Attempt.readSides_singleton ?_
    rw [Attempt.value_readEquation, standardForm_cosine_kept]
    rfl
  rw [Attempted.ofSides_of_ok hread]
  exact Attempt.value_solveForms_of_nonlinear rfl (by decide)

/-- A first pass that asks for a numeric search is lost when the second fails: with `a` defined,
    the equation `cos(x) = a` can be searched for roots in `x`, but the solve ends in the error
    of the second pass. -/
theorem exactSolve_loses_search :
    let context := Context.ofTerms cosineSides [("a", .number 1)]
    let store := EquationStore.ofSides context.pool [(.apply .cos (.symbol "x"), .symbol "a")]
    ∃ first second context₁ context₂ solved left,
      RunsPasses {} {} store context first second context₁ context₂ ∧
      first.result = .ok .needsApproximation ∧ second.result = .error .nonlinearSystem ∧
      (unsolved {} {}).exactSolve {} store context = .ok (solved, left) ∧
      solved.lastResult = some (.error .nonlinearSystem) ∧
      solved.attempt.keepsDefined ≠ first.attempt.keepsDefined := by
  intro context store
  obtain ⟨context₁, context₂, hpasses⟩ := runsPasses_of_sides cosineSides (by decide) (by decide)
    (by decide) ofSides_cosine_replaced ofSides_cosine_kept
  obtain ⟨solved, left, hsolve, -, hadopts⟩ :=
    exactSolve_of_runsPasses (unsolved {} {}) hpasses
  obtain ⟨rfl, -⟩ := hadopts fun hstands => nomatch hstands.1
  exact ⟨_, _, context₁, context₂, _, left, hpasses, rfl, rfl, hsolve, rfl,
    by simp [adopt, Attempt.map, Attempt.initial]⟩

end EquationSystem

end EquationSolver
