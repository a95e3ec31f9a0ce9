import EquationSolver.Proofs.Search.Draws
import EquationSolver.Proofs.Solver.Classification

/-!
# Sessions with a system

A session is any sequence of calls on one system, with whatever stores and contexts.  Only an
exact solve classifies the system, so that between two exact solves the kind tells what the
first of them was given and has come to: a polynomial of degree two or three, or a general
equation that a numeric search is asked for, is one equation in one unknown.
-/

namespace EquationSolver

namespace EquationSystem

variable {preferences : Preferences} {store : EquationStore} {context : Context}

/-! ### Exact solves -/

/-- With defined symbols kept as unknowns, a pass over a pool that has grown reads the same
    form. -/
theorem hasOnlyUnknown_of_second {settings : SolverSettings} {before : Context}
    {first : Attempted Handle} {unknown : String}
    (hfirst : Attempted.ofStore preferences settings false store context = .ok (first, before))
    (h : store.HasOnlyUnknown preferences true before unknown) :
    store.HasOnlyUnknown preferences true context unknown := by
  obtain ⟨equation, left, right, hequation, hleft, hright, hmentions⟩ := h
  obtain ⟨left', right', hleft', hright'⟩ : ∃ left' right',
      context.pool.get equation.left = .ok left' ∧ context.pool.get equation.right = .ok right' := by
    unfold Attempted.ofStore at hfirst
    rw [hequation] at hfirst
    obtain ⟨read, hread, -⟩ := exists_of_bind_eq_ok hfirst
    unfold Attempt.readEquations at hread
    obtain ⟨left', hleft', hread⟩ := exists_of_bind_eq_ok hread
    obtain ⟨right', hright', -⟩ := exists_of_bind_eq_ok hread
    exact ⟨left', right', hleft', hright'⟩
  have hlive : store.IsLive context.pool := by
    intro other hother
    rw [hequation, List.mem_singleton] at hother
    exact hother ▸ ⟨⟨left', hleft'⟩, ⟨right', hright'⟩⟩
  have hextends : context.pool.Extends before.pool := by
    obtain ⟨found, hfound, hextends⟩ := exists_ofStore preferences settings false hlive
    cases hfirst.symm.trans hfound
    exact hextends
  cases hleft.symm.trans (hextends.get hleft')
  cases hright.symm.trans (hextends.get hright')
  refine ⟨equation, left, right, hequation, hleft', hright', ?_⟩
  rw [standardForm_keepAll rfl] at hmentions ⊢
  exact hmentions

/-- An exact solve classifies the equations of the store that it is given. -/
theorem exactSolve_classifies {system solved : EquationSystem} {left : Context}
    (h : system.exactSolve preferences store context = .ok (solved, left)) :
    ∃ result, solved.lastResult = some result ∧
      Classifies (fun unknown => solved.attempt.unknowns.items = [unknown] ∧
          store.HasOnlyUnknown preferences solved.attempt.keepsDefined context unknown)
        solved.attempt.kind result ∧
      solved.attempt.registry.HasReserve := by
  obtain ⟨keepsDefined, before, after, found, hbefore, hpass, rfl, -⟩ := exists_pass_before h
  obtain ⟨hclassifies, hroom⟩ := ofStore_classifies hpass
  refine ⟨found.result, rfl, hclassifies.mono ?_, hroom⟩
  rintro unknown ⟨hunknown, honly⟩
  refine ⟨hunknown, ?_⟩
  have hkeeps : (system.adopt found).attempt.keepsDefined = keepsDefined :=
    keepsDefined_ofStore hpass
  rw [hkeeps]
  rcases hbefore with ⟨-, rfl⟩ | ⟨rfl, first, hfirst⟩
  · exact honly
  · exact hasOnlyUnknown_of_second hfirst honly

/-! ### Numeric searches -/

theorem length_addValues (places : List Float) (registry : SolutionRegistry Handle) :
    (places.foldl SolutionRegistry.addValue registry).solutions.length ≤
      registry.solutions.length + places.length := by
  induction places generalizing registry with
  | nil => exact Nat.le_refl _
  | cons x rest ih =>
    have hstep : (registry.addValue x).solutions.length ≤ registry.solutions.length + 1 := by
      unfold SolutionRegistry.addValue
      split_ifs
      · exact (List.length_append ..).le
      · exact Nat.le_succ _
    rw [List.foldl_cons, List.length_cons]
    exact (ih _).trans (by omega)

/-- The roots that are found have room beside the place in reserve. -/
theorem hasReserve_withFound (system : EquationSystem) {scanner : Scanner Float}
    {interval : Interval Float} {f : Float → Float} {found : Found Float}
    (h : searchRoots scanner interval f = some found) :
    (system.withFound found).attempt.registry.HasReserve :=
  (length_addValues _ {}).trans ((Nat.zero_add _).trans_le (Interval.length_places_le h))

/-- The interval can be scanned. -/
def CanScan (settings : SolverSettings) (interval : Interval Float) : Prop :=
  SearchNumber.atMost interval.low interval.high = true ∧ settings.scanner.steps ≠ 0

/-- A scan starts just when it can. -/
theorem start_eq (settings : SolverSettings) (interval : Interval Float) :
    (CanScan settings interval ∧
      ∃ scanner, Scanner.start settings.scanner interval.low interval.high = .ok scanner) ∨
    (¬CanScan settings interval ∧ ∃ fault, (fault = .emptyScanInterval ∨ fault = .noScanSteps) ∧
      Scanner.start settings.scanner interval.low interval.high = .error fault) := by
  unfold CanScan Scanner.start
  cases hbounds : SearchNumber.atMost interval.low interval.high with
  | false => exact .inr ⟨fun h => Bool.noConfusion h.1, _, .inl rfl, rfl⟩
  | true =>
    by_cases hsteps : settings.scanner.steps = 0
    · exact .inr ⟨fun h => h.2 hsteps, _, .inr rfl, if_pos hsteps⟩
    · exact .inl ⟨⟨rfl, hsteps⟩, _, if_neg hsteps⟩

/-- The kind of the system is general, and a store holds one equation. -/
def HasSearch (system : EquationSystem) (store : EquationStore) (interval : Interval Float) :
    Prop :=
  ∃ unknown equation, system.attempt.kind = some (.general unknown interval) ∧
    store.equations = [equation]

/-- The scanner of a numeric search, and the function whose roots it looks for: the two sides of
    the equation in one form, at a place for the unknown. -/
structure Searches (system : EquationSystem) (preferences : Preferences) (store : EquationStore)
    (context : Context) (unknown : String) (interval : Interval Float) (scanner : Scanner Float)
    (f : Float → Float) : Prop where
  start_eq : Scanner.start system.settings.scanner interval.low interval.high = .ok scanner
  form_eq : ∃ equation left right, store.equations = [equation] ∧
    context.pool.get equation.left = .ok left ∧ context.pool.get equation.right = .ok right ∧
      let s := system.attempt.reduction preferences .approximation
      f = (context.record (standardForm s context.definedTerms left right)).1.approximateAt s
        unknown

variable {system searched : EquationSystem} {unknown : String} {interval : Interval Float}
  {scanner : Scanner Float} {f : Float → Float} {left : Context}

theorem approximateSolve_of_not_hasSearch (preferences : Preferences) (context : Context)
    (h : ¬∃ interval, system.HasSearch store interval) :
    (system.approximateSolve preferences store context).run =
      some (.ok (.error .approximationUnavailable, context)) := by
  unfold approximateSolve
  split
  case h_1 unknown interval equation hkind hstore =>
    exact absurd ⟨interval, unknown, equation, hkind, hstore⟩ h
  case h_2 => rfl

/-- A numeric search comes to an end just when the search for the roots does, and then to an
    answer. -/
theorem Searches.run_eq
    (h : system.Searches preferences store context unknown interval scanner f)
    (hkind : system.attempt.kind = some (.general unknown interval)) :
    ∃ left, (system.approximateSolve preferences store context).run =
      (searchRoots scanner interval f).map fun found =>
        .ok (.ok (system.withFound found), left) := by
  obtain ⟨equation, l, r, hstore, hl, hr, rfl⟩ := h.form_eq
  unfold approximateSolve
  rw [hkind, hstore]
  dsimp only
  rw [Unbounded.run_except_bind h.start_eq, Unbounded.run_except_bind hl,
    Unbounded.run_except_bind hr, Unbounded.run_option_bind]
  exact ⟨_, Option.map_eq_bind.symm⟩

/-- With one general equation there is a search when the interval can be scanned and the sides of
    the equation are in the pool, and a fault otherwise. -/
theorem approximateSolve_of_hasSearch (h : system.HasSearch store interval)
    (preferences : Preferences) (context : Context) :
    (CanScan system.settings interval ∧ store.IsLive context.pool ∧ ∃ unknown scanner f,
      system.attempt.kind = some (.general unknown interval) ∧
      system.Searches preferences store context unknown interval scanner f) ∨
    (CanScan system.settings interval ∧ ¬store.IsLive context.pool ∧
      (system.approximateSolve preferences store context).run = some (.error .dangling)) ∨
    (¬CanScan system.settings interval ∧
      ∃ fault, (fault = .emptyScanInterval ∨ fault = .noScanSteps) ∧
        (system.approximateSolve preferences store context).run = some (.error fault)) := by
  obtain ⟨unknown, equation, hkind, hstore⟩ := h
  have hsides (handle : Handle) : (∃ t, context.pool.get handle = .ok t) ∨
      (¬∃ t, context.pool.get handle = .ok t) ∧ context.pool.get handle = .error .dangling := by
    unfold Pool.get
    cases context.pool.get? handle with
    | none => exact .inr ⟨fun ⟨_, h⟩ => (nomatch h), rfl⟩
    | some t => exact .inl ⟨t, rfl⟩
  have hlive : store.IsLive context.pool ↔ equation.IsLive context.pool := by
    unfold EquationStore.IsLive
    rw [hstore, List.forall_mem_singleton]
  unfold approximateSolve
  rw [hkind, hstore, hlive]
  dsimp only
  obtain ⟨hcan, scanner, hscanner⟩ | ⟨hcannot, fault, hfault, hscanner⟩ :=
    start_eq system.settings interval
  · rw [Unbounded.run_except_bind hscanner]
    obtain ⟨left, hleft⟩ | ⟨hleft, hdangling⟩ := hsides equation.left
    · obtain ⟨right, hright⟩ | ⟨hright, hdangling⟩ := hsides equation.right
      · exact .inl ⟨hcan, ⟨⟨left, hleft⟩, ⟨right, hright⟩⟩, unknown, scanner, _, rfl, hscanner,
          equation, left, right, hstore, hleft, hright, rfl⟩
      · rw [Unbounded.run_except_bind hleft, Unbounded.run_except_bind_of_error hdangling]
        exact .inr (.inl ⟨hcan, fun h => hright h.exists_right, rfl⟩)
    · rw [Unbounded.run_except_bind_of_error hdangling]
      exact .inr (.inl ⟨hcan, fun h => hleft h.exists_left, rfl⟩)
  · rw [Unbounded.run_except_bind_of_error hscanner]
    exact .inr (.inr ⟨hcannot, fault, hfault, rfl⟩)

/-- What a numeric search comes to: for which systems and stores it is available, when it comes to
    an answer if it ends, when it does not end, and the fault of what is missing. -/
structure AnswersSearch (system : EquationSystem) (preferences : Preferences)
    (store : EquationStore) (context : Context) : Prop where
  unavailable_iff : (system.approximateSolve preferences store context).run =
      some (.ok (.error .approximationUnavailable, context)) ↔
    ¬∃ interval, system.HasSearch store interval
  /-- A search that ends comes to an answer just when the interval can be scanned and the sides of
      the equation are in the pool. -/
  answers_iff : ∀ result, (system.approximateSolve preferences store context).run = some result →
    ((∃ searched left, result = .ok (.ok searched, left)) ↔
      ∃ interval, system.HasSearch store interval ∧ CanScan system.settings interval ∧
        store.IsLive context.pool)
  /-- It has no end just when its scanner goes on for ever. -/
  endless_iff : (system.approximateSolve preferences store context).run = none ↔
    ∃ unknown interval scanner f, system.attempt.kind = some (.general unknown interval) ∧
      system.Searches preferences store context unknown interval scanner f ∧
      searchRoots scanner interval f = none
  dangling : ∀ interval, system.HasSearch store interval → CanScan system.settings interval →
    ¬store.IsLive context.pool →
      (system.approximateSolve preferences store context).run = some (.error .dangling)
  cannotScan : ∀ interval, system.HasSearch store interval → ¬CanScan system.settings interval →
    ∃ fault, (fault = .emptyScanInterval ∨ fault = .noScanSteps) ∧
      (system.approximateSolve preferences store context).run = some (.error fault)

theorem HasSearch.interval_eq {interval' : Interval Float} (h : system.HasSearch store interval)
    (h' : system.HasSearch store interval') : interval = interval' := by
  obtain ⟨unknown, -, hkind, -⟩ := h
  obtain ⟨unknown', -, hkind', -⟩ := h'
  cases hkind.symm.trans hkind'
  rfl

theorem approximateSolve_spec (system : EquationSystem) (preferences : Preferences)
    (store : EquationStore) (context : Context) :
    system.AnswersSearch preferences store context := by
  have hendless : (∃ unknown interval scanner f,
      system.attempt.kind = some (.general unknown interval) ∧
      system.Searches preferences store context unknown interval scanner f ∧
      searchRoots scanner interval f = none) →
        (system.approximateSolve preferences store context).run = none := by
    rintro ⟨unknown, interval, scanner, f, hkind, hsearches, hnone⟩
    obtain ⟨left, hrun⟩ := hsearches.run_eq hkind
    rw [hrun, hnone]
    rfl
  by_cases hsearch : ∃ interval, system.HasSearch store interval
  · obtain ⟨interval, h⟩ := hsearch
    obtain ⟨hcan, hlive, unknown, scanner, f, hkind, hsearches⟩ | ⟨hcan, hdead, hrun⟩ |
      ⟨hcannot, fault, hfault, hrun⟩ := approximateSolve_of_hasSearch h preferences context
    · obtain ⟨left, hrun⟩ := hsearches.run_eq hkind
      refine ⟨iff_of_false ?_ (not_not_intro ⟨interval, h⟩), fun result hresult => ?_,
        ⟨fun hnone => ?_, hendless⟩, fun _ _ _ hdead => absurd hlive hdead,
        fun _ h' hcannot => absurd hcan (h.interval_eq h' ▸ hcannot)⟩
      · rw [hrun]
        simp
      · rw [hrun] at hresult
        obtain ⟨found, -, rfl⟩ := Option.map_eq_some_iff.1 hresult
        exact iff_of_true ⟨_, _, rfl⟩ ⟨interval, h, hcan, hlive⟩
      · rw [hrun, Option.map_eq_none_iff] at hnone
        exact ⟨unknown, interval, scanner, f, hkind, hsearches, hnone⟩
    · refine ⟨iff_of_false (by simp [hrun]) (not_not_intro ⟨interval, h⟩), fun result hresult => ?_,
        iff_of_false (by simp [hrun]) fun hnone => (nomatch hrun.symm.trans (hendless hnone)),
        fun _ _ _ _ => hrun, fun _ h' hcannot => absurd hcan (h.interval_eq h' ▸ hcannot)⟩
      obtain rfl : .error .dangling = result := Option.some.inj (hrun.symm.trans hresult)
      exact iff_of_false (fun ⟨_, _, h⟩ => nomatch h) fun ⟨_, _, _, hlive⟩ => hdead hlive
    · refine ⟨iff_of_false (by simp [hrun]) (not_not_intro ⟨interval, h⟩), fun result hresult => ?_,
        iff_of_false (by simp [hrun]) fun hnone => (nomatch hrun.symm.trans (hendless hnone)),
        fun _ h' hcan => absurd (h'.interval_eq h ▸ hcan) hcannot,
        fun _ _ _ => ⟨fault, hfault, hrun⟩⟩
      obtain rfl : .error fault = result := Option.some.inj (hrun.symm.trans hresult)
      refine iff_of_false (fun ⟨_, _, h⟩ => nomatch h) ?_
      exact fun ⟨_, h', hcan, _⟩ => hcannot (h'.interval_eq h ▸ hcan)
  · have hrun := approximateSolve_of_not_hasSearch preferences context hsearch
    refine ⟨iff_of_true hrun hsearch, fun result hresult => ?_,
      iff_of_false (by simp [hrun]) fun hnone => (nomatch hrun.symm.trans (hendless hnone)),
      fun interval h => absurd ⟨interval, h⟩ hsearch,
      fun interval h => absurd ⟨interval, h⟩ hsearch⟩
    obtain rfl := Option.some.inj (hrun.symm.trans hresult)
    exact iff_of_false (fun ⟨_, _, h⟩ => nomatch h) fun ⟨interval, h, _⟩ => hsearch ⟨interval, h⟩

/-- A numeric search replaces the solutions, and nothing else of what was found out. -/
theorem of_approximateSolve_eq_ok
    (h : (system.approximateSolve preferences store context).run = some (.ok (.ok searched, left))) :
    ∃ found, searched = system.withFound found ∧ searched.attempt.registry.HasReserve := by
  unfold approximateSolve at h
  split at h
  case h_1 =>
    obtain ⟨scanner, -, h⟩ := Unbounded.exists_of_except_bind h
    obtain ⟨l, -, h⟩ := Unbounded.exists_of_except_bind h
    obtain ⟨r, -, h⟩ := Unbounded.exists_of_except_bind h
    obtain ⟨found, hfound, h⟩ := Unbounded.exists_of_option_bind h
    cases h
    exact ⟨found, rfl, hasReserve_withFound _ hfound⟩
  case h_2 => cases h

/-! ### Bounds -/

/-- New bounds move the interval of a search, and leave the kind as it is otherwise. -/
theorem of_setBounds_eq_ok {system bounded : EquationSystem} {low high : Float}
    (h : system.setBounds low high = .ok bounded) :
    ∃ settings, bounded = { system with
      settings
      attempt := { system.attempt with
        kind := match system.attempt.kind with
          | some (.general unknown _) => some (.general unknown settings.interval)
          | kind => kind } } := by
  unfold setBounds at h
  obtain ⟨settings, -, h⟩ := exists_of_bind_eq_ok h
  cases h
  exact ⟨settings, rfl⟩

end EquationSystem

/-! ### Sessions -/

/-- A call on a system. -/
inductive SystemCall where
  | exactSolve (preferences : Preferences) (store : EquationStore) (context : Context)
  | approximateSolve (preferences : Preferences) (store : EquationStore) (context : Context)
  | tidy (cursor : Option Cursor)
  | setBounds (low high : Float)

/-- What an exact solve was given, and what it has come to. -/
structure ExactSolve where
  preferences : Preferences
  store : EquationStore
  context : Context
  result : Option SolveResult

/-- The store of a solve holds one equation in one unknown. -/
def ExactSolve.HasOnlyUnknown (solve : ExactSolve) (keepsDefined : Bool) (unknown : String) : Prop :=
  solve.store.HasOnlyUnknown solve.preferences keepsDefined solve.context unknown

/-- A system with the last exact solve of it. -/
structure Session where
  system : EquationSystem
  last : Option ExactSolve := none

namespace Session

/-- A call that comes to no fault, and to an end.  A numeric search that is not available changes
    nothing. -/
def call (session : Session) : SystemCall → Unbounded Session
  | .exactSolve preferences store context => do
    let (system, _) ← session.system.exactSolve preferences store context
    pure ⟨system, some ⟨preferences, store, context, system.lastResult⟩⟩
  | .approximateSolve preferences store context => do
    let (searched, _) ← session.system.approximateSolve preferences store context
    match searched with
    | .ok system => pure { session with system }
    | .error _ => pure session
  | .tidy cursor => pure { session with system := session.system.tidy cursor }
  | .setBounds low high => do
    let system ← session.system.setBounds low high
    pure { session with system }

/-- Calls in a row, on a system that has not been solved. -/
def run (preferences : Preferences) (settings : SolverSettings) (calls : List SystemCall) :
    Unbounded Session :=
  calls.foldlM call ⟨.unsolved preferences settings, none⟩

/-- The kind tells what the last exact solve was given and has come to. -/
structure IsClassified (session : Session) : Prop where
  unsolved : session.last = none → session.system.attempt.kind = none
  solved : ∀ solve, session.last = some solve → ∃ result, solve.result = some result ∧
    Classifies (fun unknown => session.system.attempt.unknowns.items = [unknown] ∧
        solve.HasOnlyUnknown session.system.attempt.keepsDefined unknown)
      session.system.attempt.kind result
  room : session.system.attempt.registry.HasReserve

variable {preferences : Preferences} {settings : SolverSettings} {session next : Session}

theorem isClassified_unsolved : IsClassified ⟨.unsolved preferences settings, none⟩ where
  unsolved := fun _ => rfl
  solved := nofun
  room := Nat.zero_le _

/-- Every call preserves what the kind tells. -/
theorem IsClassified.call (h : session.IsClassified) {call : SystemCall}
    (hcall : (session.call call).run = some (.ok next)) : next.IsClassified := by
  cases call with
  | exactSolve preferences store context =>
    obtain ⟨⟨system, left⟩, hsolve, hnext⟩ := Unbounded.exists_of_except_bind hcall
    cases hnext
    obtain ⟨result, hresult, hclassifies, hroom⟩ := EquationSystem.exactSolve_classifies hsolve
    refine ⟨nofun, ?_, hroom⟩
    rintro _ ⟨⟩
    exact ⟨result, hresult, hclassifies⟩
  | approximateSolve preferences store context =>
    obtain ⟨⟨searched, left⟩, hsearch, hnext⟩ := Unbounded.exists_of_bind hcall
    cases searched with
    | error e =>
      cases hnext
      exact h
    | ok system =>
      cases hnext
      obtain ⟨found, rfl, hroom⟩ := EquationSystem.of_approximateSolve_eq_ok hsearch
      exact ⟨h.unsolved, h.solved, hroom⟩
  | tidy cursor =>
    cases hcall
    exact ⟨h.unsolved, h.solved, (List.length_map _).trans_le h.room⟩
  | setBounds low high =>
    obtain ⟨system, hbounds, hnext⟩ := Unbounded.exists_of_except_bind hcall
    cases hnext
    obtain ⟨settings, rfl⟩ := EquationSystem.of_setBounds_eq_ok hbounds
    refine ⟨fun hlast => ?_, fun solve hlast => ?_, h.room⟩
    · dsimp only
      rw [h.unsolved hlast]
    · obtain ⟨result, hresult, hclassifies⟩ := h.solved solve hlast
      exact ⟨result, hresult, hclassifies.withInterval _⟩

/-- What the kind tells holds after any calls. -/
theorem isClassified_of_run {calls : List SystemCall}
    (h : (run preferences settings calls).run = some (.ok session)) : session.IsClassified := by
  unfold run at h
  generalize hstart : Session.mk _ none = start at h
  have hclassified : start.IsClassified := hstart ▸ isClassified_unsolved
  clear hstart
  induction calls generalizing start with
  | nil =>
    cases h
    exact hclassified
  | cons call rest ih =>
    rw [List.foldlM_cons] at h
    obtain ⟨next, hcall, hrest⟩ := Unbounded.exists_of_bind h
    exact ih next hrest (hclassified.call hcall)

/-- The kind after any sequence of calls on one system, with whatever stores and contexts.  It is
    polynomial only if the last exact solve was given one equation with one unknown, and then of
    degree two or three.  It is general just when the last exact solve has asked for a numeric
    search, and then that solve was given one equation, whose only unknown is the one recorded.
    A numeric search is unavailable unless the kind is general and the store that is passed to it
    holds one equation.  When it comes to an end, it then comes to an answer just when the interval
    can be scanned and the sides of the equation are in the pool, and to a fault otherwise; it has
    no end just when its scanner goes on for ever.  The list never holds more than ten solutions. -/
theorem run_classifies {calls : List SystemCall}
    (h : (run preferences settings calls).run = some (.ok session)) :
    (∀ degree, session.system.attempt.kind = some (.polynomial degree) →
      (degree = 2 ∨ degree = 3) ∧ ∃ solve unknown, session.last = some solve ∧
        session.system.attempt.unknowns.items = [unknown] ∧
        solve.HasOnlyUnknown session.system.attempt.keepsDefined unknown) ∧
    ((∃ unknown interval, session.system.attempt.kind = some (.general unknown interval)) ↔
      ∃ solve, session.last = some solve ∧ solve.result = some (.ok .needsApproximation)) ∧
    (∀ unknown interval, session.system.attempt.kind = some (.general unknown interval) →
      session.system.attempt.unknowns.items = [unknown] ∧
      ∃ solve, session.last = some solve ∧
        solve.HasOnlyUnknown session.system.attempt.keepsDefined unknown) ∧
    (∀ preferences store context, session.system.AnswersSearch preferences store context) ∧
    session.system.solutions.length ≤ maxApproximateSolutions := by
  have hclassified := isClassified_of_run h
  have hlast {kind : SystemKind} (hkind : session.system.attempt.kind = some kind) :
      ∃ solve, session.last = some solve := by
    refine Option.ne_none_iff_exists'.1 fun hnone => ?_
    rw [hclassified.unsolved hnone] at hkind
    cases hkind
  refine ⟨fun degree hkind => ?_, ⟨?_, ?_⟩, fun unknown interval hkind => ?_,
    session.system.approximateSolve_spec, hclassified.room⟩
  · obtain ⟨solve, hsolve⟩ := hlast hkind
    obtain ⟨result, -, hclassifies⟩ := hclassified.solved solve hsolve
    obtain ⟨hdegree, unknown, hitems, honly⟩ := hclassifies.polynomial degree hkind
    exact ⟨hdegree, solve, unknown, hsolve, hitems, honly⟩
  · rintro ⟨unknown, interval, hkind⟩
    obtain ⟨solve, hsolve⟩ := hlast hkind
    obtain ⟨result, hresult, hclassifies⟩ := hclassified.solved solve hsolve
    exact ⟨solve, hsolve, (hclassifies.general unknown interval hkind).1 ▸ hresult⟩
  · rintro ⟨solve, hsolve, hneeds⟩
    obtain ⟨result, hresult, hclassifies⟩ := hclassified.solved solve hsolve
    exact hclassifies.searched (Option.some.inj (hresult.symm.trans hneeds))
  · obtain ⟨solve, hsolve⟩ := hlast hkind
    obtain ⟨result, -, hclassifies⟩ := hclassified.solved solve hsolve
    obtain ⟨-, hitems, honly⟩ := hclassifies.general unknown interval hkind
    exact ⟨hitems, solve, hsolve, honly⟩

/-! ### A search that cannot be scanned -/

/-- The sides of `cos(x) = x`. -/
def fixedPointSides : List Term :=
  [.symbol "x", .apply .cos (.symbol "x")]

def fixedPointEquations : List (Term × Term) :=
  [(.apply .cos (.symbol "x"), .symbol "x")]

/-- Each pass over `cos(x) = x` asks for a numeric search. -/
theorem ofSides_fixedPoint (settings : SolverSettings) (keepsDefined : Bool) :
    Attempted.ofSides {} settings keepsDefined [] fixedPointEquations =
      .ok ⟨{ Attempt.initial {} keepsDefined with
        kind := some (.general "x" settings.interval), unknowns := ⟨["x"], 6⟩ },
        .ok .needsApproximation⟩ := by
  have hread : (Attempt.initial {} keepsDefined).readSides {} [] fixedPointEquations =
      ({ Attempt.initial {} keepsDefined with unknowns := ⟨["x"], 6⟩ },
        .ok [.sum [.product [.number (-1), .symbol "x"], .apply .cos (.symbol "x")]]) := by
    have hform : (Attempt.readEquation {} [] (Attempt.initial {} keepsDefined)
        (.apply .cos (.symbol "x")) (.symbol "x")).value = _ :=
      Attempt.value_readEquation_nil _
        (.sum [.product [.number (-1), .symbol "x"], .apply .cos (.symbol "x")]) fun symbols => by
          rw [standardForm_nil]
          cases keepsDefined <;> cases symbols <;> decide +kernel
    exact Attempt.readSides_singleton (hform.trans rfl)
  rw [Attempted.ofSides_of_ok hread]
  refine Attempt.value_solveForms_of_general ?_ rfl ?_
  · cases keepsDefined <;> rfl
  · cases keepsDefined <;> rfl

/-- The session of one exact solve. -/
theorem run_exactSolve {solver : Preferences} {store : EquationStore} {context left : Context}
    {solved : EquationSystem}
    (h : (EquationSystem.unsolved preferences settings).exactSolve solver store context =
      .ok (solved, left)) :
    (run preferences settings [.exactSolve solver store context]).run =
      some (.ok ⟨solved, some ⟨solver, store, context, solved.lastResult⟩⟩) := by
  unfold run
  rw [List.foldlM_cons, Unbounded.run_bind_of_ok (Unbounded.run_except_bind h _)]
  rfl

/-- An exact solve of `cos(x) = x` finds a general equation. -/
theorem exists_call_fixedPoint (settings : SolverSettings) :
    let context := Context.ofTerms fixedPointSides []
    let store := EquationStore.ofSides context.pool fixedPointEquations
    store.IsLive context.pool ∧
    ∃ session, (run {} settings [.exactSolve {} store context]).run = some (.ok session) ∧
      session.system.settings = settings ∧
      session.system.attempt.kind = some (.general "x" settings.interval) := by
  intro context store
  obtain ⟨context₁, context₂, hpasses⟩ := EquationSystem.runsPasses_of_sides fixedPointSides
    (by decide) (by decide) (by decide) (ofSides_fixedPoint settings false)
    (ofSides_fixedPoint settings true)
  obtain ⟨solved, left, hsolve, -, hadopts⟩ :=
    EquationSystem.exactSolve_of_runsPasses (.unsolved {} settings) hpasses
  obtain ⟨rfl, -⟩ := hadopts fun hstands => nomatch hstands.1
  exact ⟨(EquationStore.hasSides_ofSides fixedPointSides (by decide) (by decide)).isLive,
    _, run_exactSolve hsolve, rfl, rfl⟩

/-- With no steps to sample, `cos(x) = x` is a general equation for which a numeric search comes to
    a fault. -/
theorem run_cannot_scan :
    let context := Context.ofTerms fixedPointSides []
    let store := EquationStore.ofSides context.pool fixedPointEquations
    let settings : SolverSettings := { scanner := { ScanSettings.standard with steps := 0 } }
    ∃ session, (run {} settings [.exactSolve {} store context]).run = some (.ok session) ∧
      (∃ unknown interval, session.system.attempt.kind = some (.general unknown interval)) ∧
      store.equations.length = 1 ∧ store.IsLive context.pool ∧
      ∃ fault, (session.system.approximateSolve {} store context).run = some (.error fault) := by
  intro context store settings
  obtain ⟨hlive, session, hrun, hsettings, hkind⟩ := exists_call_fixedPoint settings
  refine ⟨session, hrun, ⟨_, _, hkind⟩, rfl, hlive, ?_⟩
  obtain ⟨fault, -, hfault⟩ := (session.system.approximateSolve_spec {} store context).cannotScan
    settings.interval ⟨"x", _, hkind, rfl⟩ fun hcan => hcan.2 (congrArg (·.scanner.steps) hsettings)
  exact ⟨fault, hfault⟩

/-- The search is for roots at one point, 1, and the interval is not stretched. -/
def pointSettings : SolverSettings where
  interval := ⟨1, 1⟩
  scanner := { ScanSettings.standard with stretchRatio := 0 }

/-- A search at one point comes to an end. -/
theorem exists_approximateSolve_point :
    let context := Context.ofTerms fixedPointSides []
    let store := EquationStore.ofSides context.pool fixedPointEquations
    ∃ session searched left,
      (run {} pointSettings [.exactSolve {} store context]).run = some (.ok session) ∧
      session.system.attempt.kind = some (.general "x" pointSettings.interval) ∧
      store.IsLive context.pool ∧
      (session.system.approximateSolve {} store context).run =
        some (.ok (.ok searched, left)) := by
  intro context store
  obtain ⟨hlive, session, hrun, hsettings, hkind⟩ := exists_call_fixedPoint pointSettings
  have hcan : EquationSystem.CanScan session.system.settings pointSettings.interval := by
    rw [hsettings]
    exact ⟨by decide, by decide⟩
  have hsearch : session.system.HasSearch store pointSettings.interval := ⟨"x", _, hkind, rfl⟩
  obtain ⟨-, -, unknown, scanner, f, hkind', hsearches⟩ | ⟨-, hdead, -⟩ | ⟨hcannot, -⟩ :=
    EquationSystem.approximateSolve_of_hasSearch hsearch {} context
  · obtain ⟨left, hsearch⟩ := hsearches.run_eq hkind'
    have hscanner : scanner =
        ⟨pointSettings.scanner, 1, 1, 1, true⟩ := by
      have hstart := hsearches.start_eq
      rw [hsettings] at hstart
      exact (Except.ok.inj hstart).symm
    obtain ⟨found, hfound⟩ : ∃ found,
        EquationSystem.searchRoots scanner pointSettings.interval f = some found := by
      subst hscanner
      exact Option.isSome_iff_exists.1 (Scanner.isSome_collect?_of_exhausted rfl
        (by decide +kernel))
    rw [hfound] at hsearch
    exact ⟨session, _, left, hrun, hkind, hlive, hsearch⟩
  · exact absurd hlive hdead
  · exact absurd hcan hcannot

/-- The kind after an exact solve of `cos(x) = x` is general, the last solve had `x` for its only
    unknown, a search at one point comes to an answer, and none is available for the empty
    store. -/
theorem run_classifies_fixedPoint :
    let context := Context.ofTerms fixedPointSides []
    let store := EquationStore.ofSides context.pool fixedPointEquations
    ∃ session solve searched left,
      (run {} pointSettings [.exactSolve {} store context]).run = some (.ok session) ∧
      session.last = some solve ∧ solve.result = some (.ok .needsApproximation) ∧
      (∃ solve, session.last = some solve ∧
        solve.HasOnlyUnknown session.system.attempt.keepsDefined "x") ∧
      (session.system.approximateSolve {} store context).run =
        some (.ok (.ok searched, left)) ∧
      (∃ interval, session.system.HasSearch store interval ∧
        EquationSystem.CanScan session.system.settings interval) ∧
      (session.system.approximateSolve {} {} {}).run =
        some (.ok (.error .approximationUnavailable, {})) := by
  intro context store
  obtain ⟨session, searched, left, hrun, hkind, -, hsearched⟩ := exists_approximateSolve_point
  obtain ⟨-, hgeneral, honly, hsearch, -⟩ := run_classifies hrun
  obtain ⟨solve, hsolve, hresult⟩ := hgeneral.1 ⟨_, _, hkind⟩
  obtain ⟨interval, hinterval, hcan, -⟩ :=
    ((hsearch {} store context).answers_iff _ hsearched).1 ⟨searched, left, rfl⟩
  refine ⟨session, solve, searched, left, hrun, hsolve, hresult, (honly _ _ hkind).2, hsearched,
    ⟨interval, hinterval, hcan⟩, (hsearch {} {} {}).unavailable_iff.2 ?_⟩
  rintro ⟨interval, unknown, equation, -, hnone⟩
  cases hnone

end Session

end EquationSolver
