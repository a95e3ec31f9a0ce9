import EquationSolver.Proofs.Pool.Consing
import EquationSolver.Proofs.Solver.Origin
import EquationSolver.Proofs.Solver.Passes

/-!
# What calls leave in a context

A call that builds terms lets the pool grow and keeps its indices in order, so that what was in
the pool keeps its place.  The handles that the solutions of a call hold denote terms then.
-/

namespace EquationSolver

open CheckedBuild (startsFrom_build)

variable {α : Type} [HoldsTerms α]

/-! ### Handles of solutions -/

/-- The handles that a solution shows. -/
def Solution.handles (solution : Solution Handle) : List Handle :=
  solution.layouts.map Layout.node

/-- The handles that the solutions of a registry show. -/
def SolutionRegistry.handles (registry : SolutionRegistry Handle) : List Handle :=
  registry.solutions.flatMap Solution.handles

theorem Solution.handles_map (f : Term → Handle) (solution : Solution Term) :
    (solution.map f).handles = (terms solution).map f := by
  have hlayouts : (solution.map f).layouts = solution.layouts.map (Layout.map f) := by
    simp [layouts, Solution.map, Option.toList_map]
  have hterms : terms solution = solution.layouts.map Layout.node :=
    List.flatMap_pure_eq_map ..
  rw [handles, hlayouts, hterms, List.map_map, List.map_map]
  rfl

theorem SolutionRegistry.handles_map (f : Term → Handle) (registry : SolutionRegistry Term) :
    (registry.map f).handles = (terms registry).map f := by
  have hterms : terms registry = registry.solutions.flatMap terms := rfl
  rw [handles, SolutionRegistry.map, List.flatMap_map, hterms, List.map_flatMap]
  exact List.flatMap_congr fun solution _ => solution.handles_map f

/-- A registry gets no other handles than those of the solution that is added. -/
theorem SolutionRegistry.mem_handles_of_add {registry added : SolutionRegistry Handle}
    {solution : Option (Solution Handle)} (h : registry.add solution = .ok added)
    {handle : Handle} (hhandle : handle ∈ added.handles) :
    handle ∈ registry.handles ∨ ∃ shown, solution = some shown ∧ handle ∈ shown.handles := by
  unfold add at h
  split at h
  · cases h
    exact .inl hhandle
  case h_2 shown =>
    split_ifs at h
    cases h
    simp only [handles, List.flatMap_append, List.flatMap_singleton, List.mem_append] at hhandle
    exact hhandle.imp_right fun hshown => ⟨shown, rfl, hshown⟩

/-- A number has no layouts. -/
@[simp] theorem SolutionRegistry.handles_addValue (registry : SolutionRegistry Handle) (x : Float) :
    (registry.addValue x).handles = registry.handles := by
  unfold addValue
  split_ifs
  · simp [handles, Solution.handles, Solution.layouts]
  · rfl

theorem SolutionRegistry.handles_addValues (places : List Float)
    (registry : SolutionRegistry Handle) :
    (places.foldl addValue registry).handles = registry.handles := by
  induction places generalizing registry with
  | nil => rfl
  | cons x rest ih => rw [List.foldl_cons, ih, handles_addValue]

/-- Tidying takes handles away at most. -/
theorem SolutionRegistry.handles_tidy_subset (registry : SolutionRegistry Handle)
    (cursor : Option Cursor) : (registry.tidy cursor).handles ⊆ registry.handles := by
  intro handle hhandle
  obtain ⟨solution', hsolution', hhandle⟩ := List.mem_flatMap.1 hhandle
  obtain ⟨solution, hsolution, rfl⟩ := List.mem_map.1 hsolution'
  split_ifs at hhandle
  · exact absurd hhandle List.not_mem_nil
  · exact List.mem_flatMap.2 ⟨solution, hsolution, hhandle⟩

/-! ### Growing contexts -/

namespace Context

instance : HoldsTerms Context := ⟨fun context => context.pool.terms.toList⟩

variable {context context' context'' : Context}

theorem mem_terms {t : Term} : t ∈ terms context ↔ t ∈ context.pool.terms :=
  Array.mem_toList_iff

/-- A call leaves a well-formed pool, in which what was there before is where it was, and the
    definitions that there were. -/
structure Grows (context context' : Context) : Prop where
  isWellFormed : context'.pool.IsWellFormed
  pool : context.pool.Extends context'.pool
  definitions : context'.definitions = context.definitions

theorem Grows.refl (h : context.pool.IsWellFormed) : context.Grows context :=
  ⟨h, .refl _, rfl⟩

theorem Grows.trans (h : context.Grows context') (h' : context'.Grows context'') :
    context.Grows context'' :=
  ⟨h'.isWellFormed, h.pool.trans h'.pool, h'.definitions.trans h.definitions⟩

theorem Grows.terms_subset (h : context.Grows context') : terms context ⊆ terms context' := by
  intro t ht
  obtain ⟨i, hi⟩ := Array.mem_iff_getElem?.1 (mem_terms.1 ht)
  exact mem_terms.2 (Array.mem_iff_getElem?.2 ⟨i, h.pool ⟨i⟩ t hi⟩)

/-- The indices that are in use stay in use. -/
theorem Grows.index_lt (h : context.Grows context') {handle : Handle}
    (hlive : handle.index < context.pool.size) : handle.index < context'.pool.size :=
  (Array.getElem?_eq_some_iff.1 (h.pool handle _ (Array.getElem?_eq_getElem hlive))).1

theorem terms_definedTerms_subset (context : Context) :
    terms context.definedTerms ⊆ terms context := by
  intro t ht
  obtain ⟨d, hd, ht⟩ := mem_terms_list.1 ht
  have ht : t = d.2 := by simpa using ht
  exact ht ▸ mem_terms.2 (mem_of_mem_definedTerms hd)

theorem mem_terms_of_get {handle : Handle} {t : Term} (h : context.pool.get handle = .ok t) :
    t ∈ terms context :=
  mem_terms.2 (Array.mem_iff_getElem?.2 ⟨handle.index, Pool.get_eq_ok_iff.1 h⟩)

/-- What is built from terms of the pool lets it grow. -/
theorem grows_record (h : context.pool.IsWellFormed) {b : Build α}
    (hb : b.StartsFrom (terms context)) :
    context.Grows (context.record b).2 ∧
      terms (context.record b).1 ⊆ terms (context.record b).2 := by
  have hgrounded := hb h.sound.known fun t ht => mem_terms.1 ht
  obtain ⟨_, -, hvalue⟩ := h.sound.record hgrounded
  exact ⟨⟨h.record hgrounded, context.extends_record b, rfl⟩,
    fun t ht => mem_terms.2 (hvalue t ht)⟩

/-- What has been recorded has a handle, which denotes it. -/
theorem tree?_handleOf_record (h : context.pool.IsWellFormed) {b : Build α}
    (hb : b.StartsFrom (terms context)) {t : Term} (ht : t ∈ terms b.value) :
    (context.record b).2.pool.tree? ((context.record b).2.pool.handleOf t) = some t := by
  obtain ⟨hgrows, hterms⟩ := grows_record h hb
  rw [hgrows.isWellFormed.tree?_eq_get?]
  exact hgrows.isWellFormed.sound.get?_handleOf (mem_terms.1 (hterms ht))

theorem grows_recordChecked (h : context.pool.IsWellFormed) {b : CheckedBuild α} {a : α}
    (hb : CheckedBuild.StartsFrom (terms context) b)
    (hrecord : context.recordChecked b = .ok (a, context')) :
    context.Grows context' ∧ terms a ⊆ terms context' := by
  obtain ⟨hvalue, rfl⟩ := of_recordChecked_eq_ok hrecord
  obtain ⟨hgrows, hterms⟩ := grows_record h hb
  have hterms : terms b.run.value ⊆ terms (context.record b.run).2 := hterms
  rw [hvalue, terms_ok] at hterms
  exact ⟨hgrows, hterms⟩

/-- Every handle that the solutions show is in use. -/
def Shows (context : Context) (registry : SolutionRegistry Handle) : Prop :=
  ∀ handle ∈ registry.handles, handle.index < context.pool.size

theorem Grows.shows (h : context.Grows context') {registry : SolutionRegistry Handle}
    (hregistry : context.Shows registry) : context'.Shows registry :=
  fun handle hhandle => h.index_lt (hregistry handle hhandle)

theorem index_handleOf_lt (h : context.pool.IsWellFormed) {t : Term} (ht : t ∈ terms context) :
    (context.pool.handleOf t).index < context.pool.size :=
  (Array.getElem?_eq_some_iff.1 (h.sound.get?_handleOf (mem_terms.1 ht))).1

theorem shows_map (h : context.pool.IsWellFormed) {registry : SolutionRegistry Term}
    (hregistry : terms registry ⊆ terms context) :
    context.Shows (registry.map context.pool.handleOf) := by
  intro handle hhandle
  rw [SolutionRegistry.handles_map] at hhandle
  obtain ⟨t, ht, rfl⟩ := List.mem_map.1 hhandle
  exact index_handleOf_lt h (hregistry ht)

end Context

/-! ### Solving -/

section Solving

variable {preferences : Preferences} {settings : SolverSettings} {store : EquationStore}
  {context context' : Context}

theorem Attempt.grows_readEquations {equations : List StoredEquation} {attempt : Attempt Term}
    {read : Attempt Term × Except SolverError (List Term)} (h : context.pool.IsWellFormed)
    (hattempt : terms attempt ⊆ terms context)
    (hread : attempt.readEquations preferences context equations = .ok (read, context')) :
    context.Grows context' ∧ terms read ⊆ terms context' := by
  induction equations generalizing attempt context read with
  | nil =>
    cases hread
    exact ⟨.refl h, by simpa using hattempt⟩
  | cons equation rest ih =>
    unfold readEquations at hread
    obtain ⟨left, hleft, hread⟩ := exists_of_bind_eq_ok hread
    obtain ⟨right, hright, hread⟩ := exists_of_bind_eq_ok hread
    obtain ⟨hgrows, hterms⟩ := Context.grows_record h
      (startsFrom_readEquation context.terms_definedTerms_subset hattempt
        (Context.mem_terms_of_get hleft) (Context.mem_terms_of_get hright))
    rcases hrecord : context.record
        (readEquation preferences context.definedTerms attempt left right) with
      ⟨⟨next, form⟩, context₁⟩
    rw [hrecord] at hread hgrows hterms
    obtain ⟨hnext, hform⟩ := List.append_subset.1 hterms
    cases form with
    | error e =>
      cases hread
      exact ⟨hgrows, hterms⟩
    | ok form =>
      obtain ⟨⟨⟨last, forms⟩, context₂⟩, hrest, hread⟩ := exists_of_bind_eq_ok hread
      cases hread
      obtain ⟨hgrows', hterms'⟩ := ih hgrows.isWellFormed hnext hrest
      refine ⟨hgrows.trans hgrows', ?_⟩
      obtain ⟨hlast, hforms⟩ := List.append_subset.1 hterms'
      refine List.append_subset.2 ⟨hlast, ?_⟩
      cases forms with
      | error e => exact List.nil_subset _
      | ok forms =>
        rw [terms_ok] at hforms
        show terms (Except.ok (form :: forms) : Except SolverError _) ⊆ _
        rw [terms_ok, terms_cons]
        exact List.append_subset.2 ⟨fun t ht => hgrows'.terms_subset (hform ht), hforms⟩

theorem Attempted.grows_ofStore {keepsDefined : Bool} {found : Attempted Handle}
    (h : context.pool.IsWellFormed)
    (hfound : ofStore preferences settings keepsDefined store context = .ok (found, context')) :
    context.Grows context' ∧ context'.Shows found.attempt.registry := by
  unfold ofStore at hfound
  obtain ⟨⟨⟨attempt, forms⟩, context₁⟩, hread, hfound⟩ := exists_of_bind_eq_ok hfound
  obtain ⟨hgrows, hterms⟩ := Attempt.grows_readEquations h (List.nil_subset _) hread
  obtain ⟨hattempt, hforms⟩ := List.append_subset.1 hterms
  cases forms with
  | error e =>
    cases hfound
    exact ⟨hgrows, Context.shows_map hgrows.isWellFormed hattempt⟩
  | ok forms =>
    rw [terms_ok, terms_terms] at hforms
    obtain ⟨⟨last, context₂⟩, hrecord, hfound⟩ := exists_of_bind_eq_ok hfound
    cases hfound
    obtain ⟨hgrows', hlast⟩ := Context.grows_recordChecked hgrows.isWellFormed
      (Attempt.startsFrom_solveForms context₁.terms_definedTerms_subset hattempt hforms) hrecord
    exact ⟨hgrows.trans hgrows', Context.shows_map hgrows'.isWellFormed hlast⟩

/-- An exact solve lets the pool grow, and its solutions show terms of the pool. -/
theorem EquationSystem.grows_exactSolve {system solved : EquationSystem}
    (h : context.pool.IsWellFormed)
    (hsolve : system.exactSolve preferences store context = .ok (solved, context')) :
    context.Grows context' ∧ context'.Shows solved.attempt.registry := by
  unfold exactSolve at hsolve
  obtain ⟨⟨first, context₁⟩, hfirst, hsolve⟩ := exists_of_bind_eq_ok hsolve
  obtain ⟨hgrows, hshows⟩ := Attempted.grows_ofStore h hfirst
  dsimp only at hsolve
  split_ifs at hsolve
  · cases hsolve
    exact ⟨hgrows, hshows⟩
  · obtain ⟨⟨second, context₂⟩, hsecond, hsolve⟩ := exists_of_bind_eq_ok hsolve
    cases hsolve
    obtain ⟨hgrows', hshows'⟩ := Attempted.grows_ofStore hgrows.isWellFormed hsecond
    refine ⟨hgrows.trans hgrows', ?_⟩
    show context₂.Shows (preferred first second).attempt.registry
    unfold preferred
    split
    · exact hgrows'.shows hshows
    · exact hshows'

/-- A numeric search lets the pool grow, and its solutions show numbers. -/
theorem EquationSystem.grows_approximateSolve {system : EquationSystem}
    {answer : Except SolverError EquationSystem} (h : context.pool.IsWellFormed)
    (hsearch : (system.approximateSolve preferences store context).run =
      some (.ok (answer, context'))) :
    context.Grows context' ∧
      ∀ searched, answer = .ok searched → searched.attempt.registry.handles = [] := by
  unfold approximateSolve at hsearch
  split at hsearch
  · obtain ⟨scanner, -, hsearch⟩ := Unbounded.exists_of_except_bind hsearch
    obtain ⟨left, hleft, hsearch⟩ := Unbounded.exists_of_except_bind hsearch
    obtain ⟨right, hright, hsearch⟩ := Unbounded.exists_of_except_bind hsearch
    obtain ⟨found, -, hsearch⟩ := Unbounded.exists_of_option_bind hsearch
    cases hsearch
    refine ⟨(Context.grows_record h (startsFrom_standardForm context.terms_definedTerms_subset
      (Context.mem_terms_of_get hleft) (Context.mem_terms_of_get hright))).1, ?_⟩
    rintro _ ⟨⟩
    exact SolutionRegistry.handles_addValues _ {}
  · cases hsearch
    exact ⟨.refl h, nofun⟩

theorem SolutionRegistry.grows_register {registry : SolutionRegistry Handle}
    {s : Reduction.Settings} {policy : DisplayPolicy} {type : SolutionType} {t : Term}
    {registered : Except SolverError (SolutionRegistry Handle)} (h : context.pool.IsWellFormed)
    (ht : t ∈ terms context)
    (hregister : registry.register context s policy type t = .ok (registered, context')) :
    context.Grows context' ∧ ∀ added, registered = .ok added → ∀ handle ∈ added.handles,
      handle ∈ registry.handles ∨ handle.index < context'.pool.size := by
  have hstarts : (Solution.ofTerm? s context.definedTerms policy type t).StartsFrom
      (terms context) := Solution.startsFrom_ofTerm? context.terms_definedTerms_subset ht
  obtain ⟨hgrows, hterms⟩ := Context.grows_record h hstarts
  unfold register at hregister
  rcases hrecord : context.record
    (Solution.ofTerm? s context.definedTerms policy type t) with ⟨solution, context₁⟩
  rw [hrecord] at hregister hgrows hterms
  cases solution with
  | error e =>
    cases hregister
    exact ⟨hgrows, nofun⟩
  | ok solution =>
    obtain ⟨added, hadded, hregister⟩ := exists_of_bind_eq_ok hregister
    cases hregister
    refine ⟨hgrows, ?_⟩
    rintro _ ⟨⟩ handle hhandle
    refine (mem_handles_of_add hadded hhandle).imp_right ?_
    rintro ⟨shown, hshown, hhandle⟩
    obtain ⟨solution, rfl, rfl⟩ := Option.map_eq_some_iff.1 hshown
    rw [Solution.handles_map] at hhandle
    obtain ⟨u, hu, rfl⟩ := List.mem_map.1 hhandle
    exact Context.index_handleOf_lt hgrows.isWellFormed (hterms (by simpa using hu))

end Solving

end EquationSolver
