import EquationSolver.Proofs.Solver.Classification
import EquationSolver.Proofs.Solver.Definitions
import EquationSolver.Proofs.Solver.Dispatch
import EquationSolver.Proofs.Solver.Outcome
import EquationSolver.Proofs.Solver.RationalSystems

/-!
# Equations in another order

Another order of the equations changes the order of the standard forms and of the unknowns, but
not the solutions of the system.  For exact forms whether the system is solved depends on the
solutions only: on whether there is just one, and then on its values.
-/

namespace EquationSolver

open Reduction (Settings AgreeOn)
open SymbolicMatrix

/-! ### Solutions in another order -/

section Solutions

variable {names names' : List String} {forms forms' : List Term}

/-- Where there is one solution, there is one for the forms and the unknowns in another order, with
    the same numbers for the unknowns. -/
theorem exists_solutionSet_eq_singleton {point : List ℝ} (hnames : ∀ name ∈ names', name ∈ names)
    (hforms : ∀ form, form ∈ forms ↔ form ∈ forms') (hpoint : solutionSet names forms = {point}) :
    ∃ ρ, point = names.map ρ ∧ solutionSet names' forms' = {names'.map ρ} := by
  have hsolution : point ∈ solutionSet names forms := hpoint ▸ Set.mem_singleton point
  obtain ⟨ρ, rfl, hzero⟩ := hsolution
  refine ⟨ρ, rfl, Set.eq_singleton_iff_unique_mem.2 ⟨?_, ?_⟩⟩
  · exact ⟨ρ, rfl, fun form hform => hzero form ((hforms form).2 hform)⟩
  · rintro _ ⟨ρ', rfl, hzero'⟩
    have hother : names.map ρ' ∈ solutionSet names forms :=
      ⟨ρ', rfl, fun form hform => hzero' form ((hforms form).1 hform)⟩
    rw [hpoint] at hother
    have heq : names.map ρ' = names.map ρ := hother
    exact List.map_congr_left fun name hname => List.map_inj_left.1 heq name (hnames name hname)

namespace Linear

/-- Exact values are determined by their numbers. -/
theorem mem_of_haveValues {values values' : List Term} {point point' : List ℝ}
    (h : HaveValues values point) (h' : HaveValues values' point')
    (hexact : ∀ t ∈ values, t.IsExact) (hexact' : ∀ t ∈ values', t.IsExact)
    (hsubset : ∀ v ∈ point', v ∈ point) : ∀ t ∈ values', t ∈ values := by
  intro t ht
  obtain ⟨a, rfl⟩ := hexact' t ht
  obtain ⟨v, hv, hdenotes⟩ := exists_of_mem_forall₂ h'.flip ht
  obtain ⟨u, hu, hdenotes'⟩ := exists_of_mem_forall₂ h (hsubset v hv)
  obtain ⟨b, rfl⟩ := hexact u hu
  have heq : (a : ℝ) = b :=
    (hdenotes fun _ => 0).value_eq.trans (hdenotes' fun _ => 0).value_eq.symm
  exact (Rat.cast_inj.1 heq) ▸ hu

/-- Of two settled answers to the same forms in different orders both are accepted, if one is. -/
theorem IsSettledFor.isAccepted {answer answer' : LinearAnswer} {accepts : Term → Prop}
    (h : IsSettledFor names forms answer) (h' : IsSettledFor names' forms' answer')
    (hnames : ∀ name, name ∈ names ↔ name ∈ names')
    (hforms : ∀ form, form ∈ forms ↔ form ∈ forms') (haccepted : answer.IsAccepted accepts) :
    answer'.IsAccepted accepts := by
  cases answer' with
  | undefined => exact absurd rfl h'.ne_undefined
  | unresolved => exact absurd rfl h'.ne_unresolved
  | inconsistent => trivial
  | parametric values' => trivial
  | unique values' =>
    have hnonempty' := h'.names_ne_nil values' rfl
    have hnonempty : names ≠ [] := by
      obtain ⟨name, hname⟩ := List.exists_mem_of_ne_nil _ hnonempty'
      exact List.ne_nil_of_mem ((hnames name).2 hname)
    obtain ⟨point', hpoint', hvalues'⟩ := h'.isRight hnonempty'
    obtain ⟨ρ, rfl, hpoint⟩ := exists_solutionSet_eq_singleton
      (fun name hname => (hnames name).1 hname) (fun form => (hforms form).symm) hpoint'
    have hright := h.isRight hnonempty
    rw [hpoint] at hright
    cases answer with
    | undefined => exact haccepted.elim
    | unresolved => exact haccepted.elim
    | inconsistent => exact absurd hright (Set.singleton_ne_empty _)
    | parametric values => exact absurd (Set.finite_singleton _) hright
    | unique values =>
      obtain ⟨point, hsingleton, hvalues⟩ := hright
      obtain rfl := Set.singleton_injective hsingleton
      have hsubset : ∀ v ∈ names'.map ρ, v ∈ names.map ρ := by
        intro v hv
        obtain ⟨name, hname, rfl⟩ := List.mem_map.1 hv
        exact List.mem_map_of_mem ((hnames name).2 hname)
      have hmem := mem_of_haveValues hvalues hvalues' (h.exact values rfl) (h'.exact values' rfl)
        hsubset
      exact fun t ht => haccepted t (hmem t ht)

end Linear

end Solutions

/-! ### Reading in another order -/

namespace Attempt

variable {preferences : Preferences} {settings : SolverSettings} {definitions : Definitions}
  {keepsDefined : Bool} {attempt last : Attempt Term} {sides sides' : List (Term × Term)}
  {forms : List Term}

/-- No standard form widens the complex format, or each is the same in the format that it is
    widened to. -/
def ReadsInAnyOrder (preferences : Preferences) (definitions : Definitions) (attempt : Attempt Term)
    (sides : List (Term × Term)) : Prop :=
  attempt.KeepsFormat preferences definitions sides ∨
    ∀ equation ∈ sides,
      { attempt with complexFormat := .cartesian }.formOf preferences definitions equation =
        attempt.formOf preferences definitions equation

theorem ReadsInAnyOrder.perm (h : attempt.ReadsInAnyOrder preferences definitions sides)
    (hperm : sides.Perm sides') : attempt.ReadsInAnyOrder preferences definitions sides' := by
  rcases h with hkeeps | hsame
  · exact .inl fun equation hequation => hkeeps equation (hperm.mem_iff.2 hequation)
  · exact .inr fun equation hequation => hsame equation (hperm.mem_iff.2 hequation)

theorem ReadsInAnyOrder.exists_formats (h : attempt.ReadsInAnyOrder preferences definitions sides) :
    ∃ formats : ComplexFormat → Prop, formats attempt.complexFormat ∧
      attempt.ReadsAlike preferences definitions formats sides := by
  rcases h with hkeeps | hsame
  · exact ⟨(· = attempt.complexFormat), rfl, hkeeps.readsAlike⟩
  · refine ⟨fun format => format = attempt.complexFormat ∨ format = .cartesian, .inl rfl, ?_⟩
    rintro equation hequation format hformat
    constructor
    · rcases hformat with rfl | rfl
      · rfl
      · exact hsame equation hequation
    · unfold ComplexFormat.updatedFor
      split_ifs
      · exact .inr rfl
      · exact hformat

/-- The standard forms are those of a linear system of exact numbers, if they are those of a
    linear system. -/
def HasExactForms (preferences : Preferences) (definitions : Definitions) (attempt : Attempt Term)
    (sides : List (Term × Term)) : Prop :=
  (∀ equation ∈ sides,
    checkForm (attempt.formOf preferences definitions equation) = .ok () ∧
      (attempt.formOf preferences definitions equation).HasAffineTerms) →
    ∀ equation ∈ sides, (attempt.formOf preferences definitions equation).IsExactAffine

theorem HasExactForms.perm (h : attempt.HasExactForms preferences definitions sides)
    (hperm : sides.Perm sides') : attempt.HasExactForms preferences definitions sides' := by
  intro hlinear equation hequation
  exact h (fun other hother => hlinear other (hperm.mem_iff.1 hother)) equation
    (hperm.mem_iff.2 hequation)

/-- When the equations are read as a linear system, the numbers that elimination takes for pivots
    can be inverted. -/
def InvertsPivots (preferences : Preferences) (definitions : Definitions) (attempt : Attempt Term)
    (sides : List (Term × Term)) : Prop :=
  ∀ last forms rows, attempt.readSides preferences definitions sides = (last, .ok forms) →
    (Linear.augmentedRows (last.reduction preferences .analysis) last.unknowns.items forms).value =
      some rows →
    (Elimination.start (SymbolicMatrix.reduce (last.reduction preferences .approximation) []
      ⟨rows, last.unknowns.items.length + 1⟩).value.rows).InvertsPivots
        (last.reduction preferences .approximation) (last.unknowns.items.length + 1)

/-- Exact forms mention no imaginary unit. -/
theorem keepsFormat_of_exact
    (h : ∀ equation ∈ sides, (attempt.formOf preferences definitions equation).IsExactAffine) :
    attempt.KeepsFormat preferences definitions sides := by
  intro equation hequation
  have hvalue := (h equation hequation).isAffine.hasValue fun _ => 0
  unfold ComplexFormat.updatedFor
  rw [Valuation.containsImaginaryUnit_of_hasValue _ hvalue]
  simp

/-- Equations that have been read are read in another order too, and no further unknowns are in
    them. -/
theorem exists_readSides_of_perm (hperm : sides.Perm sides')
    (hkeeps : (initial preferences keepsDefined).KeepsFormat preferences definitions sides)
    (hread : (initial preferences keepsDefined).readSides preferences definitions sides =
      (last, .ok forms)) :
    ∃ last' forms', (initial preferences keepsDefined).readSides preferences definitions sides' =
        (last', .ok forms') ∧ last'.unknowns.items ⊆ last.unknowns.items := by
  obtain ⟨hforms, -, hreads⟩ := of_readSides hkeeps hread
  have hform : ∀ equation ∈ sides',
      (initial preferences keepsDefined).formOf preferences definitions equation ∈ forms := by
    intro equation hequation
    rw [hforms]
    exact List.mem_map_of_mem (hperm.mem_iff.2 hequation)
  have hroom := (hreads.isReady (isReady_initial preferences keepsDefined)).room
  have hwithin : (initial preferences keepsDefined).unknowns.Within last.unknowns.items :=
    ⟨List.nodup_nil, List.nil_subset _, hroom.length_le⟩
  obtain ⟨last', forms', hread', hwithin'⟩ := exists_readSides
    (fun equation hequation => hkeeps equation (hperm.mem_iff.2 hequation))
    (fun equation hequation => hreads.checked _ (hform equation hequation)) hwithin
    fun equation hequation => hreads.mentions _ (hform equation hequation)
  exact ⟨last', forms', hread', hwithin'.subset⟩

/-! ### Answers to exact systems -/

/-- Definitions have no part in solving a system of exact numbers. -/
theorem solve_eq_of_exact {s : Settings} {names : List String} {rows : List (List Term)}
    (hforms : ∀ form ∈ forms, form.IsExactAffine)
    (hnames : ∀ form ∈ forms, ∀ name, form.Mentions name → name ∈ names)
    (hrows : (Linear.augmentedRows s names forms).value = some rows)
    (settings : ReductionTarget → Settings) (count : Nat) :
    Linear.solve settings definitions count rows = Linear.solve settings [] count rows := by
  have hagree : AgreeOn (fun _ => False) definitions [] := ⟨nofun, nofun⟩
  exact Linear.solve_eq hagree (Linear.mentionsNothing_augmentedRows hforms hnames hrows)

/-- Exact forms that have been read have a settled answer. -/
theorem exists_isSettledFor (definitions : Definitions)
    (hreads : (initial preferences keepsDefined).ReadsForms last forms)
    (hne : forms ≠ []) (hforms : ∀ form ∈ forms, form.IsExactAffine) {rows : List (List Term)}
    (hrows : (Linear.augmentedRows (last.reduction preferences .analysis) last.unknowns.items
      forms).value = some rows)
    (hinverts : (Elimination.start (SymbolicMatrix.reduce (last.reduction preferences .approximation)
      [] ⟨rows, last.unknowns.items.length + 1⟩).value.rows).InvertsPivots
        (last.reduction preferences .approximation) (last.unknowns.items.length + 1)) :
    ∃ answer, (Linear.solve (last.reduction preferences) definitions last.unknowns.items.length
        rows).run.value = .ok answer ∧
      Linear.IsSettledFor last.unknowns.items forms answer := by
  rw [solve_eq_of_exact hforms hreads.mentions hrows]
  exact Linear.yields_isSettledFor (fun _ => rfl) rfl (hreads.nodup List.nodup_nil) hne hforms
    hreads.mentions hrows hinverts

end Attempt

/-! ### Passes -/

/-- A pass that solves the equations solves them in another order. -/
theorem Attempted.isOk_of_perm {preferences : Preferences} {settings : SolverSettings}
    {keepsDefined : Bool} {definitions : Definitions} {sides sides' : List (Term × Term)}
    {found found' : Attempted Term} (hperm : sides.Perm sides') (hlength : 2 ≤ sides.length)
    (horder : (Attempt.initial preferences keepsDefined).ReadsInAnyOrder preferences definitions
      sides)
    (hexact : (Attempt.initial preferences keepsDefined).HasExactForms preferences definitions sides)
    (hinverts : (Attempt.initial preferences keepsDefined).InvertsPivots preferences definitions
      sides)
    (hinverts' : (Attempt.initial preferences keepsDefined).InvertsPivots preferences definitions
      sides')
    (hfound : ofSides preferences settings keepsDefined definitions sides = .ok found)
    (hfound' : ofSides preferences settings keepsDefined definitions sides' = .ok found')
    (hok : found.IsOk) : found'.IsOk := by
  obtain ⟨formats, hformat, halike⟩ := horder.exists_formats
  unfold ofSides at hfound hfound'
  split at hfound
  case h_1 =>
    cases hfound
    obtain ⟨outcome, houtcome⟩ := hok
    cases houtcome
  case h_2 last forms hread =>
    obtain ⟨hforms, -, hreads⟩ := Attempt.of_readSides_alike halike rfl hformat hread
    have hformsLength : forms.length = sides.length := by rw [hforms, List.length_map]
    obtain ⟨rows, answer, hrows, hanswer, haccepted⟩ :=
      (Attempt.ensures_solveForms_isOk last (hformsLength ▸ hlength) found hfound).1 hok
    -- the forms are those of a linear system, so they are exact and do not widen the format
    have haffine := Linear.hasAffineTerms_of_augmentedRows hreads.mentions hrows
    have hchecked := hreads.checked
    rw [hforms] at haffine hchecked
    have hexact := hexact fun equation hequation =>
      ⟨hchecked _ (List.mem_map_of_mem hequation), haffine _ (List.mem_map_of_mem hequation)⟩
    have hkeeps := Attempt.keepsFormat_of_exact hexact
    have hkeeps' : (Attempt.initial preferences keepsDefined).KeepsFormat preferences definitions
        sides' := fun equation hequation => hkeeps equation (hperm.mem_iff.2 hequation)
    obtain ⟨-, hlastFormat, -⟩ := Attempt.of_readSides hkeeps hread
    obtain ⟨last', forms', hread', hsubset'⟩ := Attempt.exists_readSides_of_perm hperm hkeeps hread
    obtain ⟨hforms', hlastFormat', hreads'⟩ := Attempt.of_readSides hkeeps' hread'
    obtain ⟨_, _, hreread, hsubset⟩ := Attempt.exists_readSides_of_perm hperm.symm hkeeps' hread'
    cases hread.symm.trans hreread
    have hnames (name : String) : name ∈ last.unknowns.items ↔ name ∈ last'.unknowns.items :=
      ⟨fun h => hsubset h, fun h => hsubset' h⟩
    have hmem (form : Term) : form ∈ forms ↔ form ∈ forms' := by
      rw [hforms, hforms']
      exact (hperm.map _).mem_iff
    have hsame : last'.reduction preferences = last.reduction preferences :=
      Attempt.reduction_congr (hreads'.keepsDefined.trans hreads.keepsDefined.symm)
        (hlastFormat'.trans hlastFormat.symm)
    have hformsExact : ∀ form ∈ forms, form.IsExactAffine := by
      rw [hforms]
      exact List.forall_mem_map.2 hexact
    have hformsExact' : ∀ form ∈ forms', form.IsExactAffine :=
      fun form hform => hformsExact form ((hmem form).2 hform)
    have hformsLength' : 2 ≤ forms'.length := by
      rw [hforms', List.length_map, ← hperm.length_eq]
      exact hlength
    obtain ⟨rows', hrows'⟩ := Linear.exists_augmentedRows (last'.reduction preferences .analysis)
      (fun form hform => (hformsExact' form hform).isAffine) hreads'.mentions
    obtain ⟨settled, hsettled, hright⟩ := Attempt.exists_isSettledFor definitions
      hreads (by rintro rfl; simp at hformsLength; omega) hformsExact hrows
      (hinverts last forms rows hread hrows)
    obtain rfl : settled = answer := Except.ok.inj (hsettled.symm.trans hanswer)
    obtain ⟨answer', hanswer', hright'⟩ := Attempt.exists_isSettledFor definitions
      hreads' (by rintro rfl; simp at hformsLength') hformsExact' hrows'
      (hinverts' last' forms' rows' hread' hrows')
    rw [hread'] at hfound'
    refine (Attempt.ensures_solveForms_isOk last' hformsLength' found' hfound').2
      ⟨rows', answer', hrows', hanswer', ?_⟩
    have haccepts : last'.Accepts preferences settings definitions =
        last.Accepts preferences settings definitions := by
      unfold Attempt.Accepts
      rw [hsame]
    rw [haccepts]
    exact hright.isAccepted hright' hnames hmem haccepted

/-! ### Exact solving -/

namespace EquationStore

/-- Stores that hold the same equations in different orders have the same sides in different
    orders. -/
theorem HasSides.perm {store store' : EquationStore} {pool : Pool} {sides sides' : List (Term × Term)}
    (h : store.HasSides pool sides) (h' : store'.HasSides pool sides')
    (hperm : store.equations.Perm store'.equations) : sides.Perm sides' := by
  obtain ⟨sides'', hsides'', hperm''⟩ := List.perm_comp_forall₂ hperm.symm h
  have hunique : Relator.RightUnique fun (equation : StoredEquation) (p : Term × Term) =>
      pool.get equation.left = .ok p.1 ∧ pool.get equation.right = .ok p.2 := by
    rintro equation ⟨left, right⟩ ⟨left', right'⟩ ⟨hleft, hright⟩ ⟨hleft', hright'⟩
    cases hleft.symm.trans hleft'
    cases hright.symm.trans hright'
    rfl
  obtain rfl := List.right_unique_forall₂' hunique hsides'' h'
  exact hperm''.symm

end EquationStore

namespace EquationSystem

/-- An exact solve of several equations is no error just when one of its passes is none. -/
theorem exists_exactSolve_isOk_iff (system : EquationSystem) (preferences : Preferences)
    {store : EquationStore} {context : Context} {sides : List (Term × Term)}
    (hsides : store.HasSides context.pool sides) (hdefines : context.DefinesTerms)
    (hlength : 2 ≤ store.equations.length) :
    ∃ first second solved left,
      Attempted.ofSides preferences system.settings false context.definedTerms sides = .ok first ∧
      Attempted.ofSides preferences system.settings true context.definedTerms sides = .ok second ∧
      system.exactSolve preferences store context = .ok (solved, left) ∧
      ((∃ outcome, solved.lastResult = some (.ok outcome)) ↔ first.IsOk ∨ second.IsOk) := by
  obtain ⟨first, second, context₁, context₂, hpasses⟩ :=
    exists_runsPasses preferences system.settings hsides.isLive
  obtain ⟨solved, left, hsolve, hstands, hadopts⟩ := exactSolve_of_runsPasses system hpasses
  obtain ⟨attempted, hattempted, rfl, hdefines₁, hterms, hextends⟩ :=
    exists_ofSides hsides hdefines hpasses.first_eq
  obtain ⟨retried, hretried, rfl, -⟩ :=
    exists_ofSides (hsides.extends hextends) hdefines₁ hpasses.second_eq
  rw [hterms] at hretried
  refine ⟨attempted, retried, solved, left, hattempted, hretried, hsolve, ?_⟩
  by_cases hfirst : FirstStands ⟨attempted.attempt.map context₁.pool.handleOf, attempted.result⟩
      ⟨retried.attempt.map context₂.pool.handleOf, retried.result⟩
  · rw [hstands hfirst]
    have hsolved : attempted.result = .ok .solved := hfirst.1
    exact iff_of_true ⟨.solved, congrArg some hsolved⟩ (.inl ⟨.solved, hsolved⟩)
  · rw [(hadopts hfirst).1]
    constructor
    · rintro ⟨outcome, houtcome⟩
      exact .inr ⟨outcome, Option.some.inj houtcome⟩
    · rintro (⟨outcome, houtcome⟩ | ⟨outcome, houtcome⟩)
      · cases outcome with
        | solved =>
          -- the first pass does not stand, so the second has not failed
          cases hresult : retried.result with
          | error e => exact absurd ⟨houtcome, .inr ⟨e, hresult⟩⟩ hfirst
          | ok other => exact ⟨other, rfl⟩
        | needsApproximation =>
          -- a search is for the roots of one equation only
          obtain ⟨hclassifies, -⟩ := ofStore_classifies hpasses.first_eq
          obtain ⟨unknown, interval, hkind⟩ := hclassifies.searched houtcome
          obtain ⟨-, -, equation, -, -, hequations, -⟩ := hclassifies.general unknown interval hkind
          rw [hequations] at hlength
          exact absurd hlength (by simp)
      · exact ⟨outcome, congrArg some houtcome⟩

/-- The order of the equations does not decide whether a system is solved, where each equation is
    read alike in any order and the systems that are linear are exact.  In each pass no standard
    form widens the complex format, or each is the same in the format that it is widened to; if the
    forms are affine functions of their symbols, their coefficients and constants are exact
    numbers; and in neither order elimination takes a number for a pivot that is beyond the size
    limit of exact powers. -/
theorem exactSolve_isOk_iff_of_perm (system : EquationSystem) (preferences : Preferences)
    {store store' : EquationStore} {context : Context} {sides sides' : List (Term × Term)}
    (hperm : store.equations.Perm store'.equations)
    (hsides : store.HasSides context.pool sides) (hsides' : store'.HasSides context.pool sides')
    (hdefines : context.DefinesTerms)
    (horder : ∀ keepsDefined, (Attempt.initial preferences keepsDefined).ReadsInAnyOrder preferences
      context.definedTerms sides)
    (hexact : ∀ keepsDefined, (Attempt.initial preferences keepsDefined).HasExactForms preferences
      context.definedTerms sides)
    (hinverts : ∀ keepsDefined, (Attempt.initial preferences keepsDefined).InvertsPivots preferences
      context.definedTerms sides)
    (hinverts' : ∀ keepsDefined, (Attempt.initial preferences keepsDefined).InvertsPivots preferences
      context.definedTerms sides') :
    ∃ solved left solved' left',
      system.exactSolve preferences store context = .ok (solved, left) ∧
      system.exactSolve preferences store' context = .ok (solved', left') ∧
      ((∃ outcome, solved.lastResult = some (.ok outcome)) ↔
        ∃ outcome, solved'.lastResult = some (.ok outcome)) := by
  rcases Nat.lt_or_ge store.equations.length 2 with hfew | hlength
  · -- with one equation at most there is one order only
    have hsame : store' = store := by
      obtain ⟨equations⟩ := store
      obtain ⟨equations'⟩ := store'
      congr 1
      match equations, hfew with
      | [], _ => exact List.nil_perm.1 hperm
      | [equation], _ => exact List.singleton_perm.1 hperm |>.symm
    obtain ⟨first, second, _, _, hpasses⟩ :=
      exists_runsPasses preferences system.settings hsides.isLive
    obtain ⟨solved, left, hsolve, -⟩ := exactSolve_of_runsPasses system hpasses
    exact ⟨solved, left, solved, left, hsolve, hsame ▸ hsolve, Iff.rfl⟩
  · have hsidesPerm := hsides.perm hsides' hperm
    have hlength' : 2 ≤ store'.equations.length := hperm.length_eq ▸ hlength
    have hsidesLength : 2 ≤ sides.length := (List.Forall₂.length_eq hsides) ▸ hlength
    have hsidesLength' : 2 ≤ sides'.length := (List.Forall₂.length_eq hsides') ▸ hlength'
    obtain ⟨first, second, solved, left, hfirst, hsecond, hsolve, hok⟩ :=
      exists_exactSolve_isOk_iff system preferences hsides hdefines hlength
    obtain ⟨first', second', solved', left', hfirst', hsecond', hsolve', hok'⟩ :=
      exists_exactSolve_isOk_iff system preferences hsides' hdefines hlength'
    have hpass {keepsDefined : Bool} {found found' : Attempted Term}
        (hfound : Attempted.ofSides preferences system.settings keepsDefined context.definedTerms
          sides = .ok found)
        (hfound' : Attempted.ofSides preferences system.settings keepsDefined context.definedTerms
          sides' = .ok found') : found.IsOk ↔ found'.IsOk :=
      ⟨Attempted.isOk_of_perm hsidesPerm hsidesLength (horder _) (hexact _) (hinverts _)
          (hinverts' _) hfound hfound',
        Attempted.isOk_of_perm hsidesPerm.symm hsidesLength' ((horder _).perm hsidesPerm)
          ((hexact _).perm hsidesPerm) (hinverts' _) (hinverts _) hfound' hfound⟩
    refine ⟨solved, left, solved', left', hsolve, hsolve', ?_⟩
    rw [hok, hok', hpass hfirst hfirst', hpass hsecond hsecond']

end EquationSystem

namespace Attempt

variable {preferences : Preferences} {definitions : Definitions} {attempt last : Attempt Term}

/-- Equations are read in one way only. -/
theorem invertsPivots_of_readSides {sides : List (Term × Term)} {forms : List Term}
    (rows : List (List Term))
    (hread : attempt.readSides preferences definitions sides = (last, .ok forms))
    (hrows : (Linear.augmentedRows (last.reduction preferences .analysis) last.unknowns.items
      forms).value = some rows)
    (hinverts : (Elimination.start (rows.map fun row => row.map fun t =>
      (Reduction.reduceKept (last.reduction preferences .approximation) t).value)).InvertsPivots
        (last.reduction preferences .approximation) (last.unknowns.items.length + 1)) :
    attempt.InvertsPivots preferences definitions sides := by
  intro last' forms' rows' hread' hrows'
  obtain ⟨rfl, hforms⟩ := Prod.ext_iff.1 (hread.symm.trans hread')
  obtain rfl := Except.ok.inj hforms
  obtain rfl := Option.some.inj (hrows.symm.trans hrows')
  rwa [rows_reduce_nil _ (m := ⟨rows, last.unknowns.items.length + 1⟩)
    (Linear.hasWidth_augmentedRows hrows).1]

end Attempt

/-! ### An order that does not matter -/

/-- The sides of `x = 1` and `x + y = 3`, with their parts. -/
def staircaseSides : List Term :=
  [.symbol "x", .symbol "y", .number 1, .number 3, .sum [.symbol "x", .symbol "y"]]

def pinEquation : Term × Term := (.symbol "x", .number 1)

def lineEquation : Term × Term := (.sum [.symbol "x", .symbol "y"], .number 3)

def pinForm : Term := .sum [.symbol "x", .number (-1)]

def lineForm : Term := .sum [.symbol "x", .symbol "y", .number (-3)]

section Staircase

variable (keepsDefined : Bool)

theorem standardForm_staircase (symbols : SymbolPolicy) :
    let s := (Attempt.initial {} keepsDefined).reduction {} .analysis
    (standardForm { s with symbols } [] pinEquation.1 pinEquation.2).value = pinForm ∧
      (standardForm { s with symbols } [] lineEquation.1 lineEquation.2).value = lineForm := by
  intro s
  rw [standardForm_nil, standardForm_nil]
  cases keepsDefined <;> cases symbols <;> decide +kernel

theorem isExactAffine_staircase : pinForm.IsExactAffine ∧ lineForm.IsExactAffine := by
  constructor
  · refine Term.isExactAffine_sum fun t ht => ?_
    rcases List.mem_pair.1 ht with rfl | rfl
    · exact .inl ⟨"x", rfl⟩
    · exact .inr ⟨-1, rfl⟩
  · refine Term.isExactAffine_sum fun t ht => ?_
    simp only [List.mem_cons, List.not_mem_nil, or_false] at ht
    rcases ht with rfl | rfl | rfl
    · exact .inl ⟨"x", rfl⟩
    · exact .inl ⟨"y", rfl⟩
    · exact .inr ⟨-3, rfl⟩

def staircaseAttempt (names : List String) : Attempt Term :=
  { Attempt.initial {} keepsDefined with unknowns := ⟨names, 6⟩ }

/-- Whatever the order, `x` is met before `y`. -/
theorem readSides_staircase :
    (Attempt.initial {} keepsDefined).readSides {} [] [pinEquation, lineEquation] =
        (staircaseAttempt keepsDefined ["x", "y"], .ok [pinForm, lineForm]) ∧
      (Attempt.initial {} keepsDefined).readSides {} [] [lineEquation, pinEquation] =
        (staircaseAttempt keepsDefined ["x", "y"], .ok [lineForm, pinForm]) := by
  have hpin (names : List String) :=
    Attempt.value_readEquation_nil (staircaseAttempt keepsDefined names) pinForm fun symbols =>
      (standardForm_staircase keepsDefined symbols).1
  have hline (names : List String) :=
    Attempt.value_readEquation_nil (staircaseAttempt keepsDefined names) lineForm fun symbols =>
      (standardForm_staircase keepsDefined symbols).2
  exact ⟨Attempt.readSides_pair ((hpin []).trans rfl) ((hline ["x"]).trans rfl),
    Attempt.readSides_pair ((hline []).trans rfl) ((hpin ["x", "y"]).trans rfl)⟩

variable {sides : List (Term × Term)}
  (hsides : sides = [pinEquation, lineEquation] ∨ sides = [lineEquation, pinEquation])

include hsides

theorem forall_formOf_staircase {P : Term → Prop} (hpin : P pinForm) (hline : P lineForm) :
    ∀ equation ∈ sides, P ((Attempt.initial {} keepsDefined).formOf {} [] equation) := by
  have hforms := standardForm_staircase keepsDefined
    ((Attempt.initial {} keepsDefined).reduction {} .analysis).symbols
  have hpinForm : (Attempt.initial {} keepsDefined).formOf {} [] pinEquation = pinForm := hforms.1
  have hlineForm : (Attempt.initial {} keepsDefined).formOf {} [] lineEquation = lineForm := hforms.2
  intro equation hequation
  have hcases : equation = pinEquation ∨ equation = lineEquation := by
    rcases hsides with rfl | rfl <;> rcases List.mem_pair.1 hequation with rfl | rfl <;> simp
  rcases hcases with rfl | rfl
  · exact hpinForm.symm ▸ hpin
  · exact hlineForm.symm ▸ hline

theorem readsInAnyOrder_staircase :
    (Attempt.initial {} keepsDefined).ReadsInAnyOrder {} [] sides :=
  .inl (forall_formOf_staircase keepsDefined hsides
    (P := fun form => ComplexFormat.real.updatedFor form = .real) rfl rfl)

theorem hasExactForms_staircase : (Attempt.initial {} keepsDefined).HasExactForms {} [] sides :=
  fun _ => forall_formOf_staircase keepsDefined hsides isExactAffine_staircase.1
    isExactAffine_staircase.2

theorem invertsPivots_staircase : (Attempt.initial {} keepsDefined).InvertsPivots {} [] sides := by
  obtain ⟨hpinFirst, hlineFirst⟩ := readSides_staircase keepsDefined
  rcases hsides with rfl | rfl
  · refine Attempt.invertsPivots_of_readSides
      [[.number 1, .number 0, .negation (.number (-1))],
        [.number 1, .number 1, .negation (.number (-3))]] hpinFirst ?_ ?_
    · cases keepsDefined <;> decide +kernel
    · cases keepsDefined <;>
        exact Elimination.invertsPivots_of_holdsAlong (by decide +kernel) (Nat.zero_add 3)
  · refine Attempt.invertsPivots_of_readSides
      [[.number 1, .number 1, .negation (.number (-3))],
        [.number 1, .number 0, .negation (.number (-1))]] hlineFirst ?_ ?_
    · cases keepsDefined <;> decide +kernel
    · cases keepsDefined <;>
        exact Elimination.invertsPivots_of_holdsAlong (by decide +kernel) (Nat.zero_add 3)

end Staircase

namespace EquationSystem

/-- The equations `x = 1` and `x + y = 3` are solved in both orders or in none. -/
theorem exactSolve_isOk_iff_of_perm_staircase :
    let context := Context.ofTerms staircaseSides []
    let store := EquationStore.ofSides context.pool [pinEquation, lineEquation]
    let store' := EquationStore.ofSides context.pool [lineEquation, pinEquation]
    ∃ solved left solved' left',
      (unsolved {} {}).exactSolve {} store context = .ok (solved, left) ∧
      (unsolved {} {}).exactSolve {} store' context = .ok (solved', left') ∧
      ((∃ outcome, solved.lastResult = some (.ok outcome)) ↔
        ∃ outcome, solved'.lastResult = some (.ok outcome)) := by
  intro context store store'
  have hparts : ∀ (i : Nat) (hi : i < staircaseSides.length),
      ∀ u ∈ staircaseSides[i].children, u ∈ staircaseSides.take i := by decide
  obtain ⟨hdefines, hterms⟩ :=
    Context.definesTerms_ofTerms staircaseSides hparts (List.forall_mem_nil _)
  refine exactSolve_isOk_iff_of_perm (unsolved {} {}) {} (List.Perm.swap _ _ _)
    (EquationStore.hasSides_ofSides staircaseSides hparts (by decide))
    (EquationStore.hasSides_ofSides staircaseSides hparts (by decide)) hdefines
    (fun keepsDefined => ?_) (fun keepsDefined => ?_) (fun keepsDefined => ?_)
    fun keepsDefined => ?_
  all_goals rw [hterms]
  · exact readsInAnyOrder_staircase keepsDefined (.inl rfl)
  · exact hasExactForms_staircase keepsDefined (.inl rfl)
  · exact invertsPivots_staircase keepsDefined (.inl rfl)
  · exact invertsPivots_staircase keepsDefined (.inr rfl)

end EquationSystem

/-! ### An order that is not solved -/

/-- The square root of minus one, as it is written. -/
def imaginaryRoot : Term := .power (.negation (.number 1)) (.number (1 / 2))

/-- The sides of `x = i` and `x = √(-1) + 1`, with their parts. -/
def imaginarySides : List Term :=
  [.symbol "x", .constant .i, .number 1, .negation (.number 1), .number (1 / 2), imaginaryRoot,
    .sum [imaginaryRoot, .number 1]]

def unitEquation : Term × Term := (.symbol "x", .constant .i)

def rootEquation : Term × Term := (.symbol "x", .sum [imaginaryRoot, .number 1])

/-- The standard forms of the equations in the cartesian format. -/
def imaginaryForms : List Term :=
  [.sum [.symbol "x", .product [.number (-1), .constant .i]],
    .sum [.symbol "x", .product [.number (-1), .constant .i], .number (-1)]]

section Imaginary

variable (keepsDefined : Bool)

def imaginaryAttempt : Attempt Term :=
  { Attempt.initial {} keepsDefined with complexFormat := .cartesian, unknowns := ⟨["x"], 6⟩ }

/-- The root of minus one is not real in the real format and the imaginary unit in the cartesian. -/
theorem standardForm_imaginary (symbols : SymbolPolicy) :
    let s := { (Attempt.initial {} keepsDefined).reduction {} .analysis with symbols }
    let s' := { (imaginaryAttempt keepsDefined).reduction {} .analysis with symbols }
    (standardForm s [] unitEquation.1 unitEquation.2).value = imaginaryForms[0] ∧
      (standardForm s [] rootEquation.1 rootEquation.2).value = .nonreal ∧
      (standardForm s' [] rootEquation.1 rootEquation.2).value = imaginaryForms[1] := by
  intro s s'
  rw [standardForm_nil, standardForm_nil, standardForm_nil]
  cases keepsDefined <;> cases symbols <;> decide +kernel

/-- The imaginary unit is read first, and widens the complex format. -/
theorem readSides_unitEquation :
    (Attempt.initial {} keepsDefined).readSides {} [] [unitEquation, rootEquation] =
      (imaginaryAttempt keepsDefined, .ok imaginaryForms) := by
  have hunit : ((Attempt.initial {} keepsDefined).readEquation {} [] unitEquation.1
      unitEquation.2).value = (imaginaryAttempt keepsDefined, .ok imaginaryForms[0]) :=
    (Attempt.value_readEquation_nil _ imaginaryForms[0] fun symbols =>
      (standardForm_imaginary keepsDefined symbols).1).trans rfl
  have hroot : ((imaginaryAttempt keepsDefined).readEquation {} [] rootEquation.1
      rootEquation.2).value = (imaginaryAttempt keepsDefined, .ok imaginaryForms[1]) :=
    (Attempt.value_readEquation_nil _ imaginaryForms[1] fun symbols =>
      (standardForm_imaginary keepsDefined symbols).2.2).trans rfl
  exact Attempt.readSides_pair hunit hroot

theorem readSides_rootEquation :
    (Attempt.initial {} keepsDefined).readSides {} [] [rootEquation, unitEquation] =
      (Attempt.initial {} keepsDefined, .error .equationNonreal) := by
  have hroot : ((Attempt.initial {} keepsDefined).readEquation {} [] rootEquation.1
      rootEquation.2).value = (Attempt.initial {} keepsDefined, .error .equationNonreal) :=
    (Attempt.value_readEquation_nil _ .nonreal fun symbols =>
      (standardForm_imaginary keepsDefined symbols).2.1).trans rfl
  exact Attempt.readSides_cons_of_error hroot

def imaginaryMatrix : SymbolicMatrix :=
  ⟨[[.number 1, .negation (.product [.number (-1), .constant .i])],
    [.number 1, .negation (.sum [.product [.number (-1), .constant .i], .number (-1)])]], 2⟩

/-- The rows with their entries reduced. -/
def imaginaryRows : List (List Term) :=
  [[.number 1, .constant .i],
    [.number 1, .product [.number (-1), .sum [.product [.number (-1), .constant .i], .number (-1)]]]]

theorem hasRank_imaginary : (imaginaryAttempt keepsDefined).HasRank {} [] imaginaryForms
    imaginaryMatrix ⟨[[.number 1, .number 0], [.number 0, .number 1]], 2⟩ 2 := by
  have hrows : (Linear.augmentedRows ((imaginaryAttempt keepsDefined).reduction {} .analysis) ["x"]
        imaginaryForms).value = some imaginaryMatrix.rows ∧
      (imaginaryMatrix.reduce ((imaginaryAttempt keepsDefined).reduction {} .approximation)
        []).value = ⟨imaginaryRows, 2⟩ ∧
      (SymbolicMatrix.eliminate ((imaginaryAttempt keepsDefined).reduction {} .approximation) 2 0 0
        imaginaryRows).value = ([[.number 1, .number 0], [.number 0, .number 1]], 2) := by
    rw [SymbolicMatrix.value_reduce_nil]
    cases keepsDefined <;> decide +kernel
  obtain ⟨haugmented, hreduce, heliminate⟩ := hrows
  exact ⟨⟨imaginaryMatrix.rows, haugmented, rfl⟩,
    SymbolicMatrix.value_rank hreduce heliminate rfl rfl⟩

/-- The system is seen to have no solutions. -/
theorem ofSides_unitEquation :
    Attempted.ofSides {} {} keepsDefined [] [unitEquation, rootEquation] =
      .ok ⟨{ imaginaryAttempt keepsDefined with kind := some .linear }, .ok .solved⟩ := by
  rw [Attempted.ofSides_of_ok (readSides_unitEquation keepsDefined)]
  refine (Attempt.value_solveForms_of_contradiction (hasRank_imaginary keepsDefined) ?_).trans rfl
  cases keepsDefined <;> rfl

theorem ofSides_rootEquation :
    Attempted.ofSides {} {} keepsDefined [] [rootEquation, unitEquation] =
      .ok ⟨Attempt.initial {} keepsDefined, .error .equationNonreal⟩ := by
  unfold Attempted.ofSides
  rw [readSides_rootEquation]

end Imaginary

namespace EquationSystem

/-- The order can decide: `x = i` before `x = √(-1) + 1` is solved, behind it the solve fails. -/
theorem exactSolve_depends_on_order :
    let context := Context.ofTerms imaginarySides []
    let store := EquationStore.ofSides context.pool [unitEquation, rootEquation]
    let store' := EquationStore.ofSides context.pool [rootEquation, unitEquation]
    store.equations.Perm store'.equations ∧
    ∃ solved left solved' left',
      (unsolved {} {}).exactSolve {} store context = .ok (solved, left) ∧
      (unsolved {} {}).exactSolve {} store' context = .ok (solved', left') ∧
      solved.lastResult = some (.ok .solved) ∧
      solved'.lastResult = some (.error .equationNonreal) := by
  intro context store store'
  have hchildren : ∀ (i : Nat) (hi : i < imaginarySides.length),
      ∀ u ∈ imaginarySides[i].children, u ∈ imaginarySides.take i := by
    rintro i (hi : i < 7)
    interval_cases i <;> simp [imaginarySides, imaginaryRoot, Term.children]
  have hunit : unitEquation.1 ∈ imaginarySides ∧ unitEquation.2 ∈ imaginarySides := by
    simp [imaginarySides, unitEquation]
  have hroot : rootEquation.1 ∈ imaginarySides ∧ rootEquation.2 ∈ imaginarySides := by
    simp [imaginarySides, rootEquation]
  obtain ⟨_, _, hpasses⟩ := runsPasses_of_sides imaginarySides hchildren (List.forall_mem_nil _)
    (List.forall_mem_cons.2 ⟨hunit, List.forall_mem_singleton.2 hroot⟩)
    (ofSides_unitEquation false) (ofSides_unitEquation true)
  obtain ⟨_, _, hpasses'⟩ := runsPasses_of_sides imaginarySides hchildren (List.forall_mem_nil _)
    (List.forall_mem_cons.2 ⟨hroot, List.forall_mem_singleton.2 hunit⟩)
    (ofSides_rootEquation false) (ofSides_rootEquation true)
  obtain ⟨solved, left, hsolve, -, hadopts⟩ := exactSolve_of_runsPasses (unsolved {} {}) hpasses
  obtain ⟨solved', left', hsolve', -, hadopts'⟩ := exactSolve_of_runsPasses (unsolved {} {}) hpasses'
  refine ⟨List.Perm.swap _ _ _, solved, left, solved', left', hsolve, hsolve', ?_, ?_⟩
  · rw [(hadopts fun hstands => hstands.2.elim (fun hlisted => hlisted rfl) nofun).1]
    rfl
  · rw [(hadopts' fun hstands => nomatch hstands.1).1]
    rfl

end EquationSystem

end EquationSolver
