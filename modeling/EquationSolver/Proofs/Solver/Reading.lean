import EquationSolver.Proofs.Solver.Consistency
import EquationSolver.Proofs.Solver.Passes

/-!
# Reading equations in any order

Each equation is read in the complex format that the ones before it have left behind.  Where it is
read as the same standard form in all these formats, the forms do not depend on the order.  As long
as none of them widens the format, the equations can be read when each of the forms can be solved
and there is room for all symbols together.  Where nothing is defined and all forms are real, each
pass of an exact solve reads the same standard forms, and its unknowns are the symbols in them.
-/

namespace EquationSolver

open Reduction (Settings)

/-! ### Collected symbols -/

namespace VariableSet

variable {names : List String} {set : VariableSet String}

/-- A set without repetitions that holds some of the names, and has room for all of them. -/
structure Within (names : List String) (set : VariableSet String) : Prop where
  nodup : set.items.Nodup
  subset : set.items ⊆ names
  room : names.length ≤ set.capacity

theorem Within.insertKept (h : set.Within names) {name : String} (hname : name ∈ names) :
    ∃ set', insertKept (fun _ => true) set name = (set', none) ∧ set'.Within names := by
  unfold VariableSet.insertKept insert
  rw [if_pos rfl]
  by_cases hmem : name ∈ set.items
  · rw [if_pos hmem]
    exact ⟨set, rfl, h⟩
  · have hnodup : (set.items ++ [name]).Nodup :=
      List.nodup_append.2 ⟨h.nodup, List.nodup_singleton name, fun a ha b hb heq =>
        hmem (List.mem_singleton.1 hb ▸ heq ▸ ha)⟩
    have hsubset : set.items ++ [name] ⊆ names :=
      List.append_subset.2 ⟨h.subset, fun _ ha => List.mem_singleton.1 ha ▸ hname⟩
    have hlength := (hnodup.subperm hsubset).length_le
    rw [List.length_append, List.length_singleton] at hlength
    rw [if_neg hmem, if_pos (Nat.lt_of_succ_le (hlength.trans h.room))]
    exact ⟨_, rfl, hnodup, hsubset, h.room⟩

mutual

/-- The symbols of a term are collected where there is room for them. -/
theorem Within.collect : ∀ {t : Term} {set : VariableSet String}, set.Within names →
    (∀ name, t.Mentions name → name ∈ names) →
      ∃ set', collect (fun _ => true) set t = (set', none) ∧ set'.Within names
  | .number _, set, h, _ | .decimal _, set, h, _ | .constant _, set, h, _
  | .undefined, set, h, _ | .nonreal, set, h, _ => ⟨set, by rw [VariableSet.collect], h⟩
  | .symbol name, _, h, hnames => by
    rw [VariableSet.collect]
    exact h.insertKept (hnames name (Term.mentions_symbol.2 rfl))
  | .sum terms, _, h, hnames | .product terms, _, h, hnames | .matrix _ _ terms, _, h, hnames => by
    rw [VariableSet.collect]
    exact h.collectAll fun t ht name hname => hnames name (by simpa using ⟨t, ht, hname⟩)
  | .power a b, _, h, hnames | .quotient a b, _, h, hnames => by
    obtain ⟨middle, hfirst, hmiddle⟩ := h.collect (t := a) fun name hname =>
      hnames name (by simp [hname])
    rw [VariableSet.collect, hfirst]
    exact hmiddle.collect fun name hname => hnames name (by simp [hname])
  | .negation a, _, h, hnames | .apply _ a, _, h, hnames => by
    rw [VariableSet.collect]
    exact h.collect fun name hname => hnames name (by simpa using hname)

theorem Within.collectAll : ∀ {terms : List Term} {set : VariableSet String}, set.Within names →
    (∀ t ∈ terms, ∀ name, t.Mentions name → name ∈ names) →
      ∃ set', collectAll (fun _ => true) set terms = (set', none) ∧ set'.Within names
  | [], set, h, _ => ⟨set, by rw [VariableSet.collectAll], h⟩
  | t :: ts, _, h, hnames => by
    obtain ⟨ht, hts⟩ := List.forall_mem_cons.1 hnames
    obtain ⟨middle, hfirst, hmiddle⟩ := h.collect ht
    rw [VariableSet.collectAll, hfirst]
    exact hmiddle.collectAll hts

end

end VariableSet

/-! ### Reading -/

namespace Attempt

variable {preferences : Preferences} {definitions : Definitions}
  {attempt base next last : Attempt Term} {sides : List (Term × Term)} {forms : List Term}

/-- The settings are those of the preferences, but for the format and the way to take defined
    symbols. -/
theorem reduction_congr {attempt attempt' : Attempt Term}
    (hkeeps : attempt'.keepsDefined = attempt.keepsDefined)
    (hformat : attempt'.complexFormat = attempt.complexFormat) :
    attempt'.reduction preferences = attempt.reduction preferences := by
  funext target
  unfold reduction
  rw [hkeeps, hformat]

/-- The standard form that is read has the defined symbols kept or replaced as the settings say. -/
theorem value_readEquation_reduction (preferences : Preferences) (definitions : Definitions)
    (attempt : Attempt Term) (left right : Term) :
    ∃ userVariables, (readEquation preferences definitions attempt left right).value =
      addForm { attempt with userVariables }
        (standardForm (attempt.reduction preferences .analysis) definitions left right).value := by
  refine ⟨_, (value_readEquation attempt left right).trans (congrArg (addForm _) ?_)⟩
  cases hkeeps : attempt.keepsDefined with
  | false => rfl
  | true =>
    have hsettings : { attempt.reduction preferences .analysis with symbols := .keepAll } =
        attempt.reduction preferences .analysis := by
      unfold reduction
      rw [hkeeps]
      rfl
    rw [hsettings]
    rfl

theorem of_addForm_eq_ok {form form' : Term} (h : attempt.addForm form = (next, .ok form')) :
    form' = form ∧ ∃ unknowns,
      VariableSet.collect (fun _ => true) attempt.unknowns form = (unknowns, none) ∧
      next = { attempt with
        complexFormat := attempt.complexFormat.updatedFor form
        unknowns := unknowns } := by
  unfold addForm at h
  split at h
  case h_1 => cases h
  case h_2 =>
    generalize hcollect : VariableSet.collect (fun _ => true) attempt.unknowns form = collected at h
    obtain ⟨unknowns, overflow⟩ := collected
    cases overflow with
    | some e => cases h
    | none =>
      cases h
      exact ⟨rfl, unknowns, rfl, rfl⟩

theorem checkForm_of_addForm_eq_ok {form form' : Term}
    (h : attempt.addForm form = (next, .ok form')) : checkForm form = .ok () := by
  unfold addForm at h
  split at h
  case h_1 => cases h
  case h_2 hcheck => exact hcheck

/-- A form that can be solved is added where there is room for its symbols. -/
theorem exists_addForm {names : List String} {form : Term} (hcheck : checkForm form = .ok ())
    (hwithin : attempt.unknowns.Within names)
    (hnames : ∀ name, form.Mentions name → name ∈ names) :
    ∃ unknowns, unknowns.Within names ∧ attempt.addForm form = ({ attempt with
      complexFormat := attempt.complexFormat.updatedFor form, unknowns := unknowns }, .ok form) := by
  obtain ⟨unknowns, hcollect, hunknowns⟩ := hwithin.collect hnames
  refine ⟨unknowns, hunknowns, ?_⟩
  unfold addForm
  rw [hcheck, hcollect]
  rfl

/-- The standard form that an attempt reads an equation as. -/
def formOf (preferences : Preferences) (definitions : Definitions) (attempt : Attempt Term)
    (equation : Term × Term) : Term :=
  (standardForm (attempt.reduction preferences .analysis) definitions equation.1 equation.2).value

theorem formOf_congr (preferences : Preferences) (definitions : Definitions)
    (hkeeps : next.keepsDefined = attempt.keepsDefined)
    (hformat : next.complexFormat = attempt.complexFormat) :
    next.formOf preferences definitions = attempt.formOf preferences definitions := by
  unfold formOf
  rw [reduction_congr hkeeps hformat]

/-- In each of these complex formats the equations are read as the same standard forms, and the
    forms widen it to one of them again. -/
def ReadsAlike (preferences : Preferences) (definitions : Definitions)
    (formats : ComplexFormat → Prop) (attempt : Attempt Term) (sides : List (Term × Term)) : Prop :=
  ∀ equation ∈ sides, ∀ format, formats format →
    { attempt with complexFormat := format }.formOf preferences definitions equation =
        attempt.formOf preferences definitions equation ∧
      formats (format.updatedFor (attempt.formOf preferences definitions equation))

/-- No standard form widens the complex format. -/
def KeepsFormat (preferences : Preferences) (definitions : Definitions) (attempt : Attempt Term)
    (sides : List (Term × Term)) : Prop :=
  ∀ equation ∈ sides, attempt.complexFormat.updatedFor
    (attempt.formOf preferences definitions equation) = attempt.complexFormat

theorem KeepsFormat.congr (h : attempt.KeepsFormat preferences definitions sides)
    (hkeeps : next.keepsDefined = attempt.keepsDefined)
    (hformat : next.complexFormat = attempt.complexFormat) :
    next.KeepsFormat preferences definitions sides := by
  unfold KeepsFormat
  rw [formOf_congr preferences definitions hkeeps hformat, hformat]
  exact h

theorem KeepsFormat.readsAlike (h : attempt.KeepsFormat preferences definitions sides) :
    attempt.ReadsAlike preferences definitions (· = attempt.complexFormat) sides := by
  rintro equation hequation format rfl
  exact ⟨rfl, h equation hequation⟩

/-- An attempt has read standard forms that can be solved: the unknowns hold the symbols in the
    forms, each once. -/
structure ReadsForms (attempt last : Attempt Term) (forms : List Term) : Prop where
  keepsDefined : last.keepsDefined = attempt.keepsDefined
  checked : ∀ form ∈ forms, checkForm form = .ok ()
  subset : attempt.unknowns.items ⊆ last.unknowns.items
  mentions : ∀ form ∈ forms, ∀ name, form.Mentions name → name ∈ last.unknowns.items
  nodup : attempt.unknowns.items.Nodup → last.unknowns.items.Nodup
  isReady : attempt.IsReady → last.IsReady
  unknowns_eq : forms = [] → last.unknowns = attempt.unknowns

/-- Reading an equation adds the symbols of its standard form and widens the format to it. -/
theorem of_readEquation {left right form : Term}
    (h : (readEquation preferences definitions attempt left right).value = (next, .ok form)) :
    form = attempt.formOf preferences definitions (left, right) ∧
      next.complexFormat = attempt.complexFormat.updatedFor form ∧
      attempt.ReadsForms next [form] := by
  have hready (hready : attempt.IsReady) : next.IsReady := by
    have hnext : (readEquation preferences definitions attempt left right).value.1.IsReady :=
      hready.readEquation left right
    rwa [h] at hnext
  obtain ⟨userVariables, hvalue⟩ :=
    value_readEquation_reduction preferences definitions attempt left right
  have hadd := hvalue.symm.trans h
  have hcheck := checkForm_of_addForm_eq_ok hadd
  obtain ⟨rfl, unknowns, hcollect, rfl⟩ := of_addForm_eq_ok hadd
  obtain ⟨hsubset, hmem⟩ := VariableSet.of_collect hcollect
  refine ⟨rfl, rfl, rfl, List.forall_mem_singleton.2 hcheck, hsubset,
    List.forall_mem_singleton.2 hmem, fun hnodup => ?_, hready, fun h => nomatch h⟩
  have hcollected : (VariableSet.collect (fun _ => true) attempt.unknowns (standardForm
      (attempt.reduction preferences .analysis) definitions left right).value).1.items.Nodup :=
    VariableSet.nodup_collect _ hnodup
  rwa [hcollect] at hcollected

/-- Equations that have all been read have been read as the same forms, whatever was read before
    them. -/
theorem of_readSides_alike {formats : ComplexFormat → Prop}
    (halike : base.ReadsAlike preferences definitions formats sides)
    (hkeeps : attempt.keepsDefined = base.keepsDefined) (hformat : formats attempt.complexFormat)
    (h : attempt.readSides preferences definitions sides = (last, .ok forms)) :
    forms = sides.map (base.formOf preferences definitions) ∧ formats last.complexFormat ∧
      attempt.ReadsForms last forms := by
  induction sides generalizing attempt forms with
  | nil =>
    cases h
    exact ⟨rfl, hformat, rfl, by simp, List.Subset.refl _, by simp, id, id, fun _ => rfl⟩
  | cons equation rest ih =>
    obtain ⟨left, right⟩ := equation
    obtain ⟨hequation, hrest⟩ := List.forall_mem_cons.1 halike
    obtain ⟨hform, hwidened⟩ := hequation attempt.complexFormat hformat
    have hcongr : attempt.formOf preferences definitions =
        { base with complexFormat := attempt.complexFormat }.formOf preferences definitions :=
      formOf_congr preferences definitions hkeeps rfl
    have hsame := (congrFun hcongr (left, right)).trans hform
    unfold readSides at h
    generalize hread : (readEquation preferences definitions attempt left right).value = read at h
    obtain ⟨next, form⟩ := read
    cases form with
    | error e => cases h
    | ok form =>
      dsimp only at h
      obtain ⟨rfl, hnext, hfirst⟩ := of_readEquation hread
      rw [hsame] at hnext
      generalize hothers : next.readSides preferences definitions rest = others at h
      obtain ⟨last', found⟩ := others
      cases found with
      | error e => cases h
      | ok found =>
        cases h
        obtain ⟨rfl, hlast, hothers⟩ := ih hrest (hfirst.keepsDefined.trans hkeeps)
          (hnext ▸ hwidened) hothers
        refine ⟨by rw [hsame]; rfl, hlast, ?_⟩
        constructor
        case keepsDefined => exact hothers.keepsDefined.trans hfirst.keepsDefined
        case checked =>
          exact List.forall_mem_cons.2 ⟨hfirst.checked _ List.mem_cons_self, hothers.checked⟩
        case subset => exact List.Subset.trans hfirst.subset hothers.subset
        case mentions =>
          exact List.forall_mem_cons.2 ⟨fun name hname =>
            hothers.subset (hfirst.mentions _ List.mem_cons_self name hname), hothers.mentions⟩
        case nodup => exact fun h => hothers.nodup (hfirst.nodup h)
        case isReady => exact fun h => hothers.isReady (hfirst.isReady h)
        case unknowns_eq => rintro ⟨⟩

theorem of_readSides (hkeeps : attempt.KeepsFormat preferences definitions sides)
    (h : attempt.readSides preferences definitions sides = (last, .ok forms)) :
    forms = sides.map (attempt.formOf preferences definitions) ∧
      last.complexFormat = attempt.complexFormat ∧ attempt.ReadsForms last forms :=
  of_readSides_alike hkeeps.readsAlike rfl rfl h

/-- Equations whose forms can be solved are read where there is room for their symbols. -/
theorem exists_readSides {names : List String}
    (hkeeps : attempt.KeepsFormat preferences definitions sides)
    (hchecked : ∀ equation ∈ sides,
      checkForm (attempt.formOf preferences definitions equation) = .ok ())
    (hwithin : attempt.unknowns.Within names)
    (hnames : ∀ equation ∈ sides, ∀ name,
      (attempt.formOf preferences definitions equation).Mentions name → name ∈ names) :
    ∃ last forms, attempt.readSides preferences definitions sides = (last, .ok forms) ∧
      last.unknowns.Within names := by
  induction sides generalizing attempt with
  | nil => exact ⟨attempt, [], rfl, hwithin⟩
  | cons equation rest ih =>
    obtain ⟨left, right⟩ := equation
    obtain ⟨hkeep, hrest⟩ := List.forall_mem_cons.1 hkeeps
    obtain ⟨hcheck, hchecks⟩ := List.forall_mem_cons.1 hchecked
    obtain ⟨hname, hothers⟩ := List.forall_mem_cons.1 hnames
    obtain ⟨userVariables, hvalue⟩ :=
      value_readEquation_reduction preferences definitions attempt left right
    have hnoted : (VariableSet.Within names ({ attempt with userVariables } : Attempt Term).unknowns) :=
      hwithin
    obtain ⟨unknowns, hunknowns, hadd⟩ := exists_addForm hcheck hnoted hname
    generalize hnext : { attempt with
      complexFormat := attempt.complexFormat.updatedFor
        (attempt.formOf preferences definitions (left, right))
      userVariables := userVariables
      unknowns := unknowns } = next
    have hread : (readEquation preferences definitions attempt left right).value =
        (next, .ok (attempt.formOf preferences definitions (left, right))) :=
      hnext ▸ hvalue.trans hadd
    have hdefined : next.keepsDefined = attempt.keepsDefined := hnext ▸ rfl
    have hformat : next.complexFormat = attempt.complexFormat := hnext ▸ hkeep
    have hsame := formOf_congr preferences definitions hdefined hformat
    obtain ⟨last, found, hrest, hlast⟩ := ih (KeepsFormat.congr hrest hdefined hformat)
      (hsame ▸ hchecks) (hnext ▸ hunknowns) (hsame ▸ hothers)
    refine ⟨last, attempt.formOf preferences definitions (left, right) :: found, ?_, hlast⟩
    rw [readSides_cons_of_ok (p := (left, right)) hread, hrest]
    rfl

end Attempt

/-! ### The forms that an exact solve works on -/

namespace Attempt

variable {preferences : Preferences} {settings : SolverSettings} {definitions : Definitions}
  {attempt attempt' : Attempt Term}

/-- The standard forms of equations that are given by their sides, where nothing is defined. -/
def standardForms (preferences : Preferences) (attempt : Attempt Term)
    (sides : List (Term × Term)) : List Term :=
  sides.map fun p => (standardForm (attempt.reduction preferences .analysis) [] p.1 p.2).value

/-- Real forms have been read: the settings are still the same, and the unknowns are the symbols
    that occur, each once. -/
structure ReadsReal (preferences : Preferences) (attempt attempt' : Attempt Term)
    (sides : List (Term × Term)) (forms : List Term) : Prop where
  forms_eq : forms = attempt.standardForms preferences sides
  keepsDefined : attempt'.keepsDefined = attempt.keepsDefined
  complexFormat : attempt'.complexFormat = attempt.complexFormat
  subset : attempt.unknowns.items ⊆ attempt'.unknowns.items
  mentions : ∀ form ∈ forms, ∀ name, form.Mentions name → name ∈ attempt'.unknowns.items
  nodup : attempt.unknowns.items.Nodup → attempt'.unknowns.items.Nodup
  isReady : attempt.IsReady → attempt'.IsReady
  unknowns_eq : forms = [] → attempt'.unknowns = attempt.unknowns

/-- Real forms do not widen the complex format. -/
theorem keepsFormat_of_real {ρ : String → ℝ} {sides : List (Term × Term)}
    (hforms : ∀ form ∈ attempt.standardForms preferences sides, (Valuation.real ρ).HasValue form) :
    attempt.KeepsFormat preferences [] sides := by
  intro equation hequation
  have hvalue : (Valuation.real ρ).HasValue (attempt.formOf preferences [] equation) :=
    hforms _ (List.mem_map_of_mem hequation)
  unfold ComplexFormat.updatedFor
  rw [Valuation.containsImaginaryUnit_of_hasValue ρ hvalue]
  simp

theorem readsReal_of_readSides {ρ : String → ℝ} {sides : List (Term × Term)} {forms : List Term}
    (hforms : ∀ form ∈ attempt.standardForms preferences sides, (Valuation.real ρ).HasValue form)
    (h : attempt.readSides preferences [] sides = (attempt', .ok forms)) :
    attempt.ReadsReal preferences attempt' sides forms := by
  obtain ⟨hforms, hformat, hreads⟩ := of_readSides (keepsFormat_of_real hforms) h
  exact ⟨hforms, hreads.keepsDefined, hformat, hreads.subset, hreads.mentions,
    hreads.nodup, hreads.isReady, hreads.unknowns_eq⟩

/-- Forms with an augmented matrix are solved as a linear system, and the answer to it is
    reported. -/
theorem ensures_solveForms_of_rows (hready : attempt.IsReady) {forms : List Term}
    {rows : List (List Term)}
    (hrows : (Linear.augmentedRows (attempt.reduction preferences .analysis) attempt.unknowns.items
      forms).value = some rows) (hempty : rows = [] → attempt.unknowns.items.length = 0) :
    (attempt.solveForms preferences settings definitions forms).Ensures fun found =>
      found.attempt.kind = some .linear ∧
      (found.result = .ok .solved → ∃ answer,
        Linear.Answers (attempt.reduction preferences) definitions
          attempt.unknowns.items.length rows answer ∧
        attempt.Reports preferences settings definitions answer found.attempt) := by
  have hlinear : (attempt.solveLinear preferences settings definitions forms).Ensures fun found =>
      found.result ≠ .error .nonlinearSystem ∧ found.attempt.kind = some .linear ∧
      (found.result = .ok .solved → ∃ answer,
        Linear.Answers (attempt.reduction preferences) definitions
          attempt.unknowns.items.length rows answer ∧
        attempt.Reports preferences settings definitions answer found.attempt) := by
    unfold solveLinear
    apply CheckedBuild.ensures_build_bind
    rw [hrows]
    intro found hfound
    obtain ⟨found', hfound', hresult⟩ := yields_solveRows preferences settings definitions hready
      (Linear.hasWidth_augmentedRows hrows).1 hempty
    obtain rfl := Except.ok.inj (hfound.symm.trans hfound')
    exact ⟨hresult, ensures_solveRows hready.registry rows found hfound⟩
  unfold solveForms
  refine hlinear.bind ?_
  rintro linear ⟨hresult, hanswered⟩
  split
  · exact absurd ‹linear.result = .error .nonlinearSystem› hresult
  · exact CheckedBuild.ensures_pure hanswered

/-- What the values of the unknowns are listed as depends on the settings only. -/
theorem showing_congr (h : attempt'.reduction preferences = attempt.reduction preferences)
    (hasMore : Bool) : attempt'.showing preferences hasMore = attempt.showing preferences hasMore := by
  unfold showing
  rw [h]

end Attempt

namespace EquationSystem

/-- What an exact solve without definitions comes to is what one of its passes over the sides of
    the equations comes to. -/
theorem exists_pass_of_sides {preferences : Preferences} {store : EquationStore}
    {context left : Context} {sides : List (Term × Term)} {system solved : EquationSystem}
    (hsides : store.HasSides context.pool sides) (hdefinitions : context.definitions = [])
    (h : system.exactSolve preferences store context = .ok (solved, left)) :
    ∃ keepsDefined found after,
      Attempted.ofSides preferences system.settings keepsDefined [] sides = .ok found ∧
      found.attempt.keepsDefined = keepsDefined ∧
      solved = system.adopt ⟨found.attempt.map after.pool.handleOf, found.result⟩ ∧
      (found.attempt.registry.solutions ≠ [] → left = after) := by
  have hdefines : context.DefinesTerms := by
    unfold Context.DefinesTerms
    simp [hdefinitions]
  have hterms : context.definedTerms = [] := by
    unfold Context.definedTerms
    rw [hdefinitions, List.filterMap_nil]
  obtain ⟨keepsDefined, before, after, found, hbefore, hpass, rfl, hleft⟩ := exists_pass_before h
  obtain ⟨hsides', hdefines', hterms'⟩ : store.HasSides before.pool sides ∧
      before.DefinesTerms ∧ before.definedTerms = [] := by
    rcases hbefore with ⟨-, rfl⟩ | ⟨-, first, hfirst⟩
    · exact ⟨hsides, hdefines, hterms⟩
    · obtain ⟨-, -, -, hdefines', hterms', hextends⟩ := exists_ofSides hsides hdefines hfirst
      exact ⟨hsides.extends hextends, hdefines', hterms'.trans hterms⟩
  obtain ⟨solved, hsolved, rfl, -⟩ := exists_ofSides hsides' hdefines' hpass
  rw [hterms'] at hsolved
  refine ⟨keepsDefined, solved, after, hsolved, keepsDefined_ofStore hpass, rfl,
    fun hfound => hleft fun hnil => hfound ?_⟩
  exact List.map_eq_nil_iff.1 hnil

end EquationSystem

end EquationSolver
