import EquationSolver.Proofs.Matrix.Numbers
import EquationSolver.Proofs.Reading.Text
import EquationSolver.Proofs.Solver.Dispatch
import EquationSolver.Proofs.Solver.Registration
import EquationSolver.Proofs.Solver.Sides
import EquationSolver.Proofs.Solver.Symbols

/-!
# Ranks and parameters

The rank of a linear system is subtracted from the number of its unknowns.  What is left is the
number of parameters that an underdetermined system needs, and the only symbols that solving it
builds are these parameters.  They are numbered one after the other, so they differ from one
another.  Their names are fixed, though: an unknown may already have one of them.

The rank can exceed the number of unknowns, namely when elimination has left a coefficient that is
not recognised as zero; everything else that an exact solve asks for is in range.
-/

namespace EquationSolver

open Reduction (Settings)

/-! ### The symbols that are built -/

def Term.symbolName? : Term → Option String
  | .symbol name => some name
  | _ => none

theorem Term.symbolName?_eq_some_iff {t : Term} {name : String} :
    t.symbolName? = some name ↔ t = .symbol name := by
  cases t <;> simp [symbolName?]

namespace Build

variable {α β : Type}

/-- The names of the symbols that are built, in their order. -/
def symbols (b : Build α) : List String :=
  b.trace.filterMap Term.symbolName?

@[simp] theorem symbols_pure (a : α) : (pure a : Build α).symbols = [] := rfl

@[simp] theorem symbols_bind (x : Build α) (f : α → Build β) :
    (x >>= f).symbols = x.symbols ++ (f x.value).symbols :=
  List.filterMap_append

theorem AddsNoSymbol.symbols_eq_nil {b : Build α} (h : b.AddsNoSymbol) : b.symbols = [] := by
  refine List.filterMap_eq_nil_iff.2 fun t ht => ?_
  cases hname : t.symbolName? with
  | none => rfl
  | some name => exact absurd (Term.symbolName?_eq_some_iff.1 hname ▸ ht) (h name)

end Build

namespace CheckedBuild

variable {α β : Type} {b : CheckedBuild α}

def symbols (b : CheckedBuild α) : List String :=
  b.run.symbols

@[simp] theorem symbols_pure (a : α) : (pure a : CheckedBuild α).symbols = [] := rfl

theorem symbols_bind_of_ok {a : α} (h : b.run.value = .ok a) (f : α → CheckedBuild β) :
    (b >>= f).symbols = b.symbols ++ (f a).symbols := by
  refine (Build.symbols_bind b.run (ExceptT.bindCont f)).trans ?_
  rw [h]
  rfl

/-- After a fault nothing is built. -/
theorem symbols_bind_of_error {fault : Fault} (h : b.run.value = .error fault)
    (f : α → CheckedBuild β) : (b >>= f).symbols = b.symbols := by
  refine (Build.symbols_bind b.run (ExceptT.bindCont f)).trans ?_
  rw [h]
  exact List.append_nil _

theorem symbols_build_bind (x : Build α) (f : α → CheckedBuild β) :
    ((liftM x : CheckedBuild α) >>= f).symbols = x.symbols ++ (f x.value).symbols := by
  refine (symbols_bind_of_ok (a := x.value) rfl f).trans (congrArg (· ++ _) ?_)
  exact (Build.symbols_bind x _).trans (List.append_nil _)

@[simp] theorem symbols_except (x : Except Fault α) : (liftM x : CheckedBuild α).symbols = [] := by
  cases x <;> rfl

/-- What comes afterwards does not count if it builds no symbols. -/
theorem Ensures.symbols_bind {post : α → Prop} {f : α → CheckedBuild β} (h : b.Ensures post)
    (hf : ∀ a, post a → (f a).symbols = []) : (b >>= f).symbols = b.symbols := by
  cases hb : b.run.value with
  | ok a => rw [symbols_bind_of_ok hb, hf a (h a hb), List.append_nil]
  | error fault => exact symbols_bind_of_error hb f

theorem symbols_bind_of_nil {f : α → CheckedBuild β} (h : ∀ a, (f a).symbols = []) :
    (b >>= f).symbols = b.symbols :=
  Ensures.symbols_bind (fun _ _ => trivial : b.Ensures fun _ => True) fun a _ => h a

end CheckedBuild

/-! ### Pins -/

namespace Linear

variable {s : Settings} {definitions : Definitions} {count : Nat} {m : SymbolicMatrix}

/-- The names of `pins` parameters out of `parameters`, from a place on. -/
def parameterNames (parameters place pins : Nat) : List String :=
  (List.range' place pins).map fun place => parameterName place parameters

/-- The name is that of one of so many parameters: `t` for one, or `t1`, `t2`, … for more. -/
def NamesParameter (parameters : Nat) (name : String) : Prop :=
  ∃ place, 1 ≤ place ∧ place ≤ parameters ∧ name = parameterName place parameters

theorem parameterNames_succ (parameters place pins : Nat) :
    parameterNames parameters place (pins + 1) =
      parameterName place parameters :: parameterNames parameters (place + 1) pins := by
  simp [parameterNames, List.range'_succ]

theorem parameterName_injective {parameters : Nat} (h : parameters ≠ 1) :
    Function.Injective fun place => parameterName place parameters := by
  intro i j hnames
  simp only [parameterName, if_neg h] at hnames
  have hdigits := congrArg String.toList ((String.append_right_inj "t").1 hnames)
  rw [Digits.toList_toString_nat, Digits.toList_toString_nat] at hdigits
  -- What is written with the same digits is read back as the same number.
  exact Option.some.inj ((Literal.digits?_ofNat i).symm.trans (hdigits ▸ Literal.digits?_ofNat j))

theorem head?_parameterName (place parameters : Nat) :
    (parameterName place parameters).toList.head? = some 't' := by
  unfold parameterName
  split_ifs
  · rfl
  · rw [String.toList_append]
    rfl

/-- Parameters have different names. -/
theorem nodup_parameterNames {parameters pins : Nat} (h : pins ≤ parameters) (place : Nat) :
    (parameterNames parameters place pins).Nodup := by
  by_cases hone : parameters = 1
  · refine List.nodup_iff_injective_get.2 ?_
    have hlength : (parameterNames parameters place pins).length ≤ 1 := by
      simpa [parameterNames, hone] using h
    exact fun i j _ => Fin.ext (by omega)
  · exact (List.nodup_range' ..).map (parameterName_injective hone)

/-- A pin brings its parameter. -/
theorem symbols_pinned (count place : Nat) (name : String) (m : SymbolicMatrix) :
    (pinned count place name m).symbols = [name] := by
  unfold pinned
  simp only [CheckedBuild.symbols_build_bind, CheckedBuild.symbols_except]
  rfl

/-- Pins bring one parameter each, in their order.  There is a pin where a pivot is missing and an
    unknown is free. -/
theorem exists_symbols_pinFree (parameters missing : Nat) : ∀ (pins rank : Nat)
    (m : SymbolicMatrix), ∃ more ≤ missing,
      (pinFree s definitions count parameters missing pins rank m).symbols =
        parameterNames parameters (pins + 1) more ∧
      (0 < missing → rank < count → (freeUnknown? s count m).isSome → 0 < more) := by
  induction missing with
  | zero => exact fun pins rank m => ⟨0, le_refl 0, rfl, nofun⟩
  | succ missing ih =>
    intro pins rank m
    unfold pinFree
    split_ifs with henough
    · exact ⟨0, Nat.zero_le _, rfl, fun _ hlt => absurd henough (Nat.not_le_of_lt hlt)⟩
    split
    case h_1 hfree => exact ⟨0, Nat.zero_le _, rfl, fun _ _ hsome => by cases hfree ▸ hsome⟩
    case h_2 place _ =>
      have hpinned := symbols_pinned count place (parameterName (pins + 1) parameters) m
      have hlast : [parameterName (pins + 1) parameters] =
          parameterNames parameters (pins + 1) 1 := rfl
      cases hvalue : (pinned count place (parameterName (pins + 1) parameters) m).run.value with
      | error fault =>
        rw [CheckedBuild.symbols_bind_of_error hvalue, hpinned]
        exact ⟨1, by omega, hlast, fun _ _ _ => Nat.one_pos⟩
      | ok next =>
        rw [CheckedBuild.symbols_bind_of_ok hvalue, CheckedBuild.symbols_build_bind, hpinned,
          (SymbolicMatrix.addsNoSymbol_rank next).symbols_eq_nil, List.nil_append]
        split
        case h_1 => exact ⟨1, by omega, hlast, fun _ _ _ => Nat.one_pos⟩
        case h_2 echelon rank' _ =>
          split_ifs
          · exact ⟨1, by omega, hlast, fun _ _ _ => Nat.one_pos⟩
          · obtain ⟨more, hmore, hsymbols, -⟩ := ih (pins + 1) rank' echelon
            refine ⟨more + 1, by omega, ?_, fun _ _ _ => Nat.succ_pos more⟩
            rw [hsymbols, parameterNames_succ]
            rfl

/-! ### Whole systems -/

variable {settings : ReductionTarget → Settings} {rows : List (List Term)}
  {echelon : SymbolicMatrix} {rank : Nat}

/-- The symbols that solving an underdetermined system brings are those of the pins. -/
theorem symbols_solve (hm : SymbolicMatrix.ofRows rows = .ok m)
    (hrank : (m.rank (settings .approximation) definitions).value = (echelon, some rank))
    (hsubtracts : SubtractsRank (settings .approximation) count echelon rank) :
    (solve settings definitions count rows).symbols =
      (pinFree { settings .analysis with symbols := .keepAll } definitions count (count - rank)
        (count - rank) 0 rank echelon).symbols := by
  have hcontradiction : ¬ echelon.rows.any (isContradiction (settings .approximation) count) := by
    rw [hsubtracts.consistent]
    exact Bool.false_ne_true
  unfold solve
  rw [hm, CheckedBuild.symbols_bind_of_ok rfl, CheckedBuild.symbols_except, List.nil_append,
    CheckedBuild.symbols_build_bind, (SymbolicMatrix.addsNoSymbol_rank m).symbols_eq_nil,
    List.nil_append, hrank]
  dsimp only
  rw [if_neg hcontradiction, if_neg hsubtracts.not_unique]
  refine CheckedBuild.symbols_bind_of_nil fun found => ?_
  cases found with
  | none => rfl
  | some m => exact CheckedBuild.symbols_bind_of_nil fun values => rfl

/-- Its answer is parametric, if there is one. -/
theorem ensures_solve_parametric (hm : SymbolicMatrix.ofRows rows = .ok m)
    (hrank : (m.rank (settings .approximation) definitions).value = (echelon, some rank))
    (hsubtracts : SubtractsRank (settings .approximation) count echelon rank) :
    (solve settings definitions count rows).Ensures fun answer =>
      answer = .unresolved ∨ ∃ values, answer = .parametric values := by
  have hcontradiction : ¬ echelon.rows.any (isContradiction (settings .approximation) count) := by
    rw [hsubtracts.consistent]
    exact Bool.false_ne_true
  unfold solve
  refine CheckedBuild.ensures_except_bind fun m' hm' => CheckedBuild.ensures_build_bind ?_
  obtain rfl := Except.ok.inj (hm.symm.trans hm')
  rw [hrank]
  dsimp only
  rw [if_neg hcontradiction, if_neg hsubtracts.not_unique]
  refine CheckedBuild.Ensures.bind (P := fun _ => True) (fun _ _ => trivial) fun found _ => ?_
  cases found with
  | none => exact CheckedBuild.ensures_pure (.inl rfl)
  | some m =>
    exact CheckedBuild.ensures_except_bind fun values _ =>
      CheckedBuild.ensures_pure (.inr ⟨values, rfl⟩)

end Linear

/-! ### Registering formal solutions -/

/-- Showing a formal solution builds no symbols. -/
theorem Solution.addsNoSymbol_ofTerm? (s : Settings) (definitions : Definitions)
    (policy : DisplayPolicy) (t : Term) :
    (ofTerm? s definitions policy .formal t).AddsNoSymbol := by
  unfold ofTerm? forms simplifyAndApproximate
  simp only [Build.addsNoSymbol_bind, Reduction.addsNoSymbol_reduce,
    Approximation.addsNoSymbol_toTerm, Build.addsNoSymbol_pure, and_self, true_and]
  split
  · exact Build.addsNoSymbol_pure _
  · split_ifs
    · exact Build.addsNoSymbol_pure _
    · simp [ofForms, compareLayouts]

theorem SolutionRegistry.symbols_addTerms (s : Settings) (definitions : Definitions)
    (policy : DisplayPolicy) (registry : SolutionRegistry Term) (terms : List Term) :
    (registry.addTerms s definitions policy .formal terms).symbols = [] := by
  induction terms generalizing registry with
  | nil => rfl
  | cons t ts ih =>
    have hterm : (registry.addTerm s definitions policy .formal t).symbols = [] := by
      unfold addTerm
      rw [CheckedBuild.symbols_build_bind,
        (Solution.addsNoSymbol_ofTerm? s definitions policy t).symbols_eq_nil, List.nil_append]
      split
      · rfl
      · exact (CheckedBuild.symbols_bind_of_nil fun _ => rfl).trans (CheckedBuild.symbols_except _)
    unfold addTerms
    refine (CheckedBuild.symbols_bind_of_nil fun added => ?_).trans hterm
    cases added with
    | error e => rfl
    | ok registry => exact ih registry

namespace Attempt

variable {preferences : Preferences} {definitions : Definitions} {attempt : Attempt Term}
  {forms : List Term} {m echelon : SymbolicMatrix} {rank : Nat}

/-- The settings under which unknowns are pinned: every symbol is kept. -/
def parametricReduction (preferences : Preferences) (attempt : Attempt Term) : Settings :=
  { attempt.reduction preferences .analysis with symbols := .keepAll }

/-- Registering the solutions adds nothing to the symbols that the pins bring. -/
theorem symbols_solveLinear (settings : SolverSettings)
    (hrank : attempt.HasRank preferences definitions forms m echelon rank)
    (hsubtracts : attempt.SubtractsRank preferences echelon rank) :
    (attempt.solveLinear preferences settings definitions forms).symbols =
      (Linear.pinFree (attempt.parametricReduction preferences) definitions attempt.unknownCount
        (attempt.unknownCount - rank) (attempt.unknownCount - rank) 0 rank echelon).symbols := by
  obtain ⟨rows, hrows, hm⟩ := hrank.exists_rows
  unfold solveLinear
  rw [CheckedBuild.symbols_build_bind, hrows,
    (Linear.addsNoSymbol_augmentedRows _ forms).symbols_eq_nil, List.nil_append]
  unfold solveRows
  refine ((Linear.ensures_solve_parametric hm hrank.rank_eq hsubtracts).symbols_bind
    fun answer hanswer => ?_).trans (Linear.symbols_solve hm hrank.rank_eq hsubtracts)
  rcases hanswer with rfl | ⟨values, rfl⟩
  · rfl
  · unfold registerAll
    exact (CheckedBuild.symbols_bind_of_nil fun _ => rfl).trans
      (SolutionRegistry.symbols_addTerms _ _ _ _ _)

theorem exists_symbols_solveLinear (settings : SolverSettings)
    (hrank : attempt.HasRank preferences definitions forms m echelon rank)
    (hsubtracts : attempt.SubtractsRank preferences echelon rank) :
    ∃ pins ≤ attempt.unknownCount - rank,
      (attempt.solveLinear preferences settings definitions forms).symbols =
        Linear.parameterNames (attempt.unknownCount - rank) 1 pins ∧
      (rank < attempt.unknownCount →
        (Linear.freeUnknown? (attempt.parametricReduction preferences) attempt.unknownCount
          echelon).isSome → 0 < pins) := by
  obtain ⟨pins, hpins, hsymbols, hsome⟩ := Linear.exists_symbols_pinFree
    (attempt.unknownCount - rank) (attempt.unknownCount - rank) 0 rank echelon
  exact ⟨pins, hpins, (symbols_solveLinear settings hrank hsubtracts).trans hsymbols,
    fun hlt => hsome (Nat.sub_pos_of_lt hlt) hlt⟩

/-- The symbols that solving an underdetermined system brings are parameters, one for each pin
    and numbered in their order: at most as many as pivots are missing, and at least one where one
    is missing and an unknown is free.  They differ from one another, and none of them is an
    unknown as long as no unknown has the name of a parameter. -/
theorem solveLinear_numbers_parameters (settings : SolverSettings)
    (hrank : attempt.HasRank preferences definitions forms m echelon rank)
    (hsubtracts : attempt.SubtractsRank preferences echelon rank) :
    let missing := attempt.unknownCount - rank
    let introduced := (attempt.solveLinear preferences settings definitions forms).symbols
    (∃ pins ≤ missing, introduced = Linear.parameterNames missing 1 pins ∧
        (rank < attempt.unknownCount →
          (Linear.freeUnknown? (attempt.parametricReduction preferences) attempt.unknownCount
            echelon).isSome → 0 < pins)) ∧
      introduced.Nodup ∧
      ((∀ unknown ∈ attempt.unknowns.items, ¬ Linear.NamesParameter missing unknown) →
        ∀ name ∈ introduced, name ∉ attempt.unknowns.items) := by
  intro missing introduced
  obtain ⟨pins, hpins, hintroduced, hsome⟩ := exists_symbols_solveLinear settings hrank hsubtracts
  have hnames : introduced = Linear.parameterNames missing 1 pins := hintroduced
  rw [hnames]
  refine ⟨⟨pins, hpins, rfl, hsome⟩, Linear.nodup_parameterNames hpins 1,
    fun hreserved name hname => ?_⟩
  obtain ⟨place, hplace, rfl⟩ := List.mem_map.1 hname
  obtain ⟨hone, hlast⟩ := List.mem_range'_1.1 hplace
  exact fun hunknown => hreserved _ hunknown ⟨place, hone, by omega, rfl⟩

/-! ### Unknowns that add up to one -/

/-- The standard form of the equation that says that unknowns add up to one. -/
def totalForm (names : List String) : Term :=
  .sum (names.map .symbol ++ [.number (-1)])

def totalAttempt (names : List String) : Attempt Term :=
  { initial {} false with unknowns := ⟨names, maxVariables⟩ }

def totalRow (names : List String) (constant : Term) : SymbolicMatrix :=
  ⟨[names.map (fun _ => .one) ++ [constant]], names.length + 1⟩

/-- Systems of one such equation. -/
def totalUnknowns : List (List String) :=
  [["x", "y"], ["t", "y"], ["x", "y", "z"]]

theorem reduce_total {names : List String} (h : names ∈ totalUnknowns) :
    ((totalRow names (.negation (.number (-1)))).reduce
      ((totalAttempt names).reduction {} .approximation) []).value = totalRow names .one := by
  rw [SymbolicMatrix.value_reduce_nil]
  revert names
  decide +kernel

theorem augmentedRows_total : ∀ names ∈ totalUnknowns,
    (Linear.augmentedRows ((totalAttempt names).reduction {} .analysis) names
      [totalForm names]).value = some (totalRow names (.negation (.number (-1)))).rows := by
  decide +kernel

/-- The equation has rank one, which is not enough. -/
theorem hasRank_total {names : List String} (h : names ∈ totalUnknowns) :
    (totalAttempt names).HasRank {} [] [totalForm names]
        (totalRow names (.negation (.number (-1)))) (totalRow names .one) 1 ∧
      (totalAttempt names).SubtractsRank {} (totalRow names .one) 1 := by
  refine ⟨⟨⟨_, augmentedRows_total names h, ?_⟩, ?_⟩, ?_, ?_⟩
  · revert names
    decide
  · have heliminate : ∀ names ∈ totalUnknowns, (SymbolicMatrix.eliminate
        ((totalAttempt names).reduction {} .approximation) (names.length + 1) 0 0
          (totalRow names .one).rows).value = ((totalRow names .one).rows, 1) := by
      decide +kernel
    refine SymbolicMatrix.value_rank (reduce_total h) (heliminate names h) ?_ ?_
    all_goals
      revert names
      decide
  · revert names
    decide
  · revert names
    decide

/-- Its elimination meets exact numbers only. -/
theorem meetsNumbers_total {names : List String} (h : names ∈ totalUnknowns) :
    (totalAttempt names).MeetsNumbers {} [] (totalRow names (.negation (.number (-1)))) := by
  have hinverts : ∀ names ∈ totalUnknowns, Elimination.holdsAlong
      ((totalAttempt names).reduction {} .approximation) (Elimination.invertsNext
        ((totalAttempt names).reduction {} .approximation)) (names.length + 1)
      (.start (totalRow names .one).rows) = true := by
    decide
  have hentries : (Elimination.start (totalRow names .one).rows).HasExactEntries := by
    intro row hrow t ht
    obtain rfl := List.mem_singleton.1 hrow
    rcases List.mem_append.1 ht with ht | ht
    · obtain ⟨_, -, rfl⟩ := List.mem_map.1 ht
      exact ⟨1, rfl⟩
    · exact ⟨1, List.mem_singleton.1 ht⟩
  intro e hrun _ row hrow
  rw [reduce_total h] at hrun
  have hrow := hentries.run hrun (Elimination.invertsPivots_of_holdsAlong (hinverts names h)
    (Nat.zero_add _)) row hrow
  exact SymbolicMatrix.isExact_entryAt hrow e.column

theorem freeUnknown?_total {names : List String} (h : names ∈ totalUnknowns) :
    (Linear.freeUnknown? ((totalAttempt names).parametricReduction {})
      (totalAttempt names).unknownCount (totalRow names .one)).isSome = true := by
  revert names
  decide

/-- The parameters that `x + y + z = 1` brings are none of its unknowns. -/
theorem solveLinear_numbers_parameters_plane :
    let introduced := ((totalAttempt ["x", "y", "z"]).solveLinear {} {} []
      [totalForm ["x", "y", "z"]]).symbols
    introduced ≠ [] ∧ introduced.Nodup ∧ ∀ name ∈ introduced, name ∉ ["x", "y", "z"] := by
  intro introduced
  have hnames : ["x", "y", "z"] ∈ totalUnknowns := by decide
  obtain ⟨hrank, hsubtracts⟩ := hasRank_total hnames
  obtain ⟨⟨pins, -, hpins, hsome⟩, hnodup, hfresh⟩ :=
    solveLinear_numbers_parameters {} hrank hsubtracts
  refine ⟨fun hnil => ?_, hnodup, hfresh fun unknown hunknown => ?_⟩
  · have hzero : pins = 0 := by
      simpa [Linear.parameterNames] using congrArg List.length (hpins.symm.trans hnil)
    have hpos := hsome (by decide) (freeUnknown?_total hnames)
    omega
  · rintro ⟨place, -, -, rfl⟩
    have hother : ∀ name ∈ ["x", "y", "z"], name.toList.head? ≠ some 't' := by decide
    exact hother _ hunknown (Linear.head?_parameterName place 2)

/-- The sides of an equation that says that two unknowns add up to one, and their parts. -/
def lineSides (a b : String) : List Term :=
  [.symbol a, .symbol b, .sum [.symbol a, .symbol b], .number 1]

theorem readSides_line {a b : String} (h : [a, b] ∈ totalUnknowns) :
    (initial {} false).readSides {} [] [(.sum [.symbol a, .symbol b], .number 1)] =
      (totalAttempt [a, b], .ok [totalForm [a, b]]) := by
  have hreduced (symbols : SymbolPolicy) : ∀ names ∈ totalUnknowns,
      (Reduction.reduceKept { (initial {} false).reduction {} .analysis with symbols }
        (Term.sumOf [.sum (names.map .symbol), .negation (.number 1)])).value =
          totalForm names := by
    cases symbols <;> decide +kernel
  have hform (symbols : SymbolPolicy) :
      (standardForm { (initial {} false).reduction {} .analysis with symbols } []
        (.sum [.symbol a, .symbol b]) (.number 1)).value = totalForm [a, b] :=
    (standardForm_nil _ _ _).trans (hreduced symbols [a, b] h)
  have hcases : a = "x" ∧ b = "y" ∨ a = "t" ∧ b = "y" := by simpa [totalUnknowns] using h
  refine readSides_singleton ((value_readEquation_nil _ _ hform).trans ?_)
  rcases hcases with ⟨rfl, rfl⟩ | ⟨rfl, rfl⟩ <;> rfl

/-- A parameter can be an unknown: `t + y = 1` is solved by pinning `y` to the unknown `t`. -/
theorem solveLinear_reuses_unknown :
    ∃ store attempt forms m echelon rank, HasRead {} store attempt forms ∧
      attempt.HasRank {} [] forms m echelon rank ∧ attempt.SubtractsRank {} echelon rank ∧
      attempt.unknowns.items = ["t", "y"] ∧
      (attempt.solveLinear {} {} [] forms).symbols = ["t"] := by
  have hnames : ["t", "y"] ∈ totalUnknowns := by decide
  obtain ⟨hrank, hsubtracts⟩ := hasRank_total hnames
  have hread := hasRead_ofSides {} (lineSides "t" "y") (by decide) (List.forall_mem_nil _)
    (by decide) (readSides_line hnames)
  refine ⟨_, _, _, _, _, _, hread, hrank, hsubtracts, rfl, ?_⟩
  obtain ⟨pins, hle, hsymbols, hsome⟩ := exists_symbols_solveLinear {} hrank hsubtracts
  obtain rfl : pins = 1 := Nat.le_antisymm hle (hsome (by decide) (freeUnknown?_total hnames))
  exact hsymbols

end Attempt

/-! ### Ranks in range -/

namespace EquationSystem

/-- Exact solving comes to no fault, and what it asks for is in range, except that the rank it
    subtracts can exceed the number of unknowns.  The rank does so just when the column of the
    constants has a pivot in a row with a coefficient that is not recognised as zero, and no row
    behind it is a contradiction; it does not where elimination meets exact numbers only. -/
theorem exactSolve_staysInRange (system : EquationSystem) (preferences : Preferences)
    (store : EquationStore) (context : Context) (hlive : store.IsLive context.pool) :
    (∃ solved, system.exactSolve preferences store context = .ok solved) ∧
      ∀ attempt forms definitions, Attempt.HasRead preferences store attempt forms →
        attempt.StaysInRange preferences definitions forms ∧
        ∀ m echelon rank, attempt.HasRank preferences definitions forms m echelon rank →
          (attempt.SubtractsRank preferences echelon rank ∧ attempt.unknownCount < rank ↔
            rank = attempt.unknownCount + 1 ∧ attempt.MissesContradiction preferences echelon) ∧
          (attempt.MeetsNumbers preferences definitions m →
            attempt.SubtractsRank preferences echelon rank → rank ≤ attempt.unknownCount) := by
  refine ⟨exists_exactSolve system preferences hlive, ?_⟩
  intro attempt forms definitions hread
  refine ⟨hread.staysInRange definitions, ?_⟩
  intro m echelon rank hrank
  have hm := hread.isAugmented hrank
  constructor
  · exact Linear.subtractsRank_lt_iff hm hrank.rank_eq
  · intro hnumbers hsubtracts
    exact hsubtracts.le_of_meetsNumbers hm hrank.rank_eq hnumbers

/-- All of it holds of `x + y = 1`: its rank is one, and elimination meets exact numbers only. -/
theorem exactSolve_staysInRange_line :
    ∃ store context attempt forms m echelon rank, store.IsLive context.pool ∧
      Attempt.HasRead {} store attempt forms ∧
      attempt.HasRank {} [] forms m echelon rank ∧
      attempt.SubtractsRank {} echelon rank ∧ attempt.MeetsNumbers {} [] m ∧
      attempt.unknowns.items = ["x", "y"] ∧ rank = 1 ∧
      (∃ solved, (unsolved {} {}).exactSolve {} store context = .ok solved) ∧
      attempt.StaysInRange {} [] forms ∧ rank ≤ attempt.unknownCount ∧
      (attempt.SubtractsRank {} echelon rank ∧ attempt.unknownCount < rank ↔
        rank = attempt.unknownCount + 1 ∧ attempt.MissesContradiction {} echelon) := by
  have hnames : ["x", "y"] ∈ Attempt.totalUnknowns := by decide
  have hparts : ∀ (i : Nat) (hi : i < (Attempt.lineSides "x" "y").length),
      ∀ u ∈ (Attempt.lineSides "x" "y")[i].children, u ∈ (Attempt.lineSides "x" "y").take i := by
    decide
  have hsides : ∀ p ∈ [(Term.sum [.symbol "x", .symbol "y"], Term.number 1)],
      p.1 ∈ Attempt.lineSides "x" "y" ∧ p.2 ∈ Attempt.lineSides "x" "y" := by
    decide
  have hread := Attempt.hasRead_ofSides {} _ hparts (List.forall_mem_nil _) hsides
    (Attempt.readSides_line hnames)
  obtain ⟨hrank, hsubtracts⟩ := Attempt.hasRank_total hnames
  have hnumbers := Attempt.meetsNumbers_total hnames
  have hstored : EquationStore.HasSides _ _ _ :=
    @EquationStore.hasSides_ofSides (Attempt.lineSides "x" "y") [] hparts _ hsides
  obtain ⟨hsolved, hrange⟩ := exactSolve_staysInRange (unsolved {} {}) {} _ _ hstored.isLive
  obtain ⟨hstays, hranks⟩ := hrange _ _ [] hread
  obtain ⟨hexceeds, hle⟩ := hranks _ _ _ hrank
  exact ⟨_, _, _, _, _, _, _, hstored.isLive, hread, hrank, hsubtracts, hnumbers, rfl, rfl, hsolved, hstays,
    hle hnumbers hsubtracts, hexceeds⟩

end EquationSystem

end EquationSolver
