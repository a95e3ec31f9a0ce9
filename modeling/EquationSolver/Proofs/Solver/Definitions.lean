import EquationSolver.Proofs.Reading.Names
import EquationSolver.Proofs.Solver.Reading
import EquationSolver.Proofs.Solver.Symbols

/-!
# What solving reads of the definitions

All terms that solving works on mention only names that the equations lead to through definitions,
but for the parameters, with which symbols are kept.  So lists of definitions that agree on these
names lead to the same attempt.
-/

namespace EquationSolver

open Reduction (Settings AgreeOn LooksUp)

variable {names : String → Prop} {definitions definitions' : Definitions} {s : Settings}

/-! ### Sequences of steps -/

section Sequences

variable {α β : Type}

/-- What comes second matters for the value that comes first only. -/
theorem Build.bind_congr {x : Build α} {f g : α → Build β} (h : f x.value = g x.value) :
    x >>= f = x >>= g := by
  show (⟨(f x.value).value, x.trace ++ (f x.value).trace⟩ : Build β) = ⟨_, _⟩
  rw [h]

theorem CheckedBuild.bind_congr {x : CheckedBuild α} {f g : α → CheckedBuild β}
    (h : ∀ a, x.run.value = .ok a → f a = g a) : x >>= f = x >>= g := by
  refine Build.bind_congr (f := ExceptT.bindCont f) (g := ExceptT.bindCont g) ?_
  show ExceptT.bindCont f x.run.value = ExceptT.bindCont g x.run.value
  cases hx : x.run.value with
  | ok a => exact h a hx
  | error e => rfl

theorem CheckedBuild.build_bind_congr {x : Build α} {f g : α → CheckedBuild β}
    (h : f x.value = g x.value) : (liftM x : CheckedBuild α) >>= f = liftM x >>= g := by
  refine CheckedBuild.bind_congr fun a ha => ?_
  obtain rfl := Except.ok.inj ha
  exact h

end Sequences

/-! ### Reading equations -/

namespace VariableSet

mutual

/-- Only the symbols that occur in a term are tested. -/
theorem collect_congr {keep keep' : String → Bool} : ∀ {t : Term} (set : VariableSet String),
    (∀ name, t.Mentions name → keep name = keep' name) → collect keep set t = collect keep' set t
  | .symbol name, set, h => by
    simp only [collect, insertKept, h name (by simp)]
  | .sum terms, set, h | .product terms, set, h | .matrix _ _ terms, set, h => by
    simp only [collect]
    exact collectAll_congr set fun t ht name hname => h name (by simpa using ⟨t, ht, hname⟩)
  | .power a b, set, h | .quotient a b, set, h => by
    have ha := collect_congr (t := a) set fun name hname => h name (by simp [hname])
    have hb := fun set => collect_congr (t := b) set fun name hname => h name (by simp [hname])
    simp only [collect, ha, hb]
  | .negation a, set, h | .apply _ a, set, h => by
    simp only [collect]
    exact collect_congr set fun name hname => h name (by simpa using hname)
  | .number _, _, _ | .decimal _, _, _ | .constant _, _, _ | .undefined, _, _ | .nonreal, _, _ => by
    simp only [collect]

theorem collectAll_congr {keep keep' : String → Bool} : ∀ {ts : List Term} (set : VariableSet String),
    (∀ t ∈ ts, ∀ name, t.Mentions name → keep name = keep' name) →
      collectAll keep set ts = collectAll keep' set ts
  | [], _, _ => by simp only [collectAll]
  | t :: ts, set, h => by
    obtain ⟨ht, hts⟩ := List.forall_mem_cons.1 h
    have hrest (set : VariableSet String) : collectAll keep set ts = collectAll keep' set ts :=
      collectAll_congr set hts
    simp only [collectAll, collect_congr set ht, hrest]

end

end VariableSet

theorem mentionsOnly_difference {a b : Term} (ha : a.MentionsOnly names) (hb : b.MentionsOnly names) :
    (Build.difference a b).value.MentionsOnly names :=
  Term.mentionsOnly_sum.2 (List.forall_mem_cons.2
    ⟨ha, List.forall_mem_singleton.2 (Term.mentionsOnly_negation.2 hb)⟩)

namespace Reduction

theorem looksUp_of_keepAll {t : Term} (hs : s.symbols = .keepAll) : LooksUp s names t :=
  fun hreplace => nomatch hs.symm.trans hreplace

theorem looksUp_of_mentionsOnly {t : Term} (h : t.MentionsOnly names) : LooksUp s names t :=
  fun _ => h

theorem looksUp_difference {a b : Term} (ha : LooksUp s names a) (hb : LooksUp s names b) :
    LooksUp s names (Build.difference a b).value :=
  fun hs => mentionsOnly_difference (ha hs) (hb hs)

namespace AgreeOn

variable {left right : Term} (h : AgreeOn names definitions definitions')

include h

theorem standardForm_eq (hleft : LooksUp s names left) (hright : LooksUp s names right) :
    standardForm s definitions left right = standardForm s definitions' left right :=
  Build.bind_congr (h.reduce_eq (looksUp_difference hleft hright))

theorem mentionsOnly_standardForm (hleft : left.MentionsOnly names)
    (hright : right.MentionsOnly names) :
    (standardForm s definitions left right).value.MentionsOnly names :=
  h.mentionsOnly_reduce (mentionsOnly_difference hleft hright)

end AgreeOn

end Reduction

namespace Attempt

variable {preferences : Preferences} {settings : SolverSettings} {attempt attempt' : Attempt Term}
  {left right : Term}

theorem readEquation_eq (h : AgreeOn names definitions definitions')
    (hleft : left.MentionsOnly names) (hright : right.MentionsOnly names) :
    readEquation preferences definitions attempt left right =
      readEquation preferences definitions' attempt left right := by
  have hform (s : Settings) : standardForm s definitions left right =
      standardForm s definitions' left right :=
    h.standardForm_eq (fun _ => hleft) fun _ => hright
  have hdefined (s : Settings) : ∀ name,
      (standardForm s definitions' left right).value.Mentions name →
        (definitions.lookup name).isSome = (definitions'.lookup name).isSome := by
    intro name hname
    rw [← hform] at hname
    rw [h.lookup_eq name (h.mentionsOnly_standardForm hleft hright name hname)]
  unfold readEquation
  dsimp only
  rw [hform, hform]
  refine Build.bind_congr ?_
  rw [VariableSet.collect_congr _ (hdefined _)]

/-- The standard form that has been read mentions only names that the sides lead to. -/
theorem mentionsOnly_of_readEquation (h : AgreeOn names definitions definitions')
    (hleft : left.MentionsOnly names) (hright : right.MentionsOnly names) {form : Term}
    (hread : (readEquation preferences definitions attempt left right).value = (attempt', .ok form)) :
    form.MentionsOnly names := by
  obtain ⟨userVariables, hvalue⟩ :=
    value_readEquation_reduction preferences definitions attempt left right
  obtain ⟨rfl, -⟩ := of_addForm_eq_ok (hvalue.symm.trans hread)
  exact h.mentionsOnly_standardForm hleft hright

theorem readSides_eq (h : AgreeOn names definitions definitions') {sides : List (Term × Term)}
    (hsides : ∀ p ∈ sides, p.1.MentionsOnly names ∧ p.2.MentionsOnly names) :
    attempt.readSides preferences definitions sides =
      attempt.readSides preferences definitions' sides := by
  induction sides generalizing attempt with
  | nil => rfl
  | cons p rest ih =>
    obtain ⟨⟨hleft, hright⟩, hrest⟩ := List.forall_mem_cons.1 hsides
    rw [readSides, readSides, readEquation_eq h hleft hright]
    split
    · rfl
    · rw [ih hrest]

theorem mentionsOnly_of_readSides (h : AgreeOn names definitions definitions')
    {sides : List (Term × Term)} {forms : List Term}
    (hsides : ∀ p ∈ sides, p.1.MentionsOnly names ∧ p.2.MentionsOnly names)
    (hread : attempt.readSides preferences definitions sides = (attempt', .ok forms)) :
    ∀ form ∈ forms, form.MentionsOnly names := by
  induction sides generalizing attempt forms with
  | nil =>
    cases hread
    exact fun form hform => absurd hform List.not_mem_nil
  | cons p rest ih =>
    obtain ⟨⟨hleft, hright⟩, hrest⟩ := List.forall_mem_cons.1 hsides
    rw [readSides] at hread
    split at hread
    case h_1 => cases hread
    case h_2 next form hnext =>
      generalize hothers : next.readSides preferences definitions rest = others at hread
      obtain ⟨last, found⟩ := others
      cases found with
      | error e => cases hread
      | ok found =>
        cases hread
        exact List.forall_mem_cons.2
          ⟨mentionsOnly_of_readEquation h hleft hright hnext, ih hrest hothers⟩

end Attempt

/-! ### Showing values -/

section Showing

variable {policy : DisplayPolicy} {type : SolutionType} {t exact approximate : Term}
  (h : AgreeOn names definitions definitions')

include h

theorem simplifyAndApproximate_eq (ht : LooksUp s names t) :
    simplifyAndApproximate s definitions t = simplifyAndApproximate s definitions' t := by
  have hreduce : Reduction.reduce s.forDisplay definitions t =
      Reduction.reduce s.forDisplay definitions' t := h.reduce_eq ht
  unfold simplifyAndApproximate
  rw [hreduce]

theorem exactEqualsText_eq {text : String} (hexact : LooksUp s names exact)
    (htext : ∀ read, (parseExpression text).value = .ok read → read.MentionsOnly names) :
    exactEqualsText s definitions exact text = exactEqualsText s definitions' exact text := by
  unfold exactEqualsText
  refine Build.bind_congr ?_
  cases hread : (parseExpression text).value with
  | error e => rfl
  | ok read =>
    have hdifference : LooksUp s.forDisplay names (Build.difference exact read).value :=
      Reduction.looksUp_difference hexact fun _ => htext read hread
    refine Build.bind_congr ?_
    rw [h.reduce_eq hdifference]

namespace Solution

omit h in
theorem compareLayouts_congr {exact approximate : Option (Layout Term)}
    (hagree : ∀ e a, type = .exact → exact = some e → approximate = some a →
      exactEqualsText s definitions e.node a.text = exactEqualsText s definitions' e.node a.text) :
    compareLayouts s definitions type exact approximate =
      compareLayouts s definitions' type exact approximate := by
  match type, exact, approximate with
  | .exact, some e, some a =>
    unfold compareLayouts
    dsimp only
    rw [hagree e a rfl rfl rfl]
  | .exact, none, _ | .exact, some _, none | .formal, _, _ | .approximate, _, _ => rfl

/-- Only the text of an approximate value is read, and it mentions no symbols. -/
theorem ofForms_eq {exact : Option Term} (hexact : ∀ u, exact = some u → LooksUp s names u)
    (happroximate : type = .exact → approximate.IsNumeric) :
    ofForms s definitions policy type exact approximate =
      ofForms s definitions' policy type exact approximate := by
  have hcompare : compareLayouts s definitions type (exact.bind (exactLayout? policy))
      (if type = .formal then none else some (layout policy approximate)) =
        compareLayouts s definitions' type (exact.bind (exactLayout? policy))
          (if type = .formal then none else some (layout policy approximate)) := by
    refine compareLayouts_congr ?_
    rintro e a rfl he ha
    obtain ⟨u, hu, he⟩ := Option.bind_eq_some_iff.1 he
    cases ha
    unfold exactLayout? at he
    dsimp only at he
    split_ifs at he
    cases he
    exact exactEqualsText_eq h (hexact u hu) fun read hread =>
      mentionsOnly_of_parseExpression_text (happroximate rfl) hread
  unfold ofForms
  dsimp only
  rw [hcompare]

theorem ofTerm?_eq (ht : LooksUp s names t) :
    ofTerm? s definitions policy type t = ofTerm? s definitions' policy type t := by
  have hforms : forms s definitions type t = forms s definitions' type t := by
    unfold forms
    rw [simplifyAndApproximate_eq h ht]
  have hexact : ∀ u, (forms s definitions' type t).value.1 = some u → LooksUp s names u := by
    rw [← hforms]
    intro u hu hs
    cases type with
    | approximate => cases hu
    | exact | formal =>
      cases hu
      exact h.mentionsOnly_reduce (ht hs)
  have happroximate : type = .exact → (forms s definitions' type t).value.2 ≠ .nonreal →
      (forms s definitions' type t).value.2.IsNumeric := by
    rintro rfl hreal
    exact Approximation.isNumeric_toTerm hreal
  unfold ofTerm?
  rw [hforms]
  refine Build.bind_congr ?_
  generalize (forms s definitions' type t).value = found at hexact happroximate
  obtain ⟨exact, approximate⟩ := found
  dsimp only
  split
  · rfl
  case h_2 hreal =>
    rw [ofForms_eq h hexact fun htype => happroximate htype hreal]

end Solution

namespace SolutionRegistry

theorem addTerms_eq {registry : SolutionRegistry Term} {ts : List Term}
    (hts : ∀ t ∈ ts, LooksUp s names t) :
    registry.addTerms s definitions policy type ts =
      registry.addTerms s definitions' policy type ts := by
  induction ts generalizing registry with
  | nil => rfl
  | cons t ts ih =>
    obtain ⟨ht, hts⟩ := List.forall_mem_cons.1 hts
    have hadd : registry.addTerm s definitions policy type t =
        registry.addTerm s definitions' policy type t := by
      unfold addTerm
      rw [Solution.ofTerm?_eq h ht]
    unfold addTerms
    rw [hadd]
    refine CheckedBuild.bind_congr fun added _ => ?_
    cases added with
    | error e => rfl
    | ok registry => exact ih hts

end SolutionRegistry

end Showing

/-! ### Linear systems -/

namespace SymbolicMatrix

variable {m : SymbolicMatrix}

theorem rank_eq (h : AgreeOn names definitions definitions') (hm : ∀ t ∈ terms m, LooksUp s names t) :
    m.rank s definitions = m.rank s definitions' := by
  unfold rank reduce
  rw [h.reduceAll_eq fun t ht => hm t (entries_subset m ht)]

theorem mentionsOnly_rank (h : AgreeOn names definitions definitions')
    (hm : ∀ t ∈ terms m, t.MentionsOnly names) :
    ∀ t ∈ terms (m.rank s definitions).value, t.MentionsOnly names := by
  rw [rank_eq h.agreeOn_restrict fun t ht => Reduction.looksUp_of_mentionsOnly (hm t ht)]
  have hstarts := startsFrom_rank (s := s)
    (List.subset_append_left (terms (Reduction.restrict names definitions)) (terms m))
    (List.subset_append_right _ _)
  refine hstarts.mentionsOnly (addsNoSymbol_rank m) fun t ht => ?_
  rcases List.mem_append.1 ht with ht | ht
  · exact h.mentionsOnly_of_mem_restrict ht
  · exact hm t ht

end SymbolicMatrix

namespace Linear

variable {settings : ReductionTarget → Settings} {count : Nat} {rows : List (List Term)}

/-- With symbols kept, definitions have no part in pinning unknowns. -/
theorem pinFree_eq (h : AgreeOn names definitions definitions') (hs : s.symbols = .keepAll)
    {parameters missing pins rank : Nat} {m : SymbolicMatrix} :
    pinFree s definitions count parameters missing pins rank m =
      pinFree s definitions' count parameters missing pins rank m := by
  induction missing generalizing pins rank m with
  | zero => rfl
  | succ missing ih =>
    unfold pinFree
    split_ifs
    · rfl
    · split
      · rfl
      · refine CheckedBuild.bind_congr fun pinned _ => ?_
        rw [SymbolicMatrix.rank_eq h fun t _ => Reduction.looksUp_of_keepAll hs]
        simp only [ih]

theorem solve_eq (h : AgreeOn names definitions definitions')
    (hrows : ∀ t ∈ terms rows, t.MentionsOnly names) :
    solve settings definitions count rows = solve settings definitions' count rows := by
  unfold solve
  refine CheckedBuild.bind_congr fun augmented haugmented => ?_
  have hofRows : SymbolicMatrix.ofRows rows = .ok augmented := haugmented
  have hmentions : ∀ t ∈ terms augmented, t.MentionsOnly names :=
    fun t ht => hrows t (SymbolicMatrix.terms_subset_of_ofRows hofRows ht)
  rw [SymbolicMatrix.rank_eq h fun t ht => Reduction.looksUp_of_mentionsOnly (hmentions t ht)]
  have hpin (m : SymbolicMatrix) (rank : Nat) :
      pinFree { settings .analysis with symbols := .keepAll } definitions count (count - rank)
          (count - rank) 0 rank m =
        pinFree { settings .analysis with symbols := .keepAll } definitions' count (count - rank)
          (count - rank) 0 rank m := pinFree_eq h rfl
  simp only [hpin]

/-- The values of the unknowns, where there is one solution, mention what the rows mention. -/
theorem ensures_solve_mentionsOnly (h : AgreeOn names definitions definitions')
    (hrows : ∀ t ∈ terms rows, t.MentionsOnly names) :
    (solve settings definitions count rows).Ensures fun answer =>
      ∀ found, answer = .unique found → ∀ t ∈ found, t.MentionsOnly names := by
  refine ensures_solve.mono ?_
  rintro answer hanswer found rfl
  cases hanswer with
  | @unique m echelon _ hm hrank _ _ hvalues =>
    have hechelon := SymbolicMatrix.mentionsOnly_rank (s := settings .approximation) h fun t ht =>
      hrows t (SymbolicMatrix.terms_subset_of_ofRows hm ht)
    rw [hrank] at hechelon
    exact fun t ht => hechelon t (List.mem_append_left _ (values_subset hvalues ht))

theorem mentionsOnly_augmentedRows {unknowns : List String} {forms : List Term}
    (hforms : ∀ form ∈ forms, form.MentionsOnly names)
    (h : (augmentedRows s unknowns forms).value = some rows) :
    ∀ t ∈ terms rows, t.MentionsOnly names := by
  have hstarts : (augmentedRows s unknowns forms).StartsFrom forms :=
    startsFrom_augmentedRows (List.Subset.refl forms)
  have hmentions := hstarts.mentionsOnly (addsNoSymbol_augmentedRows unknowns forms) hforms
  rwa [h, terms_some] at hmentions

end Linear

/-! ### Attempts -/

namespace Attempt

variable {preferences : Preferences} {settings : SolverSettings} {attempt : Attempt Term}
  {type : SolutionType}

theorem registerAll_eq (h : AgreeOn names definitions definitions') {ts : List Term}
    (hts : ∀ t ∈ ts, LooksUp s names t) :
    attempt.registerAll preferences settings definitions s type ts =
      attempt.registerAll preferences settings definitions' s type ts := by
  unfold registerAll
  rw [SolutionRegistry.addTerms_eq h hts]

theorem solveLinear_eq (h : AgreeOn names definitions definitions') {forms : List Term}
    (hforms : ∀ form ∈ forms, form.MentionsOnly names) :
    attempt.solveLinear preferences settings definitions forms =
      attempt.solveLinear preferences settings definitions' forms := by
  unfold solveLinear
  refine CheckedBuild.build_bind_congr ?_
  split
  · rfl
  case h_2 rows hrows =>
    have hmentions := Linear.mentionsOnly_augmentedRows hforms hrows
    unfold solveRows
    dsimp only
    rw [Linear.solve_eq h hmentions]
    refine CheckedBuild.bind_congr fun answer hanswer => ?_
    rw [← Linear.solve_eq h hmentions] at hanswer
    have hvalues := Linear.ensures_solve_mentionsOnly h hmentions answer hanswer
    cases answer with
    | undefined | inconsistent | unresolved => rfl
    | unique values => exact registerAll_eq h fun t ht _ => hvalues values rfl t ht
    | parametric values => exact registerAll_eq h fun t _ => Reduction.looksUp_of_keepAll rfl

/-! #### One equation in one unknown -/

theorem mentionsOnly_closedRoots {unknown : String} {form : Term} {degree : Nat}
    {roots : PolynomialRoots} (hform : form.MentionsOnly names)
    (h : (closedRoots s unknown form).value = some (degree, roots)) :
    ∀ t ∈ terms roots, t.MentionsOnly names := by
  have hadds : (closedRoots s unknown form).AddsNoSymbol := by
    unfold closedRoots
    split
    · exact Build.addsNoSymbol_pure _
    case h_2 build hbuild =>
      refine Build.addsNoSymbol_bind.2 ⟨Coefficients.addsNoSymbol_polynomial? hbuild, ?_⟩
      split <;> simp
  have hstarts : (closedRoots s unknown form).StartsFrom [form] :=
    startsFrom_closedRoots (List.mem_singleton_self form)
  have hmentions := hstarts.mentionsOnly hadds (List.forall_mem_singleton.2 hform)
  rw [h] at hmentions
  exact fun t ht => hmentions t (by simpa using ht)

theorem mentionsOnly_shownDiscriminant {roots : PolynomialRoots}
    (h : roots.delta.MentionsOnly names) :
    (shownDiscriminant s roots).value.MentionsOnly names := by
  have hadds : (shownDiscriminant s roots).AddsNoSymbol := by
    unfold shownDiscriminant
    split_ifs <;> simp
  exact (startsFrom_shownDiscriminant (List.mem_singleton_self roots.delta)).mentionsOnly hadds
    (List.forall_mem_singleton.2 h) _ (List.mem_singleton_self _)

theorem registerRoots_eq (h : AgreeOn names definitions definitions') {roots : PolynomialRoots}
    (hroots : ∀ t ∈ terms roots, t.MentionsOnly names) :
    attempt.registerRoots preferences settings definitions roots =
      attempt.registerRoots preferences settings definitions' roots := by
  obtain ⟨hdelta, hroots⟩ := List.forall_mem_cons.1 hroots
  unfold registerRoots
  dsimp only
  rw [registerAll_eq h fun t ht _ => hroots t ht]
  refine CheckedBuild.bind_congr fun found _ => ?_
  split
  · rfl
  · refine CheckedBuild.build_bind_congr ?_
    exact registerAll_eq h (List.forall_mem_singleton.2 fun _ => mentionsOnly_shownDiscriminant hdelta)

theorem solvePolynomial_eq (h : AgreeOn names definitions definitions') {unknown : String}
    {form : Term} (hform : form.MentionsOnly names) :
    attempt.solvePolynomial preferences settings definitions unknown form =
      attempt.solvePolynomial preferences settings definitions' unknown form := by
  unfold solvePolynomial
  refine CheckedBuild.build_bind_congr ?_
  split
  case h_1 degree roots hroots => exact registerRoots_eq h (mentionsOnly_closedRoots hform hroots)
  case h_2 => rfl

theorem solveForms_eq (h : AgreeOn names definitions definitions') {forms : List Term}
    (hforms : ∀ form ∈ forms, form.MentionsOnly names) :
    attempt.solveForms preferences settings definitions forms =
      attempt.solveForms preferences settings definitions' forms := by
  unfold solveForms
  rw [solveLinear_eq h hforms]
  refine CheckedBuild.bind_congr fun linear _ => ?_
  split
  · exact solvePolynomial_eq h (hforms _ List.mem_cons_self)
  · rfl

end Attempt

/-- Definitions that agree on the names that the sides lead to lead to the same attempt. -/
theorem Attempted.ofSides_eq (h : AgreeOn names definitions definitions')
    {preferences : Preferences} {settings : SolverSettings} {sides : List (Term × Term)}
    (hsides : ∀ p ∈ sides, p.1.MentionsOnly names ∧ p.2.MentionsOnly names) (keepsDefined : Bool) :
    ofSides preferences settings keepsDefined definitions sides =
      ofSides preferences settings keepsDefined definitions' sides := by
  unfold ofSides
  rw [← Attempt.readSides_eq h hsides]
  split
  · rfl
  case h_2 attempt forms hread =>
    rw [Attempt.solveForms_eq h (Attempt.mentionsOnly_of_readSides h hsides hread)]

end EquationSolver
