import EquationSolver.Proofs.Matrix.Origin
import EquationSolver.Proofs.Polynomial.Origin
import EquationSolver.Proofs.Solver.Answers

/-!
# What solving starts from

The terms that an attempt builds, and those that its solutions show, are built from the
standard forms of the equations and from the definitions.
-/

namespace EquationSolver

open Build
open Reduction (Settings)

variable {α β : Type} [HoldsTerms α] [HoldsTerms β] {parts : List Term}

/-! ### Checked constructions -/

namespace CheckedBuild

/-- The construction is grounded wherever the given terms are known, and then so is what its
    value holds, unless it comes to a fault. -/
def StartsFrom (parts : List Term) (b : CheckedBuild α) : Prop :=
  Build.StartsFrom parts b.run

theorem startsFrom_pure {a : α} (h : terms a ⊆ parts) :
    StartsFrom parts (pure a : CheckedBuild α) :=
  Build.startsFrom_pure (by simpa using h)

theorem StartsFrom.bind {x : CheckedBuild α} {f : α → CheckedBuild β} (hx : StartsFrom parts x)
    (hf : ∀ a, StartsFrom (terms a ++ parts) (f a)) : StartsFrom parts (x >>= f) := by
  refine Build.StartsFrom.bind hx fun result => ?_
  cases result with
  | ok a => exact terms_ok (ε := Fault) a ▸ hf a
  | error e => exact Build.startsFrom_pure (by simp)

theorem startsFrom_build {x : Build α} (h : x.StartsFrom parts) :
    StartsFrom parts (liftM x : CheckedBuild α) :=
  Build.StartsFrom.bind h fun a => Build.startsFrom_pure (by simp)

theorem startsFrom_except {x : Except Fault α} (h : ∀ a, x = .ok a → terms a ⊆ parts) :
    StartsFrom parts (liftM x : CheckedBuild α) := by
  cases x with
  | ok a => exact Build.startsFrom_pure (by simpa using h a rfl)
  | error e => exact Build.startsFrom_pure (by simp)

end CheckedBuild

open CheckedBuild (startsFrom_build startsFrom_except)

variable {s : Settings} {definitions : Definitions}

/-! ### Linear systems -/

namespace Linear

instance : HoldsTerms LinearAnswer := ⟨LinearAnswer.terms⟩

theorem startsFrom_augmentedRows {unknowns : List String} {forms : List Term}
    (h : forms ⊆ parts) : (augmentedRows s unknowns forms).StartsFrom parts := by
  induction forms generalizing parts with
  | nil => exact startsFrom_pure (by simp [terms])
  | cons form rest ih =>
    obtain ⟨hform, hrest⟩ := List.cons_subset.1 h
    unfold augmentedRows
    split
    · exact startsFrom_pure (by simp)
    case h_2 build hbuild =>
      refine (Coefficients.startsFrom_linear? hbuild hform).bind fun found => ?_
      refine (startsFrom_make (by simp [Term.children])).bind fun opposite => ?_
      refine (ih fun t ht => by simp [hrest ht]).bind fun rows => startsFrom_pure ?_
      cases rows with
      | none => simp
      | some rows =>
        have hcoefficients : found.1 ⊆ terms rows ++ opposite :: (found.1 ++ found.2 :: parts) :=
          fun t ht => by simp [ht]
        simpa using hcoefficients

theorem values_subset {count : Nat} {m : SymbolicMatrix} {found : List Term}
    (h : values count m = .ok found) : found ⊆ terms m := by
  intro t ht
  obtain ⟨hlength, hentries⟩ := of_values_eq_ok h
  obtain ⟨i, hi, rfl⟩ := List.getElem_of_mem ht
  obtain ⟨u, hu, hentry⟩ := hentries i (hlength ▸ hi)
  cases (List.getElem?_eq_getElem hi).symm.trans hu
  obtain ⟨row, hrow, hentry⟩ := Option.bind_eq_some_iff.1 hentry
  exact SymbolicMatrix.row_subset (List.mem_of_getElem? hrow) (List.mem_of_getElem? hentry)

theorem startsFrom_pinned {count place : Nat} {name : String} {m : SymbolicMatrix}
    (h : terms m ⊆ parts) : CheckedBuild.StartsFrom parts (pinned count place name m) := by
  unfold pinned
  refine (startsFrom_build (startsFrom_make (List.nil_subset _))).bind fun zero => ?_
  refine (startsFrom_build (startsFrom_make (List.nil_subset _))).bind fun one => ?_
  refine (startsFrom_build (startsFrom_make (List.nil_subset _))).bind fun parameter => ?_
  refine startsFrom_except fun m' hm' => ?_
  unfold SymbolicMatrix.pushRow at hm'
  split_ifs at hm'
  cases hm'
  have hpin : ((List.replicate count zero).set place one ++ [parameter]) ⊆
      parameter :: one :: zero :: parts := by
    intro t ht
    rcases List.mem_append.1 ht with ht | ht
    · rcases List.mem_or_eq_of_mem_set ht with ht | rfl
      · simp [List.eq_of_mem_replicate ht]
      · simp
    · simp [List.mem_singleton.1 ht]
  have hrows : terms m ⊆ parameter :: one :: zero :: parts := fun t ht => by simp [h ht]
  intro t ht
  rcases List.mem_append.1 ((terms_append m.rows _) ▸ ht) with ht | ht
  · exact hrows ht
  · exact hpin (by simpa using ht)

theorem startsFrom_pinFree {count parameters : Nat} : ∀ (missing : Nat) {pins rank : Nat}
    {m : SymbolicMatrix} {parts : List Term}, terms definitions ⊆ parts → terms m ⊆ parts →
      CheckedBuild.StartsFrom parts (pinFree s definitions count parameters missing pins rank m)
  | 0, _, _, _, _, _, hm => CheckedBuild.startsFrom_pure (by simpa using hm)
  | missing + 1, pins, rank, m, parts, hdefinitions, hm => by
    unfold pinFree
    split
    · exact CheckedBuild.startsFrom_pure (by simpa using hm)
    · split
      · exact CheckedBuild.startsFrom_pure (by simp)
      · refine (startsFrom_pinned hm).bind fun m => ?_
        refine (startsFrom_build (SymbolicMatrix.startsFrom_rank
          (List.subset_append_of_subset_right _ hdefinitions) (by simp))).bind fun found => ?_
        split
        · exact CheckedBuild.startsFrom_pure (by simp)
        · split_ifs
          · exact CheckedBuild.startsFrom_pure (by simp)
          · exact startsFrom_pinFree missing (fun t ht => by simp [hdefinitions ht]) (by simp)

theorem startsFrom_solve {settings : ReductionTarget → Settings} {count : Nat}
    {rows : List (List Term)} (hdefinitions : terms definitions ⊆ parts)
    (hrows : terms rows ⊆ parts) :
    CheckedBuild.StartsFrom parts (solve settings definitions count rows) := by
  have hvalues {m : SymbolicMatrix} {parts : List Term} {answer : List Term → LinearAnswer}
      (hm : terms m ⊆ parts) (hanswer : ∀ found, terms (answer found) = found) :
      CheckedBuild.StartsFrom parts (do
        let found ← (liftM (values count m) : CheckedBuild _)
        pure (answer found)) :=
    (startsFrom_except fun found hfound t ht =>
      hm (values_subset hfound (terms_terms found ▸ ht))).bind fun found =>
        CheckedBuild.startsFrom_pure (by simp [hanswer])
  unfold solve
  refine CheckedBuild.StartsFrom.bind (startsFrom_except fun m hm =>
    List.Subset.trans (SymbolicMatrix.terms_subset_of_ofRows hm) hrows) fun augmented => ?_
  refine (startsFrom_build (SymbolicMatrix.startsFrom_rank
    (List.subset_append_of_subset_right _ hdefinitions) (by simp))).bind fun found => ?_
  split
  · exact CheckedBuild.startsFrom_pure (List.nil_subset _)
  · split_ifs
    · exact CheckedBuild.startsFrom_pure (List.nil_subset _)
    · exact hvalues (by simp) fun _ => rfl
    · refine (startsFrom_pinFree _ (fun t ht => by simp [hdefinitions ht]) (by simp)).bind
        fun pinned => ?_
      split
      · exact CheckedBuild.startsFrom_pure (List.nil_subset _)
      · exact hvalues (by simp) fun _ => rfl

end Linear

/-! ### Displayed values -/

theorem startsFrom_simplifyAndApproximate {t : Term} (hdefinitions : terms definitions ⊆ parts)
    (ht : t ∈ parts) : (simplifyAndApproximate s definitions t).StartsFrom parts := by
  unfold simplifyAndApproximate
  refine (Reduction.startsFrom_reduce hdefinitions ht).bind fun exact => ?_
  exact (Approximation.startsFrom_toTerm _ _).bind fun approximate =>
    Build.startsFrom_pure (by simp)

theorem startsFrom_exactEqualsText {exact : Term} (text : String)
    (hdefinitions : terms definitions ⊆ parts) (hexact : exact ∈ parts) :
    (exactEqualsText s definitions exact text).StartsFrom parts := by
  unfold exactEqualsText
  refine (startsFrom_parseExpression text).bind fun read => ?_
  cases read with
  | error e => exact Build.startsFrom_pure (by simp)
  | ok read =>
    refine (startsFrom_difference (by simp [hexact]) (by simp)).bind fun difference => ?_
    refine (Reduction.startsFrom_reduce (fun t ht => by simp [hdefinitions ht]) (by simp)).bind
      fun reduced => Build.startsFrom_pure (by simp)

/-! ### Solutions -/

instance : HoldsTerms (Layout Term) := ⟨fun layout => [layout.node]⟩

instance : HoldsTerms (Solution Term) := ⟨fun solution => terms solution.layouts⟩

instance : HoldsTerms (SolutionRegistry Term) := ⟨fun registry => terms registry.solutions⟩

instance : HoldsTerms SolverError := ⟨fun _ => []⟩

namespace Solution

variable {policy : DisplayPolicy} {type : SolutionType}

@[simp] theorem terms_layout (policy : DisplayPolicy) (t : Term) :
    terms (layout policy t) = [t] := rfl

theorem terms_exactLayout? (policy : DisplayPolicy) (t : Term) :
    terms (exactLayout? policy t) ⊆ [t] := by
  unfold exactLayout?
  dsimp only
  split_ifs <;> simp

theorem terms_solution (solution : Solution Term) :
    terms solution = terms solution.exact ++ terms solution.approximate :=
  List.flatMap_append

theorem startsFrom_forms {t : Term} (hdefinitions : terms definitions ⊆ parts) (ht : t ∈ parts) :
    (forms s definitions type t).StartsFrom parts := by
  unfold forms
  split
  · exact Build.startsFrom_pure (by simp [ht])
  · exact (startsFrom_simplifyAndApproximate hdefinitions ht).bind fun found =>
      Build.startsFrom_pure (by simp)

theorem startsFrom_compareLayouts {exact approximate : Option (Layout Term)}
    (hdefinitions : terms definitions ⊆ parts) (hexact : terms exact ⊆ parts) :
    (compareLayouts s definitions type exact approximate).StartsFrom parts := by
  unfold compareLayouts
  split
  case h_1 exact approximate =>
    split_ifs
    · exact Build.startsFrom_pure (by simp)
    · refine (startsFrom_exactEqualsText _ hdefinitions ?_).bind fun agree => ?_
      · exact hexact (by simp [terms])
      · exact Build.startsFrom_pure (by simpa using hexact)
  case h_2 => exact Build.startsFrom_pure (by simpa using hexact)

theorem startsFrom_ofForms {exact : Option Term} {approximate : Term}
    (hdefinitions : terms definitions ⊆ parts) (hexact : terms exact ⊆ parts)
    (happroximate : approximate ∈ parts) :
    (ofForms s definitions policy type exact approximate).StartsFrom parts := by
  have hlayout : terms (exact.bind (exactLayout? policy)) ⊆ parts := by
    cases exact with
    | none => exact List.nil_subset _
    | some t => exact fun u hu => hexact (by simpa using terms_exactLayout? policy t hu)
  unfold ofForms
  refine (startsFrom_compareLayouts hdefinitions hlayout).bind fun found => ?_
  refine Build.startsFrom_pure ?_
  rw [terms_solution]
  refine List.append_subset.2 ⟨fun t ht => by simp [ht], ?_⟩
  dsimp only
  split_ifs
  · exact List.nil_subset _
  · simpa using .inr happroximate

theorem startsFrom_ofTerm? {t : Term} (hdefinitions : terms definitions ⊆ parts) (ht : t ∈ parts) :
    (ofTerm? s definitions policy type t).StartsFrom parts := by
  unfold ofTerm?
  refine (startsFrom_forms hdefinitions ht).bind fun found => ?_
  obtain ⟨exact, approximate⟩ := found
  dsimp only
  split
  · exact Build.startsFrom_pure (by simp)
  · split_ifs
    · exact Build.startsFrom_pure (by simp only [terms_error, List.nil_subset])
    · refine Build.StartsFrom.bind (startsFrom_ofForms (fun t ht => ?_) (by simp) (by simp))
        fun solution => Build.startsFrom_pure (by simp)
      exact List.mem_append_right _ (hdefinitions ht)

end Solution

/-! ### Registries -/

namespace SolutionRegistry

variable {registry : SolutionRegistry Term} {policy : DisplayPolicy} {type : SolutionType}

theorem terms_add {solution : Option (Solution Term)} {added : SolutionRegistry Term}
    (h : registry.add solution = .ok added) : terms added ⊆ terms registry ++ terms solution := by
  unfold add at h
  split at h
  · cases h
    exact List.subset_append_left _ _
  case h_2 solution =>
    split_ifs at h
    cases h
    show terms (registry.solutions ++ [solution]) ⊆ terms registry.solutions ++ _
    simp

theorem startsFrom_addTerm {t : Term} (hdefinitions : terms definitions ⊆ parts) (ht : t ∈ parts)
    (hregistry : terms registry ⊆ parts) :
    CheckedBuild.StartsFrom parts (registry.addTerm s definitions policy type t) := by
  unfold addTerm
  refine (startsFrom_build (Solution.startsFrom_ofTerm? hdefinitions ht)).bind fun found => ?_
  cases found with
  | error e => exact CheckedBuild.startsFrom_pure (by simp only [terms_error, List.nil_subset])
  | ok solution =>
    rw [terms_ok]
    refine CheckedBuild.StartsFrom.bind (startsFrom_except fun added hadded t ht => ?_)
      fun added => CheckedBuild.startsFrom_pure (by simp only [terms_ok, List.subset_append_left])
    rcases List.mem_append.1 (terms_add hadded ht) with ht | ht
    · simp [hregistry ht]
    · simp [ht]

theorem startsFrom_addTerms {ts : List Term} (hdefinitions : terms definitions ⊆ parts)
    (hts : ts ⊆ parts) (hregistry : terms registry ⊆ parts) :
    CheckedBuild.StartsFrom parts (registry.addTerms s definitions policy type ts) := by
  induction ts generalizing registry parts with
  | nil => exact CheckedBuild.startsFrom_pure (by simpa using hregistry)
  | cons t ts ih =>
    obtain ⟨ht, hts⟩ := List.cons_subset.1 hts
    unfold addTerms
    refine (startsFrom_addTerm hdefinitions ht hregistry).bind fun added => ?_
    cases added with
    | error e =>
      rw [terms_error, List.nil_append]
      refine CheckedBuild.startsFrom_pure fun t ht => hregistry ?_
      simpa [terms] using ht
    | ok added =>
      rw [terms_ok]
      exact ih (fun t ht => by simp [hdefinitions ht]) (fun t ht => by simp [hts ht]) (by simp)

end SolutionRegistry

/-! ### Attempts -/

namespace Attempt

instance : HoldsTerms (Attempt Term) := ⟨fun attempt => terms attempt.registry⟩

instance : HoldsTerms (Attempted Term) := ⟨fun found => terms found.attempt⟩

variable {preferences : Preferences} {settings : SolverSettings} {attempt : Attempt Term}

theorem terms_addForm (attempt : Attempt Term) (form : Term) :
    terms (attempt.addForm form) ⊆ terms attempt ++ [form] := by
  unfold addForm
  split
  · exact List.append_subset.2 ⟨List.subset_append_left _ _, List.nil_subset _⟩
  · refine List.append_subset.2 ⟨List.subset_append_left _ _, ?_⟩
    dsimp only
    split_ifs <;> simp

theorem startsFrom_readEquation {left right : Term} (hdefinitions : terms definitions ⊆ parts)
    (hattempt : terms attempt ⊆ parts) (hleft : left ∈ parts) (hright : right ∈ parts) :
    (readEquation preferences definitions attempt left right).StartsFrom parts := by
  unfold readEquation
  refine (startsFrom_standardForm hdefinitions hleft hright).bind fun kept => ?_
  dsimp only
  have hform (attempt' : Attempt Term) (h : terms attempt' ⊆ parts) (form : Term) :
      (pure (addForm attempt' form) : Build _).StartsFrom (terms form ++ (terms kept ++ parts)) :=
    Build.startsFrom_pure fun t ht => by
      rcases List.mem_append.1 (terms_addForm attempt' form ht) with ht | ht
      · simp [h ht]
      · simp [List.mem_singleton.1 ht]
  split_ifs
  · exact (Build.startsFrom_pure (by simp)).bind (hform _ hattempt)
  · exact (startsFrom_standardForm (List.subset_append_of_subset_right _ hdefinitions)
      (by simp [hleft]) (by simp [hright])).bind (hform _ hattempt)

theorem startsFrom_registerAll {ts : List Term} {type : SolutionType}
    (hdefinitions : terms definitions ⊆ parts) (hattempt : terms attempt ⊆ parts)
    (hts : ts ⊆ parts) : CheckedBuild.StartsFrom parts
      (attempt.registerAll preferences settings definitions s type ts) := by
  unfold registerAll
  refine (SolutionRegistry.startsFrom_addTerms hdefinitions hts hattempt).bind fun found => ?_
  exact CheckedBuild.startsFrom_pure fun t ht =>
    List.mem_append_left _ (List.mem_append_left _ ht)

theorem startsFrom_solveRows {rows : List (List Term)} (hdefinitions : terms definitions ⊆ parts)
    (hattempt : terms attempt ⊆ parts) (hrows : terms rows ⊆ parts) :
    CheckedBuild.StartsFrom parts
      (attempt.solveRows preferences settings definitions rows) := by
  unfold solveRows
  dsimp only
  refine (Linear.startsFrom_solve hdefinitions hrows).bind fun answer => ?_
  have hregister {attempt' : Attempt Term} {s : Settings} {type : SolutionType}
      (h : terms attempt' ⊆ terms attempt) (values : List Term) (hvalues : terms answer = values) :
      CheckedBuild.StartsFrom (terms answer ++ parts)
        (attempt'.registerAll preferences settings definitions s type values) :=
    startsFrom_registerAll (List.subset_append_of_subset_right _ hdefinitions)
      (fun t ht => List.mem_append_right _ (hattempt (h ht))) (by simp [hvalues])
  have hkept {found : Attempted Term} (h : terms found ⊆ terms attempt) :
      CheckedBuild.StartsFrom (terms answer ++ parts) (pure found : CheckedBuild _) :=
    CheckedBuild.startsFrom_pure fun t ht => List.mem_append_right _ (hattempt (h ht))
  cases answer with
  | undefined | inconsistent | unresolved => exact hkept (List.Subset.refl _)
  | unique values | parametric values =>
    refine hregister ?_ values rfl
    exact List.Subset.refl _

theorem startsFrom_solveLinear {forms : List Term} (hdefinitions : terms definitions ⊆ parts)
    (hattempt : terms attempt ⊆ parts) (hforms : forms ⊆ parts) : CheckedBuild.StartsFrom parts
      (attempt.solveLinear preferences settings definitions forms) := by
  unfold solveLinear
  refine (startsFrom_build (Linear.startsFrom_augmentedRows hforms)).bind fun rows => ?_
  cases rows with
  | none => exact CheckedBuild.startsFrom_pure fun t ht => List.mem_append_right _ (hattempt ht)
  | some rows =>
    exact startsFrom_solveRows (List.subset_append_of_subset_right _ hdefinitions)
      (List.subset_append_of_subset_right _ hattempt) (by simp)

theorem startsFrom_closedRoots {unknown : String} {form : Term} (hform : form ∈ parts) :
    (closedRoots s unknown form).StartsFrom parts := by
  unfold closedRoots
  split
  · exact Build.startsFrom_pure (by simp)
  case h_2 build hbuild =>
    refine (Coefficients.startsFrom_polynomial? hbuild hform).bind fun coefficients => ?_
    split
    · exact (Roots.startsFrom_ofQuadratic (by simp) (by simp) (by simp)).bind fun roots =>
        Build.startsFrom_pure (by simp)
    · exact (Roots.startsFrom_ofCubic (by simp) (by simp) (by simp) (by simp)).bind fun roots =>
        Build.startsFrom_pure (by simp)
    · exact Build.startsFrom_pure (by simp)

theorem startsFrom_shownDiscriminant {roots : PolynomialRoots} (h : roots.delta ∈ parts) :
    (shownDiscriminant s roots).StartsFrom parts := by
  unfold shownDiscriminant
  split_ifs
  · exact Approximation.startsFrom_toTerm _ _
  · exact Build.startsFrom_pure (by simpa using h)

theorem startsFrom_registerRoots {roots : PolynomialRoots}
    (hdefinitions : terms definitions ⊆ parts) (hattempt : terms attempt ⊆ parts)
    (hroots : terms roots ⊆ parts) : CheckedBuild.StartsFrom parts
      (attempt.registerRoots preferences settings definitions roots) := by
  obtain ⟨hdelta, hroots⟩ := List.cons_subset.1 hroots
  unfold registerRoots
  dsimp only
  refine (startsFrom_registerAll hdefinitions hattempt hroots).bind fun found => ?_
  split
  · exact CheckedBuild.startsFrom_pure (by simp)
  · refine (startsFrom_build (startsFrom_shownDiscriminant (by simp [hdelta]))).bind fun delta => ?_
    exact startsFrom_registerAll (fun t ht => by simp [hdefinitions ht])
      (fun t ht => List.mem_append_right _ (List.mem_append_left _ ht)) (by simp)

theorem startsFrom_solvePolynomial {unknown : String} {form : Term}
    (hdefinitions : terms definitions ⊆ parts) (hattempt : terms attempt ⊆ parts)
    (hform : form ∈ parts) : CheckedBuild.StartsFrom parts
      (attempt.solvePolynomial preferences settings definitions unknown form) := by
  unfold solvePolynomial
  refine (startsFrom_build (startsFrom_closedRoots hform)).bind fun found => ?_
  cases found with
  | none => exact CheckedBuild.startsFrom_pure fun t ht => List.mem_append_right _ (hattempt ht)
  | some found =>
    exact startsFrom_registerRoots (List.subset_append_of_subset_right _ hdefinitions)
      (fun t ht => List.mem_append_right _ (hattempt ht)) (by simp)

/-- What solving standard forms builds. -/
theorem startsFrom_solveForms {forms : List Term} (hdefinitions : terms definitions ⊆ parts)
    (hattempt : terms attempt ⊆ parts) (hforms : forms ⊆ parts) : CheckedBuild.StartsFrom parts
      (attempt.solveForms preferences settings definitions forms) := by
  unfold solveForms
  refine (startsFrom_solveLinear hdefinitions hattempt hforms).bind fun linear => ?_
  split
  case h_1 unknown form =>
    exact startsFrom_solvePolynomial (List.subset_append_of_subset_right _ hdefinitions)
      (List.subset_append_left _ _) (List.mem_append_right _ (hforms List.mem_cons_self))
  case h_2 => exact CheckedBuild.startsFrom_pure (List.subset_append_left _ _)

end Attempt

end EquationSolver
