import EquationSolver.Proofs.Matrix.Solutions
import EquationSolver.Proofs.Polynomial.Affine
import EquationSolver.Proofs.Value.Symbols

/-!
# Affine systems and their solutions

The coefficients of an affine form do not depend on what its symbols stand for.  So the form is
zero at a point just when the row of the augmented matrix is, with the numbers of the point in the
columns of the unknowns and minus one in the column of the constants: the solutions of a system
are those of its rows.
-/

namespace EquationSolver

open Reduction (Settings DrawsRoots)
open SymbolicMatrix

/-! ### Affine forms -/

/-- An affine function of the symbols with real coefficients: a sum of products in which all
    factors but one symbol at most are real constants. -/
structure Term.IsAffine (t : Term) : Prop where
  hasValue : ∀ ρ, (Valuation.real ρ).HasValue t
  factors : ∀ u ∈ Reduction.summands t,
    (Coefficients.factors u).filter Term.containsSymbol = [] ∨
      ∃ name, (Coefficients.factors u).filter Term.containsSymbol = [.symbol name]

namespace Coefficients

variable {s : Settings} {names : List String} {t u f : Term} {name : String}

theorem mentions_of_mem_factors (hf : f ∈ factors u) (h : f.Mentions name) : u.Mentions name := by
  cases u with
  | product items => exact Term.mentions_product.2 ⟨f, hf, h⟩
  | _ => exact List.mem_singleton.1 hf ▸ h

theorem mentions_of_mem_summands (hu : u ∈ Reduction.summands t) (h : u.Mentions name) :
    t.Mentions name := by
  cases t with
  | sum terms => exact Term.mentions_sum.2 ⟨u, hu, h⟩
  | _ => exact List.mem_singleton.1 hu ▸ h

/-- Factors with one symbol at most are taken into an affine term. -/
theorem exists_foldlM_addFactor {fs : List Term} {start : AffineTerm}
    (hnames : ∀ f ∈ fs, ∀ name, f.Mentions name → name ∈ names)
    (h : fs.filter Term.containsSymbol = [] ∨
      start.unknown = none ∧ ∃ name, fs.filter Term.containsSymbol = [.symbol name]) :
    ∃ part, fs.foldlM (AffineTerm.addFactor names) start = some part := by
  induction fs generalizing start with
  | nil => exact ⟨start, rfl⟩
  | cons f rest ih =>
    obtain ⟨hf, hrest⟩ := List.forall_mem_cons.1 hnames
    rw [List.foldlM_cons]
    unfold AffineTerm.addFactor
    cases hsymbol : f.containsSymbol with
    | false =>
      rw [List.filter_cons_of_neg (by simp [hsymbol])] at h
      rw [Term.dependsOn_eq_false hsymbol]
      exact ih hrest h
    | true =>
      rw [List.filter_cons_of_pos hsymbol] at h
      obtain ⟨hunknown, name, hfilter⟩ := h.resolve_left (List.cons_ne_nil _ _)
      obtain ⟨rfl, hnone⟩ := List.cons.inj hfilter
      have hdepends : (Term.symbol name).dependsOn names = true :=
        (Term.mentions_symbol.2 rfl).dependsOn (hf name (Term.mentions_symbol.2 rfl))
      rw [hdepends, hunknown]
      exact ih hrest (.inl hnone)

/-- An affine form is read as one. -/
theorem exists_linear?_of_isAffine (s : Settings) (h : t.IsAffine)
    (hnames : ∀ name, t.Mentions name → name ∈ names) : ∃ build, linear? s names t = some build := by
  have hread : ∀ u ∈ Reduction.summands t, ∃ part, affineTerm? names u = some part := by
    intro u hu
    refine exists_foldlM_addFactor (fun f hf name hname => ?_)
      ((h.factors u hu).imp_right fun hone => ⟨rfl, hone⟩)
    exact hnames name (mentions_of_mem_summands hu (mentions_of_mem_factors hf hname))
  obtain ⟨parts, hparts⟩ := exists_mapM_eq_some hread
  exact ⟨_, by rw [linear?, hparts]; rfl⟩

/-- The coefficients do not depend on what the symbols stand for. -/
theorem coefficientOf_real (hnames : ∀ name, t.Mentions name → name ∈ names)
    {parts : List AffineTerm} (hread : (Reduction.summands t).mapM (affineTerm? names) = some parts)
    (ρ ρ' : String → ℝ) (unknown : Option Nat) :
    coefficientOf (.real ρ) parts unknown = coefficientOf (.real ρ') parts unknown := by
  refine congrArg List.sum (List.map_congr_left fun part hpart => congrArg List.prod ?_)
  obtain ⟨u, hu, hpart⟩ :=
    exists_of_mem_forall₂ (forall₂_of_mapM hread) (List.mem_of_mem_filter hpart)
  refine Valuation.map_value_real_congr ρ ρ' part.coefficient fun f hf => ?_
  obtain ⟨hfactor, hconstant⟩ := (isAffineTerm_of_affineTerm? (.real ρ) hpart).mem_factors f hf
  exact Term.containsSymbol_eq_false (fun name hname => hnames name
    (mentions_of_mem_summands hu (mentions_of_mem_factors hfactor hname))) hconstant

end Coefficients

/-! ### Rows and points -/

namespace Linear

variable {s : Settings} {names : List String} {forms : List Term} {rows : List (List Term)}

/-- The number of a point for a column: minus one for that of the constants. -/
def coordinate (point : List ℝ) (j : Nat) : ℝ :=
  point.getD j (-1)

/-- The row of an affine form has values, and makes of a point what the form is there. -/
theorem row_values {form : Term} (hlimit : s.limits.maxExponentBits = 4096) (h : form.IsAffine)
    (hnames : ∀ name, form.Mentions name → name ∈ names) {build : Build (List Term × Term)}
    (hbuild : Coefficients.linear? s names form = some build) (ρ ρ' : String → ℝ) :
    RowHasValues (.real ρ') (build.value.1 ++ [.negation build.value.2]) ∧
      rowValue (.real ρ') (names.length + 1) (coordinate (names.map ρ))
        (build.value.1 ++ [.negation build.value.2]) = (Valuation.real ρ).value form := by
  obtain ⟨parts, hread, -⟩ := Option.map_eq_some_iff.1 hbuild
  obtain ⟨hcoefficients, hconstant⟩ := Coefficients.linear?_denotes
    (Reduction.drawsRoots_real hlimit ρ') hread hbuild (h.hasValue ρ')
  have hlength := Coefficients.length_linear? hbuild
  have hlast : (Valuation.real ρ').Denotes (.negation build.value.2)
      (-Coefficients.coefficientOf (.real ρ') parts none) :=
    ⟨by simpa [Valuation.HasValue] using hconstant.hasValue, by simp [Valuation.value, hconstant.value_eq]⟩
  constructor
  · intro t ht
    rcases List.mem_append.1 ht with ht | ht
    · obtain ⟨j, hj⟩ := List.getElem?_of_mem ht
      have hlt := (List.getElem?_eq_some_iff.1 hj).1
      obtain ⟨coefficient, hcoefficient, hdenotes⟩ := hcoefficients j (hlength ▸ hlt)
      obtain rfl : coefficient = t := Option.some.inj (hcoefficient.symm.trans hj)
      exact hdenotes.hasValue
    · rw [List.mem_singleton.1 ht]
      exact hlast.hasValue
  · have hentry : ∀ j ∈ Finset.range names.length,
        valueAt (.real ρ') (build.value.1 ++ [.negation build.value.2]) j *
          coordinate (names.map ρ) j =
        Coefficients.coefficientOf (.real ρ) parts (some j) *
          Coefficients.unknownValue (.real ρ) names (some j) := by
      intro j hj
      have hlt : j < names.length := Finset.mem_range.1 hj
      obtain ⟨coefficient, hcoefficient, hdenotes⟩ := hcoefficients j hlt
      have hget : (build.value.1 ++ [.negation build.value.2])[j]? = some coefficient := by
        rw [List.getElem?_append_left (by omega), hcoefficient]
      rw [valueAt_eq_of_getElem? hget, hdenotes.value_eq,
        Coefficients.coefficientOf_real hnames hread ρ ρ']
      simp [coordinate, Coefficients.unknownValue, Valuation.real, hlt]
    have hget : (build.value.1 ++ [.negation build.value.2])[names.length]? =
        some (.negation build.value.2) := by
      rw [List.getElem?_append_right (by omega), hlength, Nat.sub_self]
      rfl
    rw [rowValue, Finset.sum_range_succ, Finset.sum_congr rfl hentry, valueAt_eq_of_getElem? hget,
      hlast.value_eq, Coefficients.value_eq_of_parts hread,
      Coefficients.coefficientOf_real hnames hread ρ' ρ]
    simp [coordinate]

/-- Affine forms have an augmented matrix. -/
theorem exists_augmentedRows (s : Settings) (hforms : ∀ form ∈ forms, form.IsAffine)
    (hnames : ∀ form ∈ forms, ∀ name, form.Mentions name → name ∈ names) :
    ∃ rows, (augmentedRows s names forms).value = some rows := by
  induction forms with
  | nil => exact ⟨[], rfl⟩
  | cons form rest ih =>
    obtain ⟨hform, hrest⟩ := List.forall_mem_cons.1 hforms
    obtain ⟨hname, hothers⟩ := List.forall_mem_cons.1 hnames
    obtain ⟨build, hbuild⟩ := Coefficients.exists_linear?_of_isAffine s hform hname
    obtain ⟨rows, hrows⟩ := ih hrest hothers
    unfold augmentedRows
    rw [hbuild]
    simp [hrows]

/-- The rows of affine forms have values, and the forms are zero at a point just when it solves the
    rows. -/
theorem rows_values (hlimit : s.limits.maxExponentBits = 4096)
    (hforms : ∀ form ∈ forms, form.IsAffine)
    (hnames : ∀ form ∈ forms, ∀ name, form.Mentions name → name ∈ names)
    (hrows : (augmentedRows s names forms).value = some rows) (ρ ρ' : String → ℝ) :
    (∀ row ∈ rows, RowHasValues (.real ρ') row) ∧
      (Solves (.real ρ') (names.length + 1) rows (coordinate (names.map ρ)) ↔
        ∀ form ∈ forms, (Valuation.real ρ).value form = 0) := by
  induction forms generalizing rows with
  | nil =>
    obtain rfl : [] = rows := Option.some.inj hrows
    simp [Solves]
  | cons form rest ih =>
    obtain ⟨hform, hrest⟩ := List.forall_mem_cons.1 hforms
    obtain ⟨hname, hothers⟩ := List.forall_mem_cons.1 hnames
    unfold augmentedRows at hrows
    split at hrows
    case h_1 => exact absurd hrows (by simp)
    case h_2 build hbuild =>
      simp only [Build.value_bind, Build.value_pure] at hrows
      obtain ⟨others, hvalue, rfl⟩ := Option.map_eq_some_iff.1 hrows
      obtain ⟨hhas, hvalues⟩ := row_values hlimit hform hname hbuild ρ ρ'
      obtain ⟨hhas', hvalues'⟩ := ih hrest hothers hvalue
      refine ⟨List.forall_mem_cons.2 ⟨hhas, hhas'⟩, ?_⟩
      unfold Solves at hvalues' ⊢
      rw [List.forall_mem_cons, List.forall_mem_cons, ← hvalues', ← hvalues]
      rfl

end Linear

/-! ### Solutions -/

/-- The points at which the forms are zero. -/
def solutionSet (names : List String) (forms : List Term) : Set (List ℝ) :=
  {point | ∃ ρ : String → ℝ, names.map ρ = point ∧
    ∀ form ∈ forms, (Valuation.real ρ).value form = 0}

namespace Linear

variable {s : Settings} {names : List String} {forms : List Term} {rows : List (List Term)}

/-- The solutions are those of the rows. -/
theorem mem_solutionSet_iff (hlimit : s.limits.maxExponentBits = 4096) (hnodup : names.Nodup)
    (hforms : ∀ form ∈ forms, form.IsAffine)
    (hnames : ∀ form ∈ forms, ∀ name, form.Mentions name → name ∈ names)
    (hrows : (augmentedRows s names forms).value = some rows) (ρ : String → ℝ) {point : List ℝ} :
    point ∈ solutionSet names forms ↔ point.length = names.length ∧
      Solves (.real ρ) (names.length + 1) rows (coordinate point) := by
  constructor
  · rintro ⟨ρ', rfl, hzero⟩
    exact ⟨List.length_map _, (rows_values hlimit hforms hnames hrows ρ' ρ).2.2 hzero⟩
  · rintro ⟨hlength, hsolves⟩
    have hpoint : names.map (fun name => point.getD (names.idxOf name) 0) = point := by
      refine List.ext_getElem (by rw [List.length_map, hlength]) fun i hi hi' => ?_
      rw [List.getElem_map, hnodup.idxOf_getElem, List.getD_eq_getElem?_getD,
        List.getElem?_eq_getElem hi', Option.getD_some]
    refine ⟨_, hpoint, (rows_values hlimit hforms hnames hrows _ ρ).2.1 ?_⟩
    rwa [hpoint]

end Linear

end EquationSolver
