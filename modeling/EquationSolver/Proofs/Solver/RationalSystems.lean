import EquationSolver.Proofs.Matrix.Rationals
import EquationSolver.Proofs.Solver.Definitions
import EquationSolver.Proofs.Solver.Exact
import Mathlib.Data.Fin.Tuple.Basic

/-!
# Systems with rational coefficients

The forms of a linear system with rational coefficients hold its numbers: the augmented matrix that
is read off them is the matrix of the system with the constants as the last column, and elimination
on it takes the rank of the matrix.
-/

namespace EquationSolver

open Reduction (Settings DrawsRoots AgreeOn)
open SymbolicMatrix

/-! ### Rational forms -/

namespace Term.IsExactAffine

variable {s : Settings} {names : List String} {t : Term}

/-- The factors of a form are numbers and symbols. -/
theorem exact_or_symbol (h : t.IsExactAffine) {u f : Term} (hu : u ∈ Reduction.summands t)
    (hf : f ∈ Coefficients.factors u) : f.IsExact ∨ ∃ name, f = .symbol name := by
  cases hsymbol : f.containsSymbol with
  | false => exact .inl (h.exact u hu f hf hsymbol)
  | true =>
    have hmem : f ∈ (Coefficients.factors u).filter Term.containsSymbol :=
      List.mem_filter.2 ⟨hf, hsymbol⟩
    rcases h.isAffine.factors u hu with hnil | ⟨name, hone⟩
    · rw [hnil] at hmem
      exact absurd hmem List.not_mem_nil
    · rw [hone] at hmem
      exact .inr ⟨name, List.mem_singleton.1 hmem⟩

/-- So a form has a value at each rational point. -/
theorem hasValue_rational (h : t.IsExactAffine) (ρ : String → ℚ) :
    (Valuation.rational ρ).HasValue t := by
  have hfactor {u f : Term} (hu : u ∈ Reduction.summands t) (hf : f ∈ Coefficients.factors u) :
      (Valuation.rational ρ).HasValue f := by
    rcases h.exact_or_symbol hu hf with ⟨a, rfl⟩ | ⟨name, rfl⟩
    · exact Valuation.hasValue_number a
    · simp [Valuation.HasValue]
  have hsummand : ∀ u ∈ Reduction.summands t, (Valuation.rational ρ).HasValue u := by
    intro u hu
    cases u with
    | product items => exact Valuation.hasValue_product.2 ⟨fun f hf => hfactor hu hf, False.elim⟩
    | _ => exact hfactor hu (List.mem_singleton.2 rfl)
  cases t with
  | sum terms => exact Valuation.hasValue_sum.2 hsummand
  | _ => exact hsummand _ (List.mem_singleton.2 rfl)

/-- The coefficients that are read off a form are numbers, and the form is the affine function with
    these coefficients. -/
theorem exists_coefficients (h : t.IsExactAffine)
    (hnames : ∀ name, t.Mentions name → name ∈ names) {build : Build (List Term × Term)}
    (hbuild : Coefficients.linear? s names t = some build) :
    ∃ (a : Fin names.length → ℚ) (b : ℚ),
      build.value = (List.ofFn fun j => .number (a j), .number b) ∧
      ∀ ρ, (Valuation.rational ρ).value t = dotProduct a (fun j => ρ names[j]) + b := by
  obtain ⟨parts, hread, -⟩ := Option.map_eq_some_iff.1 hbuild
  obtain ⟨hnumbers, b, hb⟩ := Coefficients.isExact_linear? h hnames hbuild
  have hlength := Coefficients.length_linear? hbuild
  have hnumber (j : Fin names.length) : ∃ a : Rat, build.value.1[j.val]? = some (.number a) := by
    have hlt : j.val < build.value.1.length := j.isLt.trans_eq hlength.symm
    obtain ⟨a, ha⟩ := hnumbers build.value.1[j.val] (List.getElem_mem hlt)
    exact ⟨a, (List.getElem?_eq_getElem hlt).trans (congrArg some ha)⟩
  choose a ha using hnumber
  refine ⟨a, b, Prod.ext (List.ext_getElem? fun j => ?_) hb, fun ρ => ?_⟩
  · rcases Nat.lt_or_ge j names.length with hlt | hge
    · rw [ha ⟨j, hlt⟩]
      simp [hlt]
    · rw [List.getElem?_eq_none (hlength ▸ hge), List.getElem?_eq_none (by simpa using hge)]
  · obtain ⟨hcoefficients, hconstant⟩ := Coefficients.linear?_denotes
      (Reduction.drawsRoots_rational ρ s) hread hbuild (h.hasValue_rational ρ)
    rw [Coefficients.value_eq_of_parts hread, Finset.sum_range, dotProduct]
    refine congrArg₂ (· + ·) (Finset.sum_congr rfl fun j _ => ?_) ?_
    · obtain ⟨coefficient, hget, hdenotes⟩ := hcoefficients j j.isLt
      obtain rfl : Term.number (a j) = coefficient := Option.some.inj ((ha j).symm.trans hget)
      rw [← hdenotes.value_eq]
      simp [Coefficients.unknownValue, Valuation.rational]
    · rw [← hconstant.value_eq, hb]
      simp

end Term.IsExactAffine

/-! ### Matrices and constants -/

namespace Linear

section Augmented

variable {m n : Nat}

/-- The matrix with the constants in one more column. -/
def augmented (A : Matrix (Fin m) (Fin n) ℚ) (b : Fin m → ℚ) : Matrix (Fin m) (Fin (n + 1)) ℚ :=
  Matrix.of fun i => Fin.snoc (A i) (b i)

/-- It maps a point to zero that is minus one in that column, and before it a solution. -/
theorem mulVec_augmented (A : Matrix (Fin m) (Fin n) ℚ) (b : Fin m → ℚ) {w : Nat → ℚ}
    (hw : w n = -1) : (augmented A b).mulVec (fun j => w j) = 0 ↔ A.mulVec (fun j => w j) = b := by
  have hrow (i : Fin m) : (augmented A b).mulVec (fun j => w j) i =
      A.mulVec (fun j => w j) i - b i := by
    simp [Matrix.mulVec, dotProduct, augmented, Fin.sum_univ_castSucc, hw, sub_eq_add_neg]
  simp only [funext_iff, hrow, Pi.zero_apply, sub_eq_zero]

end Augmented

/-! ### The rows of a system -/

variable {s s' : Settings} {names : List String} {forms : List Term} {rows : List (List Term)}

/-- The rows of exact forms mention no symbols. -/
theorem mentionsNothing_augmentedRows (hforms : ∀ form ∈ forms, form.IsExactAffine)
    (hnames : ∀ form ∈ forms, ∀ name, form.Mentions name → name ∈ names)
    (hrows : (augmentedRows s names forms).value = some rows) :
    ∀ t ∈ terms rows, t.MentionsOnly fun _ => False := by
  intro t ht
  obtain ⟨row, hrow, ht⟩ := mem_terms_list.1 ht
  rw [terms_terms] at ht
  have hnumber (a : Rat) : (Term.number a).MentionsOnly fun _ => False :=
    fun name hname => Bool.noConfusion hname
  rcases isExact_augmentedRows hforms hnames hrows row hrow t ht with ⟨a, rfl⟩ | ⟨a, rfl⟩
  · exact hnumber a
  · exact Term.mentionsOnly_negation.2 (hnumber a)

/-- The row that is read off a form holds its coefficients and the opposite of its constant. -/
def IsRowOf (names : List String) (form : Term) (row : List Term) : Prop :=
  ∃ (a : Fin names.length → ℚ) (b : ℚ),
    row = List.ofFn (fun j => Term.number (a j)) ++ [.negation (.number b)] ∧
    ∀ ρ, (Valuation.rational ρ).value form = dotProduct a (fun j => ρ names[j]) + b

theorem forall₂_isRowOf (hforms : ∀ form ∈ forms, form.IsExactAffine)
    (hnames : ∀ form ∈ forms, ∀ name, form.Mentions name → name ∈ names)
    (hrows : (augmentedRows s names forms).value = some rows) :
    List.Forall₂ (IsRowOf names) forms rows := by
  induction forms generalizing rows with
  | nil =>
    obtain rfl : [] = rows := Option.some.inj hrows
    exact .nil
  | cons form rest ih =>
    obtain ⟨hform, hrest⟩ := List.forall_mem_cons.1 hforms
    obtain ⟨hname, hothers⟩ := List.forall_mem_cons.1 hnames
    unfold augmentedRows at hrows
    split at hrows
    case h_1 => exact absurd hrows (by simp)
    case h_2 build hbuild =>
      simp only [Build.value_bind, Build.value_pure] at hrows
      obtain ⟨others, hvalue, rfl⟩ := Option.map_eq_some_iff.1 hrows
      obtain ⟨a, b, hparts, hvalues⟩ := hform.exists_coefficients hname hbuild
      exact .cons ⟨a, b, by rw [hparts]; rfl, hvalues⟩ (ih hrest hothers hvalue)

/-- Reducing such a row leaves the coefficients and the constant. -/
theorem map_reduceKept_row {n : Nat} (a : Fin n → ℚ) (b : ℚ) :
    (List.ofFn (fun j => Term.number (a j)) ++ [Term.negation (.number b)]).map
        (fun t => (Reduction.reduceKept s t).value) =
      List.ofFn fun j => .number (Fin.snoc (α := fun _ => ℚ) a (-b) j) := by
  have hnegation : (Reduction.reduceKept s (.negation (.number b))).value = .number (-b) := by
    have hproduct := Reduction.mul_numbers s [-1, b]
    simp only [List.prod_cons, List.prod_nil, mul_one, neg_one_mul] at hproduct
    simpa [Reduction.reduceKept] using hproduct
  rw [List.map_append, List.map_singleton, hnegation, List.ofFn_succ_last]
  simp [Function.comp_def]

/-- The forms are the equations `A x = b` between the unknowns. -/
structure IsRationalSystem (names : List String) (forms : List Term)
    (A : Matrix (Fin forms.length) (Fin names.length) ℚ) (b : Fin forms.length → ℚ) : Prop where
  nodup : names.Nodup
  forms_ne_nil : forms ≠ []
  exact : ∀ form ∈ forms, form.IsExactAffine
  mentions : ∀ form ∈ forms, ∀ name, form.Mentions name → name ∈ names
  value_eq : ∀ ρ (i : Fin forms.length),
    (Valuation.rational ρ).value forms[i] = A.mulVec (fun j => ρ names[j]) i - b i

/-- Exact affine forms in the unknowns are such equations. -/
theorem exists_isRationalSystem (hnodup : names.Nodup) (hne : forms ≠ [])
    (hforms : ∀ form ∈ forms, form.IsExactAffine)
    (hnames : ∀ form ∈ forms, ∀ name, form.Mentions name → name ∈ names) :
    ∃ A b, IsRationalSystem names forms A b := by
  have hread (i : Fin forms.length) : ∃ (a : Fin names.length → ℚ) (b : ℚ), ∀ ρ,
      (Valuation.rational ρ).value forms[i] = dotProduct a (fun j => ρ names[j]) + b := by
    have hmem : forms[i] ∈ forms := List.getElem_mem i.isLt
    obtain ⟨build, hbuild⟩ := Coefficients.exists_linear?_of_isAffine {}
      (hforms _ hmem).isAffine (hnames _ hmem)
    obtain ⟨a, b, -, hvalues⟩ := (hforms _ hmem).exists_coefficients (hnames _ hmem) hbuild
    exact ⟨a, b, hvalues⟩
  choose a b hvalues using hread
  refine ⟨Matrix.of a, -b, hnodup, hne, hforms, hnames, fun ρ i => ?_⟩
  rw [hvalues, Pi.neg_apply, sub_neg_eq_add]
  rfl

namespace IsRationalSystem

variable {A : Matrix (Fin forms.length) (Fin names.length) ℚ} {b : Fin forms.length → ℚ}

/-- The coefficients and the constant of a form are those of the system. -/
theorem eq_of_value_eq (h : IsRationalSystem names forms A b) {i : Fin forms.length}
    {a : Fin names.length → ℚ} {c : ℚ}
    (hvalues : ∀ ρ, (Valuation.rational ρ).value forms[i] =
      dotProduct a (fun j => ρ names[j]) + c) : a = A i ∧ c = -b i := by
  have hpoint (x : Fin names.length → ℚ) : dotProduct a x + c = dotProduct (A i) x - b i := by
    have hx : (fun j : Fin names.length => Function.extend names.get x 0 names[j]) = x :=
      funext fun j => h.nodup.injective_get.extend_apply x 0 j
    have hvalue := (hvalues (Function.extend names.get x 0)).symm.trans (h.value_eq _ i)
    rwa [hx] at hvalue
  have hconstant : c = -b i := by simpa using hpoint 0
  refine ⟨dotProduct_eq _ _ fun x => ?_, hconstant⟩
  have hx := hpoint x
  rw [hconstant, ← sub_eq_add_neg] at hx
  exact sub_left_injective hx

/-- Reducing the rows leaves the matrix of the system with its constants. -/
theorem reduce_eq (h : IsRationalSystem names forms A b)
    (hrows : (augmentedRows s names forms).value = some rows) (s' : Settings) :
    (SymbolicMatrix.reduce s' [] ⟨rows, names.length + 1⟩).value =
      ofRationals (augmented A b) := by
  obtain ⟨hwidth, hlength⟩ := hasWidth_augmentedRows hrows
  refine congrArg (SymbolicMatrix.mk · (names.length + 1))
    ((rows_reduce_nil s' (m := ⟨rows, names.length + 1⟩) hwidth).trans ?_)
  refine List.ext_getElem (by simp [hlength]) fun i hi _ => ?_
  have hform : i < forms.length := by simpa [hlength] using hi
  obtain ⟨a, c, hrow, hvalues⟩ :=
    (forall₂_isRowOf h.exact h.mentions hrows).get hform (hlength.symm ▸ hform)
  obtain ⟨rfl, rfl⟩ := h.eq_of_value_eq (i := ⟨i, hform⟩) hvalues
  rw [List.getElem_map, List.getElem_ofFn]
  refine (congrArg (List.map fun t => (Reduction.reduceKept s' t).value) hrow).trans ?_
  rw [map_reduceKept_row, neg_neg]
  rfl

/-- So the rank of the rows is that of this matrix, whatever is defined. -/
theorem rank_eq (h : IsRationalSystem names forms A b)
    (hrows : (augmentedRows s names forms).value = some rows) (s' : Settings)
    (definitions : Definitions) :
    (SymbolicMatrix.rank s' definitions ⟨rows, names.length + 1⟩).value =
      ((ofRationals (augmented A b)).rank s' []).value := by
  have hagree : AgreeOn (fun _ => False) definitions [] := ⟨nofun, nofun⟩
  rw [SymbolicMatrix.rank_eq hagree fun t ht => Reduction.looksUp_of_mentionsOnly
    (mentionsNothing_augmentedRows h.exact h.mentions hrows t ht)]
  exact rank_congr ((h.reduce_eq hrows s').trans (reduce_ofRationals s' [] _).symm)

end IsRationalSystem

end Linear

end EquationSolver
