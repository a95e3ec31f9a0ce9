import EquationSolver.Proofs.Solver.Capacity
import EquationSolver.Proofs.Value.Power
import Mathlib.Algebra.BigOperators.Ring.Finset

/-!
# Affine functions and their coefficients

A term that is affine in the unknowns is the sum of the unknowns times their coefficients, and of
the constant.  A row of an augmented matrix holds these coefficients and the opposite of the
constant, so the equation that the term is zero is one between the row and the unknowns.
-/

namespace EquationSolver

open Reduction (Settings DrawsRoots)

variable {K : Type*} [Field K] {V : Valuation K} {s : Settings} {names : List String}

namespace Coefficients

/-! ### The terms of an affine function -/

/-- What an affine term is a multiple of. -/
def unknownValue (V : Valuation K) (names : List String) : Option Nat → K
  | none => 1
  | some i => V.symbol (names.getD i "")

namespace AffineTerm

/-- The product of the factors of the coefficient. -/
def coefficientValue (V : Valuation K) (t : AffineTerm) : K :=
  (t.coefficient.map V.value).prod

def value (V : Valuation K) (names : List String) (t : AffineTerm) : K :=
  t.coefficientValue V * unknownValue V names t.unknown

/-- What is taken into an affine term multiplies its value, and either becomes a factor of the
    coefficient, or is an unknown. -/
theorem addFactor_spec {t t' : AffineTerm} {factor : Term}
    (h : t.addFactor names factor = some t') :
    t'.value V names = t.value V names * V.value factor ∧
      (factor.dependsOn names = false ∧ t' = { t with coefficient := t.coefficient ++ [factor] } ∨
        ∃ i < names.length, t' = { t with unknown := some i }) := by
  unfold addFactor at h
  split at h
  case isTrue hconstant =>
    cases h
    refine ⟨?_, .inl ⟨by simpa using hconstant, rfl⟩⟩
    simp [value, coefficientValue, mul_right_comm]
  case isFalse hdepends =>
    split at h
    case h_1 name hunknown =>
      cases h
      have hmem : name ∈ names := by
        simpa [Term.dependsOn, Term.contains] using hdepends
      obtain ⟨i, hi⟩ := Option.isSome_iff_exists.1 (List.isSome_idxOf?.2 hmem)
      obtain ⟨hlt, hname, -⟩ := List.idxOf?_eq_some_iff.1 hi
      refine ⟨?_, .inr ⟨i, hlt, by rw [hi]⟩⟩
      simp [value, coefficientValue, unknownValue, hunknown, hi, hlt, hname, Valuation.value]
    case h_2 => cases h

end AffineTerm

/-- The parts of a term are read as affine terms: they have their values, and the factors of the
    coefficients are factors of the parts and depend on no unknown. -/
structure IsAffineTerm (V : Valuation K) (names : List String) (t : Term) (part : AffineTerm) :
    Prop where
  value_eq : part.value V names = V.value t
  mem_factors : ∀ f ∈ part.coefficient, f ∈ factors t ∧ f.dependsOn names = false
  unknown_lt : ∀ i, part.unknown = some i → i < names.length

theorem foldlM_addFactor_spec {fs : List Term} {t t' : AffineTerm}
    (h : fs.foldlM (AffineTerm.addFactor names) t = some t') :
    t'.value V names = t.value V names * (fs.map V.value).prod ∧
      ∀ f ∈ t'.coefficient, f ∈ t.coefficient ∨ f ∈ fs ∧ f.dependsOn names = false := by
  induction fs generalizing t with
  | nil =>
    cases h
    exact ⟨by simp, fun f hf => .inl hf⟩
  | cons factor rest ih =>
    rw [List.foldlM_cons] at h
    obtain ⟨next, hnext, hrest⟩ := Option.bind_eq_some_iff.1 h
    obtain ⟨hvalue, hcoefficient⟩ := ih hrest
    obtain ⟨hvalue', hkind⟩ := AffineTerm.addFactor_spec (V := V) hnext
    refine ⟨by rw [hvalue, hvalue', List.map_cons, List.prod_cons, mul_assoc], fun f hf => ?_⟩
    rcases hcoefficient f hf with hold | ⟨hmem, hconstant⟩
    · rcases hkind with ⟨hconstant, rfl⟩ | ⟨i, -, rfl⟩
      · rcases List.mem_append.1 hold with hold | hnew
        · exact .inl hold
        · rw [List.mem_singleton.1 hnew]
          exact .inr ⟨List.mem_cons_self, hconstant⟩
      · exact .inl hold
    · exact .inr ⟨List.mem_cons_of_mem _ hmem, hconstant⟩

theorem prod_factors (V : Valuation K) (t : Term) :
    ((factors t).map V.value).prod = V.value t := by
  cases t <;> simp [factors]

theorem isAffineTerm_of_affineTerm? (V : Valuation K) {t : Term} {part : AffineTerm}
    (h : affineTerm? names t = some part) : IsAffineTerm V names t part := by
  obtain ⟨hvalue, hcoefficient⟩ := foldlM_addFactor_spec (V := V) h
  refine ⟨?_, fun f hf => ?_, fun i hi => unknown_lt_of_affineTerm? h hi⟩
  · rw [hvalue, prod_factors]
    simp [AffineTerm.value, AffineTerm.coefficientValue, unknownValue]
  · exact (hcoefficient f hf).resolve_left List.not_mem_nil

/-! ### Coefficients -/

/-- The sum of the coefficients of the terms that are multiples of an unknown, or of none. -/
def coefficientOf (V : Valuation K) (parts : List AffineTerm) (unknown : Option Nat) : K :=
  ((parts.filter fun part => part.unknown = unknown).map (AffineTerm.coefficientValue V)).sum

/-- The sum of the terms, put together by unknowns. -/
theorem sum_coefficientOf {parts : List AffineTerm} {count : Nat}
    (h : ∀ part ∈ parts, ∀ i, part.unknown = some i → i < count) :
    ∑ j ∈ Finset.range count, coefficientOf V parts (some j) * unknownValue V names (some j) +
        coefficientOf V parts none =
      (parts.map (AffineTerm.value V names)).sum := by
  induction parts with
  | nil => simp [coefficientOf]
  | cons part rest ih =>
    obtain ⟨hpart, hrest⟩ := List.forall_mem_cons.1 h
    have hcons (unknown : Option Nat) : coefficientOf V (part :: rest) unknown =
        (if part.unknown = unknown then part.coefficientValue V else 0) +
          coefficientOf V rest unknown := by
      unfold coefficientOf
      rw [List.filter_cons]
      by_cases hunknown : part.unknown = unknown <;> simp [hunknown]
    have hsum : ∑ j ∈ Finset.range count, (if part.unknown = some j then
          part.coefficientValue V else 0) * unknownValue V names (some j) +
        (if part.unknown = none then part.coefficientValue V else 0) = part.value V names := by
      cases hunknown : part.unknown with
      | none => simp [AffineTerm.value, hunknown, unknownValue]
      | some i =>
        simp [AffineTerm.value, hunknown, hpart i hunknown]
    rw [List.map_cons, List.sum_cons, ← ih hrest, ← hsum]
    simp only [hcons, add_mul, Finset.sum_add_distrib]
    ring

/-- Selected products add up to the sum of the products of the selected factors. -/
theorem sumSelected_multiplyEach_denotes [CharZero K] (hroots : DrawsRoots V s) {α : Type}
    [DecidableEq α] {parts : List (α × List Term)}
    (hparts : ∀ part ∈ parts, ∀ f ∈ part.2, V.HasValue f) (key : α) :
    V.Denotes (sumSelected (fun v => v = key) (multiplyEach s parts).value).value
      ((parts.filter fun part => part.1 = key).map fun part => (part.2.map V.value).prod).sum := by
  have hproduct : ∀ part ∈ parts,
      V.Denotes (Reduction.mul s part.2).value (part.2.map V.value).prod :=
    fun part hpart => Valuation.mul_denotes hroots (hparts part hpart)
  have hselected : ((multiplyEach s parts).value.filter fun product => product.1 = key).map
      Prod.snd = (parts.filter fun part => part.1 = key).map fun part =>
        (Reduction.mul s part.2).value := by
    simp [multiplyEach, List.filter_map, Function.comp_def]
  unfold sumSelected
  rw [hselected]
  refine (Valuation.add_denotes ?_).congr ?_
  · intro t ht
    obtain ⟨part, hpart, rfl⟩ := List.mem_map.1 ht
    exact (hproduct part (List.mem_of_mem_filter hpart)).hasValue
  · rw [List.map_map]
    exact congrArg List.sum (List.map_congr_left fun part hpart =>
      (hproduct part (List.mem_of_mem_filter hpart)).value_eq)

/-- Selected products add up to the coefficient. -/
theorem sumSelected_denotes [CharZero K] (hroots : DrawsRoots V s) {parts : List AffineTerm}
    (hparts : ∀ part ∈ parts, ∀ f ∈ part.coefficient, V.HasValue f) (unknown : Option Nat) :
    V.Denotes (sumSelected (fun v => v = unknown) (multiplyEach s
        (parts.map fun part => (part.unknown, part.coefficient))).value).value
      (coefficientOf V parts unknown) := by
  refine (sumSelected_multiplyEach_denotes hroots (List.forall_mem_map.2 hparts) unknown).congr ?_
  rw [List.filter_map, List.map_map]
  rfl

theorem hasValue_of_mem_factors {t f : Term} (ht : V.HasValue t) (hf : f ∈ factors t) :
    V.HasValue f := by
  cases t with
  | product items => exact (Valuation.hasValue_product.1 ht).1 f hf
  | _ =>
    rw [List.mem_singleton.1 hf]
    exact ht

/-- Where a sum has a value, so have the factors of its terms that are taken into coefficients. -/
theorem hasValue_of_mem_coefficient {τ : Type} {read : Term → Option τ}
    {coefficient : τ → List Term} (hsubset : ∀ u part, read u = some part →
      ∀ f ∈ coefficient part, f ∈ factors u) {t : Term} {parts : List τ}
    (hread : (Reduction.summands t).mapM read = some parts) (ht : V.HasValue t) :
    ∀ part ∈ parts, ∀ f ∈ coefficient part, V.HasValue f := by
  intro part hpart f hf
  obtain ⟨u, hu, hsome⟩ := exists_of_mem_forall₂ (forall₂_of_mapM hread) hpart
  exact hasValue_of_mem_factors (Reduction.hasValue_of_mem_summands (R := V.reading) ht hu)
    (hsubset u part hsome f hf)

/-- A sum whose terms are read with their values is the sum of what has been read. -/
theorem value_eq_sum {τ : Type} {value : τ → K} {t : Term} {parts : List τ}
    (h : List.Forall₂ (fun u part => V.value u = value part) (Reduction.summands t) parts) :
    V.value t = (parts.map value).sum := by
  have hvalues : (Reduction.summands t).map V.value = parts.map value :=
    List.forall₂_eq_eq_eq ▸ List.forall₂_map_left_iff.2 (List.forall₂_map_right_iff.2 h)
  rw [← hvalues]
  exact (Reduction.sum_summands (R := V.reading) t).symm

/-- The coefficients are the sums of those of the terms. -/
theorem linear?_denotes [CharZero K] (hroots : DrawsRoots V s) {t : Term}
    {parts : List AffineTerm} (hread : (Reduction.summands t).mapM (affineTerm? names) = some parts)
    {build : Build (List Term × Term)} (h : linear? s names t = some build) (ht : V.HasValue t) :
    (∀ j < names.length, ∃ coefficient, build.value.1[j]? = some coefficient ∧
      V.Denotes coefficient (coefficientOf V parts (some j))) ∧
    V.Denotes build.value.2 (coefficientOf V parts none) := by
  unfold linear? at h
  obtain ⟨parts', hread', rfl⟩ := Option.map_eq_some_iff.1 h
  obtain rfl : parts = parts' := Option.some.inj (hread.symm.trans hread')
  have hparts : ∀ part ∈ parts, ∀ f ∈ part.coefficient, V.HasValue f :=
    hasValue_of_mem_coefficient (fun u part hu f hf =>
      ((isAffineTerm_of_affineTerm? V hu).mem_factors f hf).1) hread ht
  refine ⟨fun j hj => ?_, by simpa using sumSelected_denotes hroots hparts none⟩
  refine ⟨_, ?_, sumSelected_denotes hroots hparts (some j)⟩
  simp [hj]

/-- An affine term is the sum of the unknowns times their coefficients and of the constant. -/
theorem value_eq_of_parts {t : Term} {parts : List AffineTerm}
    (hread : (Reduction.summands t).mapM (affineTerm? names) = some parts) :
    V.value t = ∑ j ∈ Finset.range names.length,
      coefficientOf V parts (some j) * unknownValue V names (some j) +
        coefficientOf V parts none := by
  have hall := forall₂_of_mapM hread
  have hequal : List.Forall₂ (fun u part => V.value u = AffineTerm.value V names part)
      (Reduction.summands t) parts :=
    hall.imp fun _ _ hpart => (isAffineTerm_of_affineTerm? V hpart).value_eq.symm
  rw [sum_coefficientOf, value_eq_sum hequal]
  intro part hpart
  obtain ⟨u, -, hu⟩ := exists_of_mem_forall₂ hall hpart
  exact (isAffineTerm_of_affineTerm? V hu).unknown_lt

end Coefficients

end EquationSolver
