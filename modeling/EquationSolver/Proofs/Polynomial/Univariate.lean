import EquationSolver.Proofs.Polynomial.Linear
import Mathlib.Data.List.GetD
import Mathlib.Data.List.TakeWhile

/-!
# Polynomial coefficients are exact

A term of a polynomial in a variable is a coefficient, in which the variable does not occur, times
a power of the variable.  Collected by their exponents, the coefficients of the terms are those of
the polynomial that the whole term is, wherever it has a value.

The exponents of the variable in a term are added as machine words.  Where this sum wraps around,
the term is taken for one of a far lower degree, so that the value is wrong.
-/

namespace EquationSolver

open Reduction (Settings)

namespace Coefficients

variable {K : Type*} [Field K] {V : Valuation K} {s : Settings} {name : String} {t u f : Term}
  {fs : List Term}

/-! ### Powers of the variable -/

/-- The exponent of the variable in a term: those of its factors together. -/
def exponentIn (name : String) (u : Term) : Nat :=
  ((factors u).filterMap (variablePower? name)).sum

theorem value_of_variablePower? {n : Nat} (h : variablePower? name f = some n) :
    V.value f = V.symbol name ^ n := by
  unfold variablePower? at h
  split at h
  case h_1 other =>
    obtain ⟨rfl, hn⟩ := Option.ite_none_right_eq_some.1 h
    obtain rfl := Option.some.inj hn
    rw [pow_one, Valuation.value]
  case h_2 other e =>
    obtain ⟨rfl, hn⟩ := Option.ite_none_right_eq_some.1 h
    obtain ⟨m, hm, hn⟩ := Option.bind_eq_some_iff.1 hn
    obtain ⟨hpos, hn⟩ := Option.ite_none_right_eq_some.1 hn
    obtain rfl := Option.some.inj hn
    rw [Rational.eq_intCast_of_toInt64Range? hm, Valuation.value_power, Valuation.value,
      V.power_intCast, ← zpow_natCast, Int.toNat_of_nonneg hpos.le]
  case h_3 => cases h

/-- A power of the variable depends on it. -/
theorem variablePower?_of_constant (h : f.dependsOn [name] = false) :
    variablePower? name f = none := by
  cases hpower : variablePower? name f with
  | none => rfl
  | some n =>
    unfold variablePower? at hpower
    split at hpower
    case h_1 other =>
      obtain ⟨rfl, -⟩ := Option.ite_none_right_eq_some.1 hpower
      simp [Term.dependsOn, Term.contains] at h
    case h_2 other e =>
      obtain ⟨rfl, -⟩ := Option.ite_none_right_eq_some.1 hpower
      simp [Term.dependsOn, Term.contains] at h
    case h_3 => cases hpower

/-! ### Terms of a polynomial -/

namespace PolynomialTerm

/-- The product of the factors of the coefficient. -/
def coefficientValue (V : Valuation K) (part : PolynomialTerm) : K :=
  (part.coefficient.map V.value).prod

/-- A factor becomes one of the coefficient, or raises the degree. -/
theorem addFactor_cases {part part' : PolynomialTerm} (h : part.addFactor name f = some part') :
    (f.dependsOn [name] = false ∧ part' = { part with coefficient := part.coefficient ++ [f] }) ∨
      ∃ n, variablePower? name f = some n ∧
        part' = { part with degree := (part.degree + n) % Integer.wordCount } := by
  unfold addFactor at h
  split at h
  case isTrue hconstant => exact .inl ⟨by simpa using hconstant, (Option.some.inj h).symm⟩
  case isFalse =>
    obtain ⟨n, hn, rfl⟩ := Option.map_eq_some_iff.1 h
    exact .inr ⟨n, hn, rfl⟩

end PolynomialTerm

/-- What has been taken into a term of a polynomial: the degree is the sum of the exponents, as a
    machine word, and the product of the factors is the coefficient times the power of the
    variable. -/
structure TakesIn (V : Valuation K) (name : String) (fs : List Term)
    (part part' : PolynomialTerm) : Prop where
  degree_eq : part'.degree % Integer.wordCount =
    (part.degree + (fs.filterMap (variablePower? name)).sum) % Integer.wordCount
  degree_lt : part.degree < Integer.wordCount → part'.degree < Integer.wordCount
  value_eq : part'.coefficientValue V * V.symbol name ^ (fs.filterMap (variablePower? name)).sum =
    part.coefficientValue V * (fs.map V.value).prod
  constant : ∀ c ∈ part'.coefficient, c ∈ part.coefficient ∨ c ∈ fs ∧ c.dependsOn [name] = false

theorem takesIn_of_foldlM (V : Valuation K) {part part' : PolynomialTerm}
    (h : fs.foldlM (PolynomialTerm.addFactor name) part = some part') :
    TakesIn V name fs part part' := by
  induction fs generalizing part with
  | nil =>
    cases h
    exact ⟨by simp, id, by simp, fun c hc => .inl hc⟩
  | cons f rest ih =>
    rw [List.foldlM_cons] at h
    obtain ⟨next, hnext, hrest⟩ := Option.bind_eq_some_iff.1 h
    obtain ⟨hdegree, hlt, hvalue, hconstant⟩ := ih hrest
    have hword : 0 < Integer.wordCount := by decide
    rcases PolynomialTerm.addFactor_cases hnext with ⟨hf, rfl⟩ | ⟨n, hn, rfl⟩
    · have hexponents : (f :: rest).filterMap (variablePower? name) =
          rest.filterMap (variablePower? name) :=
        List.filterMap_cons_none (variablePower?_of_constant hf)
      refine ⟨hexponents ▸ hdegree, hlt, ?_, fun c hc => ?_⟩
      · rw [hexponents, hvalue]
        simp [PolynomialTerm.coefficientValue, mul_assoc]
      · rcases hconstant c hc with hold | ⟨hmem, hc⟩
        · rcases List.mem_append.1 hold with hold | hnew
          · exact .inl hold
          · rw [List.mem_singleton.1 hnew]
            exact .inr ⟨List.mem_cons_self, hf⟩
        · exact .inr ⟨List.mem_cons_of_mem f hmem, hc⟩
    · have hexponents : (f :: rest).filterMap (variablePower? name) =
          n :: rest.filterMap (variablePower? name) :=
        List.filterMap_cons_some hn
      refine ⟨?_, fun _ => hlt (Nat.mod_lt _ hword), ?_, fun c hc => ?_⟩
      · rw [hexponents, hdegree, List.sum_cons, Nat.mod_add_mod, Nat.add_assoc]
      · rw [hexponents, List.sum_cons, pow_add, mul_left_comm, hvalue, List.map_cons,
          List.prod_cons, value_of_variablePower? hn]
        exact mul_left_comm _ _ _
      · exact (hconstant c hc).imp_right fun h => ⟨List.mem_cons_of_mem f h.1, h.2⟩

/-- What is read off a term of a polynomial: its coefficient, in which the variable does not occur,
    and its degree, which is the exponent of the variable as a machine word. -/
structure IsPolynomialTerm (V : Valuation K) (name : String) (u : Term) (part : PolynomialTerm) :
    Prop where
  degree_eq : part.degree = exponentIn name u % Integer.wordCount
  degree_le : part.degree ≤ maxDegree
  value_eq : part.coefficientValue V * V.symbol name ^ exponentIn name u = V.value u
  mem_factors : ∀ c ∈ part.coefficient, c ∈ factors u ∧ c.dependsOn [name] = false

theorem isPolynomialTerm_of_polynomialTerm? (V : Valuation K) {part : PolynomialTerm}
    (h : polynomialTerm? name u = some part) : IsPolynomialTerm V name u part := by
  obtain ⟨hread, hle⟩ := Option.filter_eq_some_iff.1 h
  obtain ⟨hdegree, hlt, hvalue, hconstant⟩ := takesIn_of_foldlM V hread
  have hlt := hlt (by decide)
  refine ⟨?_, by simpa using hle, ?_, fun c hc => (hconstant c hc).resolve_left List.not_mem_nil⟩
  · rw [Nat.mod_eq_of_lt hlt, Nat.zero_add] at hdegree
    exact hdegree
  · rw [exponentIn, hvalue, prod_factors]
    simp [PolynomialTerm.coefficientValue]

/-! ### Degrees -/

theorem foldl_max_le_iff {degrees : List Nat} {start bound : Nat} :
    degrees.foldl max start ≤ bound ↔ start ≤ bound ∧ ∀ d ∈ degrees, d ≤ bound := by
  induction degrees generalizing start with
  | nil => simp
  | cons d rest ih => rw [List.foldl_cons, ih, max_le_iff, List.forall_mem_cons, and_assoc]

/-- The degree up to which coefficients are collected. -/
def topDegree (parts : List PolynomialTerm) : Nat :=
  (parts.map PolynomialTerm.degree).foldl max 0

theorem topDegree_le_iff {parts : List PolynomialTerm} {bound : Nat} :
    topDegree parts ≤ bound ↔ ∀ part ∈ parts, part.degree ≤ bound := by
  rw [topDegree, foldl_max_le_iff]
  simp

theorem degree_le_topDegree {parts : List PolynomialTerm} {part : PolynomialTerm}
    (h : part ∈ parts) : part.degree ≤ topDegree parts :=
  topDegree_le_iff.1 (Nat.le_refl _) part h

/-! ### Coefficients -/

/-- The coefficients before those known to be null are dropped. -/
def collectedCoefficients (s : Settings) (parts : List PolynomialTerm) : List Term :=
  (List.range (topDegree parts + 1)).map fun degree =>
    (sumSelected (fun d => d = degree) (multiplyEach s
      (parts.map fun part => (part.degree, part.coefficient))).value).value

section Coefficients

variable {build : Build (List Term)} {parts : List PolynomialTerm}

@[simp] theorem length_collectedCoefficients (s : Settings) (parts : List PolynomialTerm) :
    (collectedCoefficients s parts).length = topDegree parts + 1 := by
  simp [collectedCoefficients]

theorem collectedCoefficients_ne_nil : collectedCoefficients s parts ≠ [] :=
  List.ne_nil_of_length_eq_add_one (length_collectedCoefficients s parts)

theorem polynomial?_value (hread : (Reduction.summands t).mapM (polynomialTerm? name) = some parts)
    (h : polynomial? s name t = some build) :
    build.value = trimLeading s (collectedCoefficients s parts) := by
  unfold polynomial? at h
  rw [hread, Option.map_some] at h
  obtain rfl := Option.some.inj h
  simp [collectedCoefficients, topDegree]

/-- Only coefficients known to be null are dropped, and none is left at the end. -/
theorem trimLeading_spec (s : Settings) {coefficients : List Term} (h : coefficients ≠ []) :
    ∃ dropped, coefficients = trimLeading s coefficients ++ dropped ∧
      (∀ c ∈ dropped, c.nullity s = .yes) ∧
      (1 < (trimLeading s coefficients).length →
        ∀ c, (trimLeading s coefficients).getLast? = some c → c.nullity s ≠ .yes) := by
  match coefficients, h with
  | constant :: others, _ =>
    let null := fun c : Term => decide (c.nullity s = .yes)
    refine ⟨(others.reverse.takeWhile null).reverse, ?_, fun c hc => ?_,
      fun hlength c hc hnull => ?_⟩
    · have hsplit : others =
          (others.reverse.dropWhile null).reverse ++ (others.reverse.takeWhile null).reverse := by
        rw [← List.reverse_append, List.takeWhile_append_dropWhile, List.reverse_reverse]
      exact congrArg (constant :: ·) hsplit
    · have hnull : null c = true := List.mem_takeWhile_imp (List.mem_reverse.1 hc)
      exact of_decide_eq_true hnull
    · -- the last coefficient is the first that was not dropped
      have hkept := List.head?_dropWhile_not null others.reverse
      rw [trimLeading] at hc hlength
      change (constant :: (others.reverse.dropWhile null).reverse).getLast? = some c at hc
      change 1 < (constant :: (others.reverse.dropWhile null).reverse).length at hlength
      cases hrest : others.reverse.dropWhile null with
      | nil =>
        rw [hrest] at hlength
        exact absurd hlength (by simp)
      | cons d ds =>
        rw [hrest] at hc hkept
        simp only [List.reverse_cons, ← List.cons_append, List.getLast?_concat,
          Option.some.injEq] at hc
        subst hc
        simp [null, hnull] at hkept

/-! ### Values -/

/-- Coefficients at a point: the polynomial that they are the coefficients of. -/
def valueAt (V : Valuation K) (name : String) (coefficients : List Term) : K :=
  ∑ k ∈ Finset.range coefficients.length,
    V.value (coefficients.getD k .zero) * V.symbol name ^ k

theorem valueAt_append_of_zero {coefficients dropped : List Term}
    (h : ∀ c ∈ dropped, V.value c = 0) :
    valueAt V name (coefficients ++ dropped) = valueAt V name coefficients := by
  unfold valueAt
  rw [List.length_append, Finset.sum_range_add]
  have hkept : ∀ k ∈ Finset.range coefficients.length,
      V.value ((coefficients ++ dropped).getD k .zero) * V.symbol name ^ k =
        V.value (coefficients.getD k .zero) * V.symbol name ^ k := by
    intro k hk
    rw [List.getD_append _ _ _ _ (Finset.mem_range.1 hk)]
  have hdropped : ∀ k ∈ Finset.range dropped.length,
      V.value ((coefficients ++ dropped).getD (coefficients.length + k) .zero) *
        V.symbol name ^ (coefficients.length + k) = 0 := by
    intro k hk
    have hk := Finset.mem_range.1 hk
    rw [List.getD_append_right _ _ _ _ (Nat.le_add_right _ _), Nat.add_sub_cancel_left,
      List.getD_eq_getElem _ _ hk, h _ (List.getElem_mem hk), zero_mul]
  rw [Finset.sum_congr rfl hkept, Finset.sum_eq_zero hdropped, add_zero]

/-- A null coefficient that has a value is the number zero. -/
theorem value_of_nullity {c : Term} (h : c.nullity s = .yes) (hc : V.HasValue c) :
    V.value c = 0 := by
  have hnumeric := Term.isNumeric_of_nullity h
  cases c with
  | number a => rw [Term.nullity_number_eq_yes_iff.1 h, Valuation.value_number, Rat.cast_zero]
  | decimal bits => simp [Valuation.HasValue] at hc
  | _ => cases hnumeric

/-- The sum of the coefficients of the terms of a degree. -/
def coefficientOfDegree (V : Valuation K) (parts : List PolynomialTerm) (degree : Nat) : K :=
  ((parts.filter fun part => part.degree = degree).map (PolynomialTerm.coefficientValue V)).sum

/-- The sum of the terms, put together by degrees. -/
theorem sum_coefficientOfDegree (x : K) {bound : Nat} (h : ∀ part ∈ parts, part.degree < bound) :
    ∑ k ∈ Finset.range bound, coefficientOfDegree V parts k * x ^ k =
      (parts.map fun part => part.coefficientValue V * x ^ part.degree).sum := by
  induction parts with
  | nil => simp [coefficientOfDegree]
  | cons part rest ih =>
    obtain ⟨hpart, hrest⟩ := List.forall_mem_cons.1 h
    have hcons (k : Nat) : coefficientOfDegree V (part :: rest) k =
        (if part.degree = k then part.coefficientValue V else 0) +
          coefficientOfDegree V rest k := by
      unfold coefficientOfDegree
      rw [List.filter_cons]
      by_cases hdegree : part.degree = k <;> simp [hdegree]
    rw [List.map_cons, List.sum_cons, ← ih hrest]
    simp only [hcons, add_mul, Finset.sum_add_distrib, ite_mul, zero_mul]
    rw [Finset.sum_ite_eq, if_pos (Finset.mem_range.2 hpart)]

/-- Collected coefficients have the sums of those of the terms as their values. -/
theorem collectedCoefficients_denote [CharZero K] (hroots : Reduction.DrawsRoots V s)
    (hread : (Reduction.summands t).mapM (polynomialTerm? name) = some parts) (ht : V.HasValue t) :
    List.Forall₂ V.Denotes (collectedCoefficients s parts)
      ((List.range (topDegree parts + 1)).map (coefficientOfDegree V parts)) := by
  have hparts : ∀ part ∈ parts, ∀ f ∈ part.coefficient, V.HasValue f :=
    hasValue_of_mem_coefficient (fun u part hu f hf =>
      ((isPolynomialTerm_of_polynomialTerm? V hu).mem_factors f hf).1) hread ht
  rw [collectedCoefficients, List.forall₂_map_left_iff, List.forall₂_map_right_iff]
  refine List.forall₂_same.2 fun degree _ => ?_
  refine (sumSelected_multiplyEach_denotes hroots (List.forall_mem_map.2 hparts) degree).congr ?_
  rw [List.filter_map, List.map_map]
  rfl

/-- A polynomial is the sum of its coefficients times the powers of the variable, unless an
    exponent in one of its terms is beyond the range of machine words. -/
theorem value_eq_of_polynomialTerms
    (hread : (Reduction.summands t).mapM (polynomialTerm? name) = some parts)
    (hexponents : ∀ u ∈ Reduction.summands t, exponentIn name u < Integer.wordCount) :
    V.value t = ∑ k ∈ Finset.range (topDegree parts + 1),
      coefficientOfDegree V parts k * V.symbol name ^ k := by
  have hall : List.Forall₂ (fun u part => V.value u =
      part.coefficientValue V * V.symbol name ^ part.degree) (Reduction.summands t) parts := by
    refine List.forall₂_iff_get.2 ⟨(forall₂_of_mapM hread).length_eq, fun i hi hi' => ?_⟩
    have hu := List.forall₂_iff_get.1 (forall₂_of_mapM hread) |>.2 i hi hi'
    have hterm := isPolynomialTerm_of_polynomialTerm? V hu
    rw [hterm.degree_eq, Nat.mod_eq_of_lt (hexponents _ (List.get_mem _ _)), hterm.value_eq]
  rw [sum_coefficientOfDegree _ fun part hpart => Nat.lt_succ_of_le (degree_le_topDegree hpart),
    value_eq_sum hall]

theorem forall₂_denotes_getD {coefficients : List Term} {values : List K}
    (h : List.Forall₂ V.Denotes coefficients values) {k : Nat} (hk : k < coefficients.length) :
    V.Denotes (coefficients.getD k .zero) (values.getD k 0) := by
  have hk' : k < values.length := h.length_eq ▸ hk
  rw [List.getD_eq_getElem _ _ hk, List.getD_eq_getElem _ _ hk']
  exact (List.forall₂_iff_get.1 h).2 k hk hk'

/-- Wherever the term has a value, so have its coefficients, and unless an exponent is beyond the
    range of machine words, it is the polynomial that they are the coefficients of. -/
theorem value_of_polynomial? [CharZero K] (hroots : Reduction.DrawsRoots V s)
    (h : polynomial? s name t = some build) (ht : V.HasValue t) :
    (∀ c ∈ build.value, V.HasValue c) ∧
      ((∀ u ∈ Reduction.summands t, exponentIn name u < Integer.wordCount) →
        V.value t = valueAt V name build.value) := by
  obtain ⟨parts, hread, -⟩ := Option.map_eq_some_iff.1 h
  have hdenote := collectedCoefficients_denote hroots hread ht
  have hvalues : ∀ c ∈ collectedCoefficients s parts, V.HasValue c := by
    intro c hc
    obtain ⟨k, hk, rfl⟩ := List.mem_iff_getElem.1 hc
    have hdenotes := forall₂_denotes_getD hdenote hk
    rw [List.getD_eq_getElem _ _ hk] at hdenotes
    exact hdenotes.hasValue
  obtain ⟨dropped, hsplit, hnull, -⟩ := trimLeading_spec s collectedCoefficients_ne_nil
  rw [← polynomial?_value hread h] at hsplit
  rw [hsplit] at hvalues
  refine ⟨fun c hc => hvalues c (List.mem_append_left _ hc), fun hexponents => ?_⟩
  have hzero : ∀ c ∈ dropped, V.value c = 0 := fun c hc =>
    value_of_nullity (hnull c hc) (hvalues c (List.mem_append_right _ hc))
  rw [value_eq_of_polynomialTerms hread hexponents, ← valueAt_append_of_zero hzero, ← hsplit,
    valueAt, length_collectedCoefficients]
  refine Finset.sum_congr rfl fun k hk => ?_
  have hk := Finset.mem_range.1 hk
  have hdenotes := forall₂_denotes_getD hdenote (length_collectedCoefficients s parts ▸ hk)
  rw [hdenotes.value_eq, List.getD_eq_getElem _ _ (by simpa using hk)]
  simp

/-! ### The shape of the coefficients -/

/-- The variable does not occur in the coefficients. -/
theorem not_mentions_of_polynomial? (h : polynomial? s name t = some build) :
    ∀ c ∈ build.value, ¬ c.Mentions name := by
  obtain ⟨parts, hread, -⟩ := Option.map_eq_some_iff.1 h
  have hfactors : ∀ f ∈ parts.flatMap PolynomialTerm.coefficient,
      f.MentionsOnly fun other => other ∉ [name] :=
    mentionsOnly_coefficients (fun u part hu f hf =>
      ((isPolynomialTerm_of_polynomialTerm? (.real fun _ => 0) hu).mem_factors f hf).2) hread
  have honly := (startsFrom_polynomialTerms hread h).mentionsOnly (addsNoSymbol_polynomial? h)
    hfactors
  exact fun c hc hmentions => honly c (by simpa using hc) name hmentions (List.mem_singleton_self _)

/-- There is at least one coefficient, and at most one more than the largest degree. -/
theorem length_of_polynomial? (h : polynomial? s name t = some build) :
    build.value ≠ [] ∧ build.value.length ≤ maxDegree + 1 := by
  obtain ⟨parts, hread, -⟩ := Option.map_eq_some_iff.1 h
  have htop : topDegree parts ≤ maxDegree := by
    refine topDegree_le_iff.2 fun part hpart => ?_
    obtain ⟨u, -, hu⟩ := exists_of_mem_forall₂ (forall₂_of_mapM hread) hpart
    exact (isPolynomialTerm_of_polynomialTerm? (.real fun _ => 0) hu).degree_le
  obtain ⟨dropped, hsplit, -⟩ := trimLeading_spec s collectedCoefficients_ne_nil
  have hsplit := congrArg List.length hsplit
  rw [← polynomial?_value hread h, length_collectedCoefficients, List.length_append] at hsplit
  exact ⟨ne_nil_of_polynomial? h, by omega⟩

/-- The leading coefficient is not known to be null, unless it is the only one. -/
theorem leading_of_polynomial? (h : polynomial? s name t = some build)
    (hlength : 1 < build.value.length) {c : Term} (hc : build.value.getLast? = some c) :
    c.nullity s ≠ .yes := by
  obtain ⟨parts, hread, -⟩ := Option.map_eq_some_iff.1 h
  obtain ⟨-, -, -, hleading⟩ := trimLeading_spec s collectedCoefficients_ne_nil
  rw [polynomial?_value hread h] at hlength hc
  exact hleading hlength c hc

end Coefficients

end Coefficients

end EquationSolver
