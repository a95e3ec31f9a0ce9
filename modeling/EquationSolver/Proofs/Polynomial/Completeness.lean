import EquationSolver.Proofs.Expanded.Reduction
import EquationSolver.Proofs.Polynomial.Univariate
import EquationSolver.Proofs.Reduction.Definitions
import Mathlib.Algebra.Polynomial.AlgebraMap

/-!
# Polynomials are recognised

The reduced form of a polynomial in one variable is a sum of multiples of powers of the variable.
Each of them is read as a coefficient and a degree, so that the coefficients of the polynomial are
found, and no others.
-/

namespace EquationSolver

open Reduction (Settings)

/-! ### Polynomials in one symbol -/

/-- A coefficient of a polynomial in one symbol, as one in all symbols. -/
theorem coeff_aeval_X (name : String) (p : Polynomial Rat) (d : String →₀ Nat) :
    MvPolynomial.coeff d (Polynomial.aeval (MvPolynomial.X name) p) =
      if d = Finsupp.single name (d name) then p.coeff (d name) else 0 := by
  induction p using Polynomial.induction_on' with
  | add p q hp hq =>
    rw [map_add, MvPolynomial.coeff_add, hp, hq, Polynomial.coeff_add]
    split <;> simp
  | monomial n a =>
    rw [Polynomial.aeval_monomial, MvPolynomial.algebraMap_eq, MvPolynomial.coeff_C_mul,
      MvPolynomial.coeff_X_pow, Polynomial.coeff_monomial]
    by_cases hd : Finsupp.single name n = d
    · subst hd
      simp
    · rw [if_neg hd, mul_zero]
      split
      case isTrue hsingle =>
        rw [if_neg]
        rintro rfl
        exact hd hsingle.symm
      case isFalse => rfl

namespace Exponents

/-- A power of one symbol. -/
def ofSymbol (name : String) (k : Nat) : Exponents :=
  if k = 0 then [] else [(name, k)]

theorem toFinsupp_ofSymbol (name : String) (k : Nat) :
    (ofSymbol name k).toFinsupp = Finsupp.single name k := by
  unfold ofSymbol
  split
  case isTrue hk => simp [hk, toFinsupp]
  case isFalse => simp [toFinsupp]

theorem isReduced_ofSymbol (name : String) (k : Nat) : (ofSymbol name k).IsReduced := by
  unfold ofSymbol
  split
  case isTrue => exact ⟨by simp, List.Pairwise.nil⟩
  case isFalse hk => exact Reduction.isReduced_singleton (Nat.pos_of_ne_zero hk)

end Exponents

namespace Monomials

/-- A sum of multiples of powers of one symbol. -/
def ofSymbol (name : String) (items : List (Rat × Nat)) : Monomials :=
  items.map fun item => (item.1, Exponents.ofSymbol name item.2)

theorem coeff_ofSymbol (name : String) (items : List (Rat × Nat)) (k : Nat) :
    MvPolynomial.coeff (Finsupp.single name k) (ofSymbol name items).toPolynomial =
      ((items.filter fun item => item.2 = k).map Prod.fst).sum := by
  induction items with
  | nil => simp [ofSymbol, toPolynomial]
  | cons item rest ih =>
    have hsingle : Finsupp.single name item.2 = Finsupp.single name k ↔ item.2 = k :=
      (Finsupp.single_injective name).eq_iff
    have hcons : ofSymbol name (item :: rest) =
        (item.1, Exponents.ofSymbol name item.2) :: ofSymbol name rest := rfl
    rw [hcons, toPolynomial_cons, MvPolynomial.coeff_add, ih, Exponents.toFinsupp_ofSymbol,
      MvPolynomial.coeff_monomial, List.filter_cons]
    by_cases hdegree : item.2 = k <;> simp [hsingle, hdegree]

variable {name : String} {p : Polynomial Rat} {ms : Monomials}

/-- A reduced sum of monomials that is a polynomial in one symbol consists of multiples of powers
    of that symbol, whose coefficients are those of the polynomial. -/
theorem IsReduced.exists_ofSymbol (h : ms.IsReduced)
    (hp : ms.toPolynomial = Polynomial.aeval (MvPolynomial.X name) p) :
    ∃ items, ms = ofSymbol name items ∧ ∀ item ∈ items, p.coeff item.2 ≠ 0 := by
  have hsingle : ∀ m ∈ ms, m.2.toFinsupp = Finsupp.single name (m.2.toFinsupp name) ∧
      p.coeff (m.2.toFinsupp name) ≠ 0 := by
    intro m hm
    have hcoefficient := h.coeff_eq hm
    rw [hp, coeff_aeval_X] at hcoefficient
    have hne := h.coefficient_ne_zero m hm
    rw [← hcoefficient] at hne
    exact ite_ne_right_iff.1 hne
  refine ⟨ms.map fun m => (m.1, m.2.toFinsupp name), ?_, fun item hitem => ?_⟩
  · have hsame : ∀ m ∈ ms, (m.1, Exponents.ofSymbol name (m.2.toFinsupp name)) = m := by
      intro m hm
      refine Prod.ext rfl ?_
      refine Exponents.eq_of_toFinsupp_eq (Exponents.isReduced_ofSymbol name _)
        (h.exponents m hm) ?_
      rw [Exponents.toFinsupp_ofSymbol, ← (hsingle m hm).1]
    rw [ofSymbol, List.map_map]
    exact (List.map_id ms).symm.trans (List.map_congr_left fun m hm => (hsame m hm).symm)
  · obtain ⟨m, hm, rfl⟩ := List.mem_map.1 hitem
    exact (hsingle m hm).2

end Monomials

namespace Coefficients

variable {s : Settings} {name : String} {p : Polynomial Rat} {t : Term} {items : List (Rat × Nat)}

/-- The summands of a term are the terms of a polynomial in a symbol. -/
structure ListsTerms (name : String) (p : Polynomial Rat) (items : List (Rat × Nat)) (t : Term) :
    Prop where
  summands_eq : Reduction.summands t =
    items.map fun item => Term.monomial item.1 (Exponents.ofSymbol name item.2)
  degree_le : ∀ item ∈ items, item.2 ≤ p.natDegree
  coeff_eq : ∀ k, ((items.filter fun item => item.2 = k).map Prod.fst).sum = p.coeff k

/-- An expanded term that is a polynomial in one symbol has the terms of the polynomial as its
    summands; the polynomial zero has the number zero as its only one. -/
theorem exists_listsTerms (h : t.IsExpandedForm)
    (hp : t.toPolynomial = Polynomial.aeval (MvPolynomial.X name) p) :
    ∃ items, ListsTerms name p items t := by
  obtain ⟨ms, hms, rfl⟩ := h
  rw [Term.toPolynomial_ofMonomials] at hp
  obtain ⟨items, rfl, hitems⟩ := hms.exists_ofSymbol hp
  have hcoeff : ∀ k, ((items.filter fun item => item.2 = k).map Prod.fst).sum = p.coeff k := by
    intro k
    rw [← Monomials.coeff_ofSymbol name, hp, coeff_aeval_X]
    simp
  cases items with
  | nil =>
    refine ⟨[(0, 0)], rfl, by simp, fun k => ?_⟩
    rw [← hcoeff k]
    by_cases hk : 0 = k <;> simp [hk]
  | cons item rest =>
    refine ⟨item :: rest, ?_, fun other hother => Polynomial.le_natDegree_of_ne_zero
      (hitems other hother), hcoeff⟩
    rw [Reduction.summands_ofMonomials, if_neg (by simp [Monomials.ofSymbol]), Monomials.ofSymbol,
      List.map_map]
    rfl

/-! ### Reading a term -/

/-- What is read off a multiple of a power of the variable. -/
def termOf (item : Rat × Nat) : PolynomialTerm where
  degree := item.2
  coefficient := if item.1 = 1 ∧ item.2 ≠ 0 then [] else [.number item.1]

theorem addFactor_number (part : PolynomialTerm) (c : Rat) :
    part.addFactor name (.number c) =
      some { part with coefficient := part.coefficient ++ [.number c] } := by
  simp [PolynomialTerm.addFactor, Term.dependsOn, Term.contains]

theorem variablePower?_symbolPower (name : String) {k : Nat} (hpos : 0 < k) (hk : k ≤ maxDegree) :
    variablePower? name (Term.symbolPower (name, k)) = some k := by
  unfold Term.symbolPower
  split
  case isTrue hone => simp [variablePower?, show k = 1 from hone]
  case isFalse =>
    have hrange : Rational.toInt64Range? (k : Rat) = some (k : Int) := by
      have htoInt : Rational.toInt? (k : Rat) = some (k : Int) := Rational.toInt?_intCast k
      have hbound : Integer.minSigned ≤ (k : Int) ∧ (k : Int) ≤ Integer.maxSigned := by
        simp only [maxDegree, Integer.minSigned, Integer.maxSigned] at hk ⊢
        omega
      rw [Rational.toInt64Range?, htoInt, Option.bind_some, Integer.toInt64Range?, if_pos hbound]
    simp [variablePower?, hrange, hpos]

theorem addFactor_symbolPower (coefficient : List Term) {k : Nat} (hpos : 0 < k)
    (hk : k ≤ maxDegree) :
    PolynomialTerm.addFactor name { degree := 0, coefficient } (Term.symbolPower (name, k)) =
      some { degree := k, coefficient } := by
  have hpower := variablePower?_symbolPower name hpos hk
  have hdepends : (Term.symbolPower (name, k)).dependsOn [name] = true := by
    by_contra hconstant
    rw [variablePower?_of_constant (by simpa using hconstant)] at hpower
    cases hpower
  have hword : k % Integer.wordCount = k := by
    refine Nat.mod_eq_of_lt (lt_of_le_of_lt hk ?_)
    decide
  unfold PolynomialTerm.addFactor
  rw [if_neg (by simp [hdepends]), hpower]
  simp [hword]

/-- A multiple of a power of the variable is read as what it is. -/
theorem polynomialTerm?_monomial {item : Rat × Nat} (hk : item.2 ≤ maxDegree) :
    polynomialTerm? name (Term.monomial item.1 (Exponents.ofSymbol name item.2)) =
      some (termOf item) := by
  obtain ⟨c, k⟩ := item
  have hread : (factors (Term.monomial c (Exponents.ofSymbol name k))).foldlM
      (PolynomialTerm.addFactor name) {} = some (termOf (c, k)) := by
    by_cases hzero : k = 0
    · subst hzero
      simp [Exponents.ofSymbol, Term.monomial, factors, addFactor_number, termOf]
    · have hpos := Nat.pos_of_ne_zero hzero
      by_cases hone : c = 1
      · subst hone
        have hfactors : factors (Term.monomial 1 (Exponents.ofSymbol name k)) =
            [Term.symbolPower (name, k)] := by
          rw [Exponents.ofSymbol, if_neg hzero, ← Reduction.symbolPower_eq_monomial]
          unfold Term.symbolPower
          split <;> rfl
        rw [hfactors]
        simp [addFactor_symbolPower [] hpos hk, termOf, hzero]
      · have hfactors : factors (Term.monomial c (Exponents.ofSymbol name k)) =
            [.number c, Term.symbolPower (name, k)] := by
          simp [Exponents.ofSymbol, hzero, Term.monomial, hone, factors]
        rw [hfactors]
        simp [addFactor_number, addFactor_symbolPower _ hpos hk, termOf, hone]
  rw [polynomialTerm?, hread]
  exact Option.filter_some_pos (by simpa [termOf] using hk)

/-- The coefficient of a term multiplies out to its number. -/
theorem mul_coefficient (s : Settings) (item : Rat × Nat) :
    (Reduction.mul s (termOf item).coefficient).value = .number item.1 := by
  have hnumbers : (termOf item).coefficient =
      (if item.1 = 1 ∧ item.2 ≠ 0 then [] else [item.1]).map Term.number := by
    unfold termOf
    split <;> rfl
  have hproduct : (if item.1 = 1 ∧ item.2 ≠ 0 then [] else [item.1]).prod = item.1 := by
    split
    case isTrue h => rw [h.1, List.prod_nil]
    case isFalse => exact List.prod_singleton
  rw [hnumbers, Reduction.mul, Reduction.maxDepth_eq, Reduction.mulWithin,
    Reduction.mulWith_numbers, hproduct]

/-! ### Reading all terms -/

namespace ListsTerms

theorem polynomialTerms (h : ListsTerms name p items t) (hdegree : p.natDegree ≤ maxDegree) :
    (Reduction.summands t).mapM (polynomialTerm? name) = some (items.map termOf) := by
  rw [h.summands_eq]
  have hle := h.degree_le
  clear h
  induction items with
  | nil => rfl
  | cons item rest ih =>
    obtain ⟨hitem, hrest⟩ := List.forall_mem_cons.1 hle
    rw [List.map_cons, List.mapM_cons, polynomialTerm?_monomial (hitem.trans hdegree), ih hrest]
    rfl

/-- The degree up to which coefficients are collected is that of the polynomial. -/
theorem topDegree_eq (h : ListsTerms name p items t) :
    topDegree (items.map termOf) = p.natDegree := by
  apply le_antisymm
  · refine topDegree_le_iff.2 fun part hpart => ?_
    obtain ⟨item, hitem, rfl⟩ := List.mem_map.1 hpart
    exact h.degree_le item hitem
  · by_cases hzero : p = 0
    · simp [hzero]
    · have hleading : ((items.filter fun item => item.2 = p.natDegree).map Prod.fst).sum ≠ 0 := by
        rw [h.coeff_eq]
        exact Polynomial.leadingCoeff_ne_zero.2 hzero
      obtain ⟨item, hitem⟩ : ∃ item, item ∈ items.filter fun item => item.2 = p.natDegree :=
        List.exists_mem_of_ne_nil _ fun hnil => hleading (by rw [hnil]; rfl)
      obtain ⟨hmem, hdegree⟩ := List.mem_filter.1 hitem
      rw [← of_decide_eq_true hdegree]
      have hterm : termOf item ∈ items.map termOf := List.mem_map_of_mem hmem
      exact degree_le_topDegree hterm

theorem collectedCoefficients_eq (h : ListsTerms name p items t) (s : Settings) :
    collectedCoefficients s (items.map termOf) =
      (List.range (p.natDegree + 1)).map fun k => Term.number (p.coeff k) := by
  rw [collectedCoefficients, h.topDegree_eq]
  refine List.map_congr_left fun k _ => ?_
  have hselected : ((multiplyEach s ((items.map termOf).map fun part =>
        (part.degree, part.coefficient))).value.filter fun product => product.1 = k).map Prod.snd =
      ((items.filter fun item => item.2 = k).map Prod.fst).map Term.number := by
    simp only [multiplyEach, Build.value_each, Build.value_bind, Build.value_pure, List.map_map,
      List.filter_map, Function.comp_def, mul_coefficient]
    rfl
  rw [sumSelected, hselected, Reduction.add_numbers, h.coeff_eq]

end ListsTerms

/-- Nothing is dropped behind a leading coefficient that is not known to be null. -/
theorem trimLeading_eq_self {constant : Term} {others : List Term}
    (h : ∀ c, others.getLast? = some c → c.nullity s ≠ .yes) :
    trimLeading s (constant :: others) = constant :: others := by
  have hkept : others.reverse.dropWhile (fun c => c.nullity s = .yes) = others.reverse := by
    cases hreverse : others.reverse with
    | nil => rfl
    | cons c rest =>
      have hlast : others.getLast? = some c := by
        rw [← List.head?_reverse, hreverse, List.head?_cons]
      rw [List.dropWhile_cons_of_neg (by simpa using h c hlast)]
  rw [trimLeading, hkept, List.reverse_reverse]

/-- The coefficients of a polynomial are found. -/
theorem polynomial?_of_listsTerms (h : ListsTerms name p items t)
    (hdegree : p.natDegree ≤ maxDegree) :
    ∃ build, polynomial? s name t = some build ∧
      build.value = (List.range (p.natDegree + 1)).map fun k => Term.number (p.coeff k) := by
  have hread := h.polynomialTerms hdegree
  obtain ⟨build, hbuild⟩ : ∃ build, polynomial? s name t = some build :=
    ⟨_, by rw [polynomial?, hread]; rfl⟩
  refine ⟨build, hbuild, ?_⟩
  rw [polynomial?_value hread hbuild, h.collectedCoefficients_eq, List.range_succ_eq_map,
    List.map_cons]
  refine trimLeading_eq_self fun c hc => ?_
  -- the last of several coefficients is the leading one
  obtain ⟨n, hn⟩ : ∃ n, p.natDegree = n + 1 := by
    refine Nat.exists_eq_succ_of_ne_zero fun hzero => ?_
    simp [hzero] at hc
  rw [hn, List.range_succ] at hc
  simp only [List.map_append, List.map_cons, List.map_nil, List.getLast?_concat,
    Option.some.injEq] at hc
  rw [← hc, Ne, Term.nullity_number_eq_yes_iff, Nat.succ_eq_add_one, ← hn]
  exact Polynomial.leadingCoeff_ne_zero.2 fun hzero => by simp [hzero] at hn

/-! ### Polynomial expressions -/

/-- Reduction looks up no definition where no symbol of the term is defined. -/
theorem reduce_of_undefined {definitions : Definitions}
    (h : s.symbols = .replaceDefined → ∀ other, t.Mentions other →
      definitions.lookup other = none) :
    Reduction.reduce s definitions t = Reduction.reduce s [] t := by
  have hagree : Reduction.AgreeOn (fun other => definitions.lookup other = none) definitions [] :=
    ⟨fun _ hother => hother, fun other definition hother hsome => by
      rw [hother] at hsome
      cases hsome⟩
  exact hagree.reduce_eq h

/-- The coefficients of the reduced form of a polynomial expression are those of the polynomial. -/
theorem polynomial?_reduce {definitions : Definitions} (hs : s.expands = true)
    (ht : t.IsPolynomialExpression)
    (hsymbols : s.symbols = .replaceDefined → ∀ other, t.Mentions other →
      definitions.lookup other = none)
    (hp : t.Denotes RationalFunction.generic
      (RationalFunction.ofPolynomial (Polynomial.aeval (MvPolynomial.X name) p)))
    (hdegree : p.natDegree ≤ maxDegree)
    (hexpanded : (Reduction.reduce s definitions t).IsExpanded) :
    ∃ build, polynomial? s name (Reduction.reduce s definitions t).value = some build ∧
      build.value = (List.range (p.natDegree + 1)).map fun k => Term.number (p.coeff k) := by
  rw [reduce_of_undefined hsymbols] at hexpanded ⊢
  obtain ⟨hvalue, htrace⟩ :=
    Reduction.reduce_of_kept (Reduction.reduceSymbol_nil s (List.length []) []) t
  have hexpanded : (Reduction.reduceKept s t).IsExpanded :=
    fun u hu => hexpanded u ((htrace u).2 hu)
  have hform := Reduction.expression_isExpandedForm hs t ht hexpanded
  have hsame : (Reduction.reduceKept s t).value.toPolynomial =
      Polynomial.aeval (MvPolynomial.X name) p := by
    apply RationalFunction.ofPolynomial_injective
    rw [← (Term.IsPolynomial.denotes _ hform.isPolynomial).value_eq,
      (Reduction.reduceKept_denotes t hp.hasValue).value_eq, hp.value_eq]
  obtain ⟨items, hitems⟩ := exists_listsTerms hform hsame
  rw [hvalue]
  exact polynomial?_of_listsTerms hitems hdegree

/-- Polynomial coefficients are exact and complete.  There are at most as many as the largest
    degree allows, the variable does not occur in them, the last one is not zero unless it is the
    only one, and the term is the polynomial that they are the coefficients of, unless an exponent
    of the variable is beyond the range of machine words.  Of a polynomial expression with rational
    coefficients that is reduced with nothing left unexpanded, they are the coefficients. -/
theorem polynomial_exact (K : Type*) [Field K] [CharZero K] (s : Settings) (name : String) :
    (∀ t build, polynomial? s name t = some build →
      build.value ≠ [] ∧ build.value.length ≤ maxDegree + 1 ∧
      (∀ c ∈ build.value, ¬ c.Mentions name) ∧
      (1 < build.value.length → build.value.getLast? ≠ some .zero) ∧
      ∀ ρ : Assignment K, t.HasValue ρ →
        (∀ c ∈ build.value, c.HasValue ρ) ∧
        ((∀ u ∈ Reduction.summands t, exponentIn name u < Integer.wordCount) →
          t.value ρ = ∑ k ∈ Finset.range build.value.length,
            (build.value.getD k .zero).value ρ * ρ.symbol name ^ k)) ∧
      (s.expands = true → ∀ (definitions : Definitions) (t : Term) (p : Polynomial Rat),
        t.IsPolynomialExpression →
        (s.symbols = .replaceDefined → ∀ other, t.Mentions other →
          definitions.lookup other = none) →
        t.Denotes RationalFunction.generic
          (RationalFunction.ofPolynomial (Polynomial.aeval (MvPolynomial.X name) p)) →
        p.natDegree ≤ maxDegree → (Reduction.reduce s definitions t).IsExpanded →
        ∃ build, polynomial? s name (Reduction.reduce s definitions t).value = some build ∧
          build.value = (List.range (p.natDegree + 1)).map fun k => Term.number (p.coeff k)) := by
  constructor
  · intro t build h
    obtain ⟨hne, hlength⟩ := length_of_polynomial? h
    refine ⟨hne, hlength, not_mentions_of_polynomial? h, fun hseveral hzero => ?_, fun ρ ht => ?_⟩
    · exact leading_of_polynomial? h hseveral hzero (Term.nullity_number_eq_yes_iff.2 rfl)
    · have ht := (Assignment.hasValue_valuation t).2 ht
      obtain ⟨hvalues, hvalue⟩ := value_of_polynomial? (Reduction.drawsRoots_valuation ρ s) h ht
      refine ⟨fun c hc => (Assignment.hasValue_valuation c).1 (hvalues c hc), fun hexponents => ?_⟩
      rw [← Assignment.value_valuation, hvalue hexponents, valueAt]
      exact Finset.sum_congr rfl fun k _ => by rw [Assignment.value_valuation]; rfl
  · intro hs definitions t p ht hsymbols hp hdegree hexpanded
    exact polynomial?_reduce hs ht hsymbols hp hdegree hexpanded

/-- Half the square of `x + 1` is read as `x²/2 + x + 1/2`. -/
theorem polynomial_exact_halfSquare :
    let s : Settings := { target := .analysis }
    let square : Term := .power (.sum [.symbol "x", .number 1]) (.number 2)
    let t : Term := .product [.power (.number 2) (.number (-1)), square]
    let u : Term := .sum [.product [.number (1 / 2), .power (.symbol "x") (.number 2)],
      .symbol "x", .number (1 / 2)]
    (∃ build, polynomial? s "x" u = some build ∧ build.value.length ≤ 65 ∧
      u.value (GaussianRat.assign 3) = ∑ k ∈ Finset.range build.value.length,
        (build.value.getD k .zero).value (GaussianRat.assign 3) * 3 ^ k) ∧
    ∃ build, polynomial? s "x" (Reduction.reduce s [] t).value = some build ∧
      build.value = [.number (1 / 2), .number 1, .number (1 / 2)] := by
  intro s square t u
  obtain ⟨hsound, hcomplete⟩ := polynomial_exact GaussianRat s "x"
  constructor
  · obtain ⟨build, hbuild⟩ : ∃ build, polynomial? s "x" u = some build := ⟨_, rfl⟩
    have hu : u.HasValue (GaussianRat.assign 3) := by
      have htwo : Term.number 2 = .number ((2 : Int) : Rat) := by norm_num
      simp [u, htwo, Term.HasValue, Term.HaveValues]
    have hexponents : ∀ v ∈ Reduction.summands u, exponentIn "x" v < Integer.wordCount := by
      decide
    obtain ⟨-, hlength, -, -, hvalue⟩ := hsound u build hbuild
    exact ⟨build, hbuild, hlength, (hvalue _ hu).2 hexponents⟩
  · let p : Polynomial Rat := .C (1 / 2) * .X ^ 2 + .C 1 * .X + .C (1 / 2)
    have hsquare : square.IsPolynomial := by
      simp only [square, Term.IsPolynomial, Term.ArePolynomials, true_and]
      exact ⟨2, by decide, by norm_num⟩
    have hhalf : Term.Denotes RationalFunction.generic (.power (.number 2) (.number (-1)))
        (RationalFunction.ofPolynomial (MvPolynomial.C (1 / 2))) := by
      rw [Term.number_minusOne, RationalFunction.ofPolynomial_C]
      exact ⟨Term.hasValue_power.2 ⟨by simp, by simp⟩, by rw [Term.value_power]; simp⟩
    have ht : t.IsPolynomialExpression := by
      simp only [t, Term.IsPolynomialExpression, Term.ArePolynomialExpressions, true_and, and_true]
      exact ⟨⟨-1, Term.number_minusOne, _, hhalf⟩,
        Term.IsPolynomial.isPolynomialExpression square hsquare⟩
    have hdegree : p.natDegree = 2 := Polynomial.natDegree_quadratic (by norm_num)
    have hp : t.Denotes RationalFunction.generic
        (RationalFunction.ofPolynomial (Polynomial.aeval (MvPolynomial.X "x") p)) := by
      have hvalue := Term.IsPolynomial.denotes square hsquare
      have htwo : Term.integerLiteral? (.number 2) = some 2 := Term.integerLiteral?_intCast 2
      have hdouble : (MvPolynomial.C (1 / 2) : MvPolynomial String Rat) * 2 = 1 := by
        rw [← map_ofNat MvPolynomial.C 2, ← MvPolynomial.C_mul]
        norm_num
      have hsame : MvPolynomial.C (1 / 2) * square.toPolynomial =
          Polynomial.aeval (MvPolynomial.X "x") p := by
        simp only [square, p, Term.toPolynomial, Term.toPolynomials, htwo, List.sum_cons,
          List.sum_nil, map_add, map_mul, map_pow, Polynomial.aeval_X, Polynomial.aeval_C,
          MvPolynomial.algebraMap_eq, map_one, Int.reduceToNat]
        linear_combination MvPolynomial.X "x" * hdouble
      refine ⟨Term.hasValue_product.2 (by simpa using ⟨hhalf.hasValue, hvalue.hasValue⟩), ?_⟩
      rw [Term.value_product, List.map_cons, List.map_cons, List.prod_cons, List.map_nil,
        List.prod_singleton, hhalf.value_eq, hvalue.value_eq, ← map_mul, hsame]
    have hexpanded : (Reduction.reduce s [] t).IsExpanded := by
      obtain ⟨-, htrace⟩ := Reduction.reduce_of_kept (Reduction.reduceSymbol_nil s _ []) t
      have hkept : (Reduction.reduceKept s t).IsExpanded := by
        unfold Build.IsExpanded
        decide +kernel
      exact fun v hv => hkept v ((htrace v).1 hv)
    obtain ⟨build, hbuild, hvalue⟩ := hcomplete rfl [] t p ht (fun _ _ _ => rfl) hp
      (by rw [hdegree]; decide) hexpanded
    refine ⟨build, hbuild, ?_⟩
    rw [hvalue, hdegree]
    simp [p, List.range_succ, Polynomial.coeff_X, Polynomial.coeff_C]

end Coefficients

end EquationSolver
