import EquationSolver.Proofs.Expanded.Polynomial
import EquationSolver.Proofs.Value.Reduction
import Mathlib.Algebra.Algebra.Rat
import Mathlib.Algebra.CharP.Algebra
import Mathlib.Algebra.MvPolynomial.Nilpotent
import Mathlib.RingTheory.Localization.FractionRing
import Mathlib.RingTheory.MvPolynomial.Basic
import Mathlib.RingTheory.SimpleRing.Principal

/-!
# Reduction keeps polynomials

Rational functions are a field, and a term that is a polynomial has itself as its value
there when every symbol stands for itself.  What is known of exact values therefore says
that reduction returns a term with the same polynomial.  A polynomial may be written with quotients
and with powers whose exponents are not positive, as long as each of them is a polynomial, too.
What is divided by is then a number.
-/

namespace EquationSolver

open MvPolynomial Term

/-- Rational functions of the symbols. -/
abbrev RationalFunction := FractionRing (MvPolynomial String GaussianRat)

namespace RationalFunction

/-- Every symbol stands for itself. -/
noncomputable def generic : Assignment RationalFunction where
  symbol name := algebraMap (MvPolynomial String GaussianRat) RationalFunction (X name)
  pi := 0
  e := 0
  i := algebraMap (MvPolynomial String GaussianRat) RationalFunction (C ⟨0, 1⟩)
  i_mul_i := by
    have hi : (⟨0, 1⟩ : GaussianRat) * ⟨0, 1⟩ = -1 := (GaussianRat.assign 0).i_mul_i
    rw [← map_mul, ← C_mul, hi, map_neg, C_1, map_neg, map_one]

/-- The rational function that a polynomial is. -/
noncomputable def ofPolynomial : MvPolynomial String Rat →+* RationalFunction :=
  (algebraMap (MvPolynomial String GaussianRat) RationalFunction).comp
    (MvPolynomial.map (algebraMap Rat GaussianRat))

theorem ofPolynomial_injective : Function.Injective ofPolynomial :=
  (IsFractionRing.injective (MvPolynomial String GaussianRat) RationalFunction).comp
    (map_injective _ (algebraMap Rat GaussianRat).injective)

theorem ofPolynomial_C (a : Rat) : ofPolynomial (C a) = (a : RationalFunction) :=
  eq_ratCast (ofPolynomial.comp C) a

theorem ofPolynomial_X (name : String) : ofPolynomial (X name) = generic.symbol name := by
  rw [ofPolynomial, RingHom.comp_apply, map_X]
  rfl

end RationalFunction

open RationalFunction

namespace Term

mutual

/-- The generic value of a polynomial is the polynomial. -/
theorem IsPolynomial.denotes : ∀ t : Term, t.IsPolynomial →
    t.Denotes generic (ofPolynomial t.toPolynomial)
  | .number a, _ => by
    rw [toPolynomial_number, ofPolynomial_C]
    exact .number a
  | .symbol name, _ => by
    rw [toPolynomial, ofPolynomial_X]
    exact ⟨by simp [HasValue], by simp [value]⟩
  | .sum terms, h => by
    rw [IsPolynomial] at h
    obtain ⟨hvalues, heq⟩ := ArePolynomials.denote terms h
    refine ⟨hasValue_sum.2 hvalues, ?_⟩
    rw [value_sum, heq, toPolynomial, map_list_sum]
  | .product factors, h => by
    rw [IsPolynomial] at h
    obtain ⟨hvalues, heq⟩ := ArePolynomials.denote factors h
    refine ⟨hasValue_product.2 hvalues, ?_⟩
    rw [value_product, heq, toPolynomial, map_list_prod]
  | .power base exponent, h => by
    rw [IsPolynomial] at h
    obtain ⟨hbase, n, hpos, rfl⟩ := h
    obtain ⟨hvalue, heq⟩ := IsPolynomial.denotes base hbase
    have hcast : (n : Rat) = ((n : Int) : Rat) := by push_cast; rfl
    constructor
    · rw [hcast, hasValue_power]
      exact ⟨hvalue, fun _ => by exact_mod_cast hpos⟩
    · rw [toPolynomial_power, map_pow, ← heq, hcast, value_power, zpow_natCast]
  | .negation a, h => by
    rw [IsPolynomial] at h
    obtain ⟨hvalue, heq⟩ := IsPolynomial.denotes a h
    exact ⟨by simpa [HasValue] using hvalue, by rw [value, heq, toPolynomial, map_neg]⟩
  | .decimal _, h | .constant _, h | .undefined, h | .nonreal, h | .quotient _ _, h
  | .apply _ _, h | .matrix _ _ _, h => by
    simp [IsPolynomial] at h

theorem ArePolynomials.denote : ∀ terms : List Term, ArePolynomials terms →
    (∀ t ∈ terms, t.HasValue generic) ∧
      terms.map (value generic) = (toPolynomials terms).map ofPolynomial
  | [], _ => by simp [toPolynomials]
  | t :: ts, h => by
    rw [ArePolynomials] at h
    obtain ⟨hvalue, heq⟩ := IsPolynomial.denotes t h.1
    obtain ⟨hvalues, heqs⟩ := ArePolynomials.denote ts h.2
    rw [toPolynomials, List.map_cons, List.map_cons, heq, heqs]
    exact ⟨List.forall_mem_cons.2 ⟨hvalue, hvalues⟩, rfl⟩

end

theorem isPolynomial_symbolPower {p : String × Nat} (h : 0 < p.2) :
    (symbolPower p).IsPolynomial := by
  unfold symbolPower
  split
  · simp [IsPolynomial]
  · exact ⟨by simp [IsPolynomial], p.2, h, rfl⟩

theorem isPolynomial_sumOf {terms : List Term} (h : ∀ t ∈ terms, t.IsPolynomial) :
    (sumOf terms).IsPolynomial := by
  match terms, h with
  | [], _ => simp [sumOf, zero, IsPolynomial]
  | [t], h => simpa [sumOf] using h
  | t :: u :: rest, h => simpa only [sumOf, IsPolynomial, arePolynomials_iff] using h

theorem isPolynomial_monomial (c : Rat) {b : Exponents} (h : b.IsReduced) :
    (monomial c b).IsPolynomial := by
  have hnumber : (Term.number c).IsPolynomial := by simp [IsPolynomial]
  rcases monomial_cases c b with heq | ⟨p, hp, heq⟩ | ⟨factors, heq, hfactors⟩ <;> rw [heq]
  · exact hnumber
  · exact isPolynomial_symbolPower (h.positive p hp)
  · rw [IsPolynomial, arePolynomials_iff]
    intro t ht
    rcases hfactors t ht with rfl | ⟨p, hp, rfl⟩
    · exact hnumber
    · exact isPolynomial_symbolPower (h.positive p hp)

/-- Expanded terms are polynomials. -/
theorem IsExpandedForm.isPolynomial {t : Term} (h : t.IsExpandedForm) : t.IsPolynomial := by
  obtain ⟨ms, hms, rfl⟩ := h
  refine isPolynomial_sumOf fun t ht => ?_
  obtain ⟨m, hm, rfl⟩ := List.mem_map.1 ht
  exact isPolynomial_monomial m.1 (hms.exponents m hm)

end Term

namespace Reduction

/-- If the reduced form of a polynomial is a polynomial, it is the same. -/
theorem toPolynomial_reduceKept (s : Settings) {t : Term} (ht : t.IsPolynomial)
    (hreduced : (reduceKept s t).value.IsPolynomial) :
    (reduceKept s t).value.toPolynomial = t.toPolynomial := by
  have hvalue := IsPolynomial.denotes t ht
  have hkept := (reduceKept_denotes (s := s) t hvalue.hasValue).value_eq
  rw [hvalue.value_eq, (IsPolynomial.denotes _ hreduced).value_eq] at hkept
  exact ofPolynomial_injective hkept

end Reduction

/-! ### Polynomial expressions -/

namespace Term

/-- The term is a polynomial, with every symbol standing for itself. -/
def HasPolynomialValue (t : Term) : Prop :=
  ∃ p, t.Denotes generic (ofPolynomial p)

mutual

/-- The term is built from numbers and symbols by sums, products, negations, powers with integer
    exponents, and quotients, where powers and what quotients multiply by are polynomials. -/
def IsPolynomialExpression : Term → Prop
  | .number _ | .symbol _ => True
  | .sum terms => ArePolynomialExpressions terms
  | .product factors => ArePolynomialExpressions factors
  | .power base exponent =>
    IsPolynomialExpression base ∧ ∃ n : Int, exponent = .number (n : Rat) ∧
      HasPolynomialValue (.power base exponent)
  | .negation a => IsPolynomialExpression a
  | .quotient a b =>
    IsPolynomialExpression a ∧ IsPolynomialExpression b ∧
      HasPolynomialValue (.power b (.number (-1)))
  | _ => False

def ArePolynomialExpressions : List Term → Prop
  | [] => True
  | t :: ts => IsPolynomialExpression t ∧ ArePolynomialExpressions ts

end

mutual

/-- Powers with positive exponents are polynomials. -/
theorem IsPolynomial.isPolynomialExpression : ∀ t : Term, t.IsPolynomial →
    t.IsPolynomialExpression
  | .number _, _ | .symbol _, _ => by simp [IsPolynomialExpression]
  | .sum terms, h => by
    rw [IsPolynomial] at h
    rw [IsPolynomialExpression]
    exact ArePolynomials.arePolynomialExpressions terms h
  | .product factors, h => by
    rw [IsPolynomial] at h
    rw [IsPolynomialExpression]
    exact ArePolynomials.arePolynomialExpressions factors h
  | .power base exponent, h => by
    have hvalue := IsPolynomial.denotes _ h
    rw [IsPolynomial] at h
    obtain ⟨hbase, n, -, rfl⟩ := h
    rw [IsPolynomialExpression]
    exact ⟨IsPolynomial.isPolynomialExpression base hbase, n, by simp, _, hvalue⟩
  | .negation a, h => by
    rw [IsPolynomial] at h
    rw [IsPolynomialExpression]
    exact IsPolynomial.isPolynomialExpression a h
  | .decimal _, h | .constant _, h | .undefined, h | .nonreal, h | .quotient _ _, h
  | .apply _ _, h | .matrix _ _ _, h => by
    simp [IsPolynomial] at h

theorem ArePolynomials.arePolynomialExpressions : ∀ terms : List Term, ArePolynomials terms →
    ArePolynomialExpressions terms
  | [], _ => by simp [ArePolynomialExpressions]
  | t :: ts, h => by
    rw [ArePolynomials] at h
    rw [ArePolynomialExpressions]
    exact ⟨IsPolynomial.isPolynomialExpression t h.1,
      ArePolynomials.arePolynomialExpressions ts h.2⟩

end

theorem number_minusOne : Term.number (-1) = .number ((-1 : Int) : Rat) := by norm_num

/-- What a power divides by is a number other than zero, if the power is a polynomial. -/
theorem HasPolynomialValue.base_of_neg {base : Term} {n : Int} (hn : n < 0)
    (hbase : base.HasPolynomialValue)
    (h : HasPolynomialValue (.power base (.number (n : Rat)))) :
    ∃ c : Rat, c ≠ 0 ∧ base.Denotes generic c := by
  obtain ⟨p, hp⟩ := hbase
  obtain ⟨q, hpower, hq⟩ := h
  have hne : ofPolynomial p ≠ 0 := by
    intro hzero
    have hpos := (hasValue_power.1 hpower).2 (hp.value_eq.trans hzero)
    omega
  -- the power times the positive power is one, so that the base is a unit
  obtain ⟨m, rfl⟩ : ∃ m : Nat, n = -((m + 1 : Nat) : Int) := ⟨n.natAbs - 1, by omega⟩
  rw [value_power, hp.value_eq, zpow_neg, zpow_natCast] at hq
  have hone : q * p ^ (m + 1) = 1 := by
    apply ofPolynomial_injective
    rw [map_mul, map_pow, map_one, ← hq, inv_mul_cancel₀ (pow_ne_zero _ hne)]
  have hunit : IsUnit p := by
    refine IsUnit.of_mul_eq_one (q * p ^ m) ?_
    rw [← hone]
    ring
  obtain ⟨c, hc, rfl⟩ := isUnit_iff_eq_C_of_isReduced.1 hunit
  exact ⟨c, hc.ne_zero, hp.congr (ofPolynomial_C c)⟩

mutual

/-- The generic value of a polynomial expression is a polynomial. -/
theorem IsPolynomialExpression.hasPolynomialValue : ∀ t : Term, t.IsPolynomialExpression →
    t.HasPolynomialValue
  | .number a, _ => ⟨C a, (Denotes.number a).congr (ofPolynomial_C a).symm⟩
  | .symbol name, _ => ⟨X name, by simp [HasValue], by rw [value, ofPolynomial_X]⟩
  | .sum terms, h => by
    rw [IsPolynomialExpression] at h
    obtain ⟨hvalues, ps, hps⟩ := ArePolynomialExpressions.havePolynomialValues terms h
    exact ⟨ps.sum, hasValue_sum.2 hvalues, by rw [value_sum, hps, map_list_sum]⟩
  | .product factors, h => by
    rw [IsPolynomialExpression] at h
    obtain ⟨hvalues, ps, hps⟩ := ArePolynomialExpressions.havePolynomialValues factors h
    exact ⟨ps.prod, hasValue_product.2 hvalues, by rw [value_product, hps, map_list_prod]⟩
  | .power base exponent, h => by
    rw [IsPolynomialExpression] at h
    obtain ⟨-, n, -, hvalue⟩ := h
    exact hvalue
  | .negation a, h => by
    rw [IsPolynomialExpression] at h
    obtain ⟨p, hvalue, heq⟩ := IsPolynomialExpression.hasPolynomialValue a h
    exact ⟨-p, by simpa [HasValue] using hvalue, by rw [value, heq, map_neg]⟩
  | .quotient a b, h => by
    rw [IsPolynomialExpression] at h
    obtain ⟨p, ha, hp⟩ := IsPolynomialExpression.hasPolynomialValue a h.1
    obtain ⟨q, hinverse, hq⟩ := h.2.2
    rw [number_minusOne] at hinverse hq
    obtain ⟨hb, hpos⟩ := hasValue_power.1 hinverse
    have hne : value generic b ≠ 0 := fun hzero => absurd (hpos hzero) (by decide)
    refine ⟨p * q, by simpa [HasValue] using ⟨ha, hb, hne⟩, ?_⟩
    rw [value, hp, map_mul, ← hq, value_power, zpow_neg_one, div_eq_mul_inv]
  | .decimal _, h | .constant _, h | .undefined, h | .nonreal, h | .apply _ _, h
  | .matrix _ _ _, h => by
    simp [IsPolynomialExpression] at h

theorem ArePolynomialExpressions.havePolynomialValues : ∀ terms : List Term,
    ArePolynomialExpressions terms →
      (∀ t ∈ terms, t.HasValue generic) ∧
        ∃ ps : List (MvPolynomial String Rat), terms.map (value generic) = ps.map ofPolynomial
  | [], _ => ⟨by simp, [], rfl⟩
  | t :: ts, h => by
    rw [ArePolynomialExpressions] at h
    obtain ⟨p, hvalue, heq⟩ := IsPolynomialExpression.hasPolynomialValue t h.1
    obtain ⟨hvalues, ps, heqs⟩ := ArePolynomialExpressions.havePolynomialValues ts h.2
    exact ⟨List.forall_mem_cons.2 ⟨hvalue, hvalues⟩, p :: ps, by
      rw [List.map_cons, List.map_cons, heq, heqs]⟩

end

end Term

end EquationSolver
