import EquationSolver.Proofs.Expanded.Monomial
import EquationSolver.Proofs.Value.Basic
import Mathlib.Algebra.MvPolynomial.Basic

/-!
# Terms as polynomials

A term that is built from numbers and symbols by sums, products, negations and powers with
positive integer exponents is a polynomial with rational coefficients.  An expanded term is
a sum of monomials in ascending order, and no two expanded terms are the same polynomial.
-/

namespace EquationSolver

open MvPolynomial

namespace Term

mutual

/-- The term is built from numbers and symbols by sums, products, negations and powers with
    positive integer exponents. -/
def IsPolynomial : Term → Prop
  | .number _ | .symbol _ => True
  | .sum terms => ArePolynomials terms
  | .product factors => ArePolynomials factors
  | .power base exponent =>
    IsPolynomial base ∧ ∃ n : Nat, 0 < n ∧ exponent = .number (n : Rat)
  | .negation a => IsPolynomial a
  | _ => False

def ArePolynomials : List Term → Prop
  | [] => True
  | t :: ts => IsPolynomial t ∧ ArePolynomials ts

end

mutual

/-- The polynomial that a term is. -/
noncomputable def toPolynomial : Term → MvPolynomial String Rat
  | .number a => C a
  | .symbol name => X name
  | .sum terms => (toPolynomials terms).sum
  | .product factors => (toPolynomials factors).prod
  | .power base exponent =>
    match integerLiteral? exponent with
    | some n => toPolynomial base ^ n.toNat
    | none => 0
  | .negation a => -toPolynomial a
  | _ => 0

noncomputable def toPolynomials : List Term → List (MvPolynomial String Rat)
  | [] => []
  | t :: ts => toPolynomial t :: toPolynomials ts

end

theorem arePolynomials_iff {terms : List Term} :
    ArePolynomials terms ↔ ∀ t ∈ terms, IsPolynomial t := by
  induction terms with
  | nil => simp [ArePolynomials]
  | cons t ts ih => simp [ArePolynomials, ih]

theorem toPolynomials_eq_map (terms : List Term) :
    toPolynomials terms = terms.map toPolynomial := by
  induction terms with
  | nil => rfl
  | cons t ts ih => rw [toPolynomials, ih, List.map_cons]

@[simp] theorem toPolynomial_number (a : Rat) : toPolynomial (.number a) = C a := by
  simp [toPolynomial]

@[simp] theorem toPolynomial_power (base : Term) (n : Nat) :
    toPolynomial (.power base (.number (n : Rat))) = toPolynomial base ^ n := by
  have hn : integerLiteral? (.number (n : Rat)) = some (n : Int) := integerLiteral?_intCast n
  rw [toPolynomial, hn]
  simp

theorem toPolynomial_sumOf (terms : List Term) :
    toPolynomial (sumOf terms) = (terms.map toPolynomial).sum := by
  match terms with
  | [] => simp [sumOf, zero]
  | [t] => simp [sumOf]
  | t :: u :: rest => simp only [sumOf, toPolynomial, toPolynomials_eq_map]

theorem toPolynomial_productOf (factors : List Term) :
    toPolynomial (productOf factors) = (factors.map toPolynomial).prod := by
  match factors with
  | [] => simp [productOf, one]
  | [t] => simp [productOf]
  | t :: u :: rest => simp only [productOf, toPolynomial, toPolynomials_eq_map]

end Term

/-! ### Exponents -/

namespace Exponents

/-- The exponent of every symbol. -/
noncomputable def toFinsupp (b : Exponents) : String →₀ Nat :=
  (b.map fun p => Finsupp.single p.1 p.2).sum

theorem toFinsupp_cons (p : String × Nat) (b : Exponents) :
    toFinsupp (p :: b) = Finsupp.single p.1 p.2 + toFinsupp b := by
  rw [toFinsupp, List.map_cons, List.sum_cons, toFinsupp]

theorem toFinsupp_apply_of_not_mem {b : Exponents} {name : String}
    (h : ∀ p ∈ b, p.1 ≠ name) : toFinsupp b name = 0 := by
  induction b with
  | nil => simp [toFinsupp]
  | cons p b ih =>
    obtain ⟨hp, hb⟩ := List.forall_mem_cons.1 h
    rw [toFinsupp_cons, Finsupp.add_apply, ih hb, Finsupp.single_eq_of_ne' hp]

theorem IsReduced.tail {p : String × Nat} {b : Exponents} (h : IsReduced (p :: b)) :
    b.IsReduced :=
  ⟨(List.forall_mem_cons.1 h.positive).2, (List.pairwise_cons.1 h.ascending).2⟩

theorem ne_of_compare_eq_lt {s t : String} (h : Ord.compare s t = .lt) : s ≠ t := by
  rintro rfl
  rw [Std.ReflOrd.compare_self] at h
  cases h

theorem IsReduced.toFinsupp_apply {b : Exponents} (h : b.IsReduced) {p : String × Nat}
    (hp : p ∈ b) : toFinsupp b p.1 = p.2 := by
  induction b with
  | nil => cases hp
  | cons q b ih =>
    have hbehind := (List.pairwise_cons.1 h.ascending).1
    rw [toFinsupp_cons, Finsupp.add_apply]
    rcases List.mem_cons.1 hp with rfl | hp
    · rw [Finsupp.single_eq_same, toFinsupp_apply_of_not_mem, Nat.add_zero]
      intro r hr
      exact (ne_of_compare_eq_lt (hbehind r hr)).symm
    · rw [ih h.tail hp, Finsupp.single_eq_of_ne' (ne_of_compare_eq_lt (hbehind p hp)),
        Nat.zero_add]

theorem IsReduced.mem_iff {b : Exponents} (h : b.IsReduced) {p : String × Nat} :
    p ∈ b ↔ 0 < p.2 ∧ toFinsupp b p.1 = p.2 := by
  constructor
  · intro hp
    exact ⟨h.positive p hp, h.toFinsupp_apply hp⟩
  · rintro ⟨hpos, heq⟩
    by_contra hp
    have hname : ∃ q ∈ b, q.1 = p.1 := by
      by_contra hnone
      have hzero : toFinsupp b p.1 = 0 :=
        toFinsupp_apply_of_not_mem fun q hq hname => hnone ⟨q, hq, hname⟩
      omega
    obtain ⟨q, hq, hname⟩ := hname
    have hexponent := h.toFinsupp_apply hq
    rw [hname, heq] at hexponent
    exact hp (Prod.ext hname hexponent.symm ▸ hq)

/-- Reduced lists with the same exponents are equal. -/
theorem eq_of_toFinsupp_eq {b b' : Exponents} (h : b.IsReduced) (h' : b'.IsReduced)
    (heq : toFinsupp b = toFinsupp b') : b = b' := by
  refine eq_of_ascending (fun p q => Std.OrientedCmp.not_lt_of_lt) h.ascending h'.ascending ?_
  intro p
  rw [h.mem_iff, h'.mem_iff, heq]

end Exponents

/-! ### Sums of monomials -/

/-- Coefficients with their monomials. -/
abbrev Monomials := List (Rat × Exponents)

namespace Monomials

/-- The coefficients are not zero, and the monomials are reduced and ascend. -/
structure IsReduced (ms : Monomials) : Prop where
  coefficient_ne_zero : ∀ m ∈ ms, m.1 ≠ 0
  exponents : ∀ m ∈ ms, Exponents.IsReduced m.2
  ascending : ms.Pairwise fun m n => Exponents.compareMonomials m.2 n.2 = .lt

/-- The sum of monomials. -/
noncomputable def toPolynomial (ms : Monomials) : MvPolynomial String Rat :=
  (ms.map fun m => MvPolynomial.monomial m.2.toFinsupp m.1).sum

theorem toPolynomial_cons (m : Rat × Exponents) (ms : Monomials) :
    toPolynomial (m :: ms) = MvPolynomial.monomial m.2.toFinsupp m.1 + toPolynomial ms := by
  rw [toPolynomial, List.map_cons, List.sum_cons, toPolynomial]

theorem IsReduced.tail {m : Rat × Exponents} {ms : Monomials} (h : IsReduced (m :: ms)) :
    ms.IsReduced :=
  ⟨(List.forall_mem_cons.1 h.coefficient_ne_zero).2, (List.forall_mem_cons.1 h.exponents).2,
    (List.pairwise_cons.1 h.ascending).2⟩

theorem coeff_toPolynomial_eq_zero {ms : Monomials} {b : Exponents}
    (h : ∀ m ∈ ms, m.2.toFinsupp ≠ b.toFinsupp) : coeff b.toFinsupp ms.toPolynomial = 0 := by
  induction ms with
  | nil => simp [toPolynomial]
  | cons m ms ih =>
    obtain ⟨hm, hms⟩ := List.forall_mem_cons.1 h
    rw [toPolynomial_cons, coeff_add, ih hms, coeff_monomial, if_neg hm, add_zero]

/-- The coefficient of a monomial is the one that is listed with it. -/
theorem IsReduced.coeff_eq {ms : Monomials} (h : ms.IsReduced) {m : Rat × Exponents}
    (hm : m ∈ ms) : coeff m.2.toFinsupp ms.toPolynomial = m.1 := by
  induction ms with
  | nil => cases hm
  | cons n ms ih =>
    have hbehind := (List.pairwise_cons.1 h.ascending).1
    have hn := h.exponents n List.mem_cons_self
    have hdistinct : ∀ k ∈ ms, k.2.toFinsupp ≠ n.2.toFinsupp := by
      intro k hk heq
      have hlt := hbehind k hk
      rw [Exponents.eq_of_toFinsupp_eq (h.exponents k (List.mem_cons_of_mem n hk)) hn heq] at hlt
      exact Std.OrientedCmp.not_lt_of_lt hlt hlt
    rw [toPolynomial_cons, coeff_add, coeff_monomial]
    rcases List.mem_cons.1 hm with rfl | hm
    · rw [if_pos rfl, coeff_toPolynomial_eq_zero hdistinct, add_zero]
    · rw [if_neg (hdistinct m hm).symm, ih h.tail hm, zero_add]

theorem IsReduced.mem_iff {ms : Monomials} (h : ms.IsReduced) {m : Rat × Exponents}
    (hm : m.2.IsReduced) :
    m ∈ ms ↔ m.1 ≠ 0 ∧ coeff m.2.toFinsupp ms.toPolynomial = m.1 := by
  constructor
  · intro hmem
    exact ⟨h.coefficient_ne_zero m hmem, h.coeff_eq hmem⟩
  · rintro ⟨hne, heq⟩
    by_contra hmem
    have hlisted : ∃ n ∈ ms, n.2 = m.2 := by
      by_contra hnone
      refine hne (heq.symm.trans (coeff_toPolynomial_eq_zero fun n hn heq => hnone ⟨n, hn, ?_⟩))
      exact Exponents.eq_of_toFinsupp_eq (h.exponents n hn) hm heq
    obtain ⟨n, hn, hexponents⟩ := hlisted
    have hcoefficient := h.coeff_eq hn
    rw [hexponents, heq] at hcoefficient
    exact hmem (Prod.ext hcoefficient hexponents.symm ▸ hn)

/-- Reduced sums of monomials that are the same polynomial are equal. -/
theorem eq_of_toPolynomial_eq {ms ns : Monomials} (hms : ms.IsReduced) (hns : ns.IsReduced)
    (h : ms.toPolynomial = ns.toPolynomial) : ms = ns := by
  refine eq_of_ascending (fun m n => Std.OrientedCmp.not_lt_of_lt) hms.ascending hns.ascending ?_
  intro m
  by_cases hm : m.2.IsReduced
  · rw [hms.mem_iff hm, hns.mem_iff hm, h]
  · exact ⟨fun hmem => (hm (hms.exponents m hmem)).elim,
      fun hmem => (hm (hns.exponents m hmem)).elim⟩

end Monomials

/-! ### Expanded terms -/

namespace Term

/-- The sum of monomials as a term. -/
def ofMonomials (ms : Monomials) : Term :=
  sumOf (ms.map fun m => monomial m.1 m.2)

/-- The term is a sum of monomials in ascending order. -/
def IsExpandedForm (t : Term) : Prop :=
  ∃ ms : Monomials, ms.IsReduced ∧ t = ofMonomials ms

/-- The term is a number or a power of a symbol. -/
def IsMonomialFactor (t : Term) : Prop :=
  (∃ a, t = .number a) ∨ ∃ p : String × Nat, 0 < p.2 ∧ t = symbolPower p

/-- An expanded term is a number, a power of a symbol, a product of these, or a sum. -/
theorem IsExpandedForm.cases {t : Term} (h : t.IsExpandedForm) :
    (∃ a, t = .number a) ∨ (∃ p : String × Nat, 0 < p.2 ∧ t = symbolPower p) ∨
      (∃ factors, t = .product factors ∧ ∀ u ∈ factors, u.IsMonomialFactor) ∨
      ∃ terms, t = .sum terms := by
  obtain ⟨ms, hms, rfl⟩ := h
  match ms, hms with
  | [], _ => exact .inl ⟨0, rfl⟩
  | [m], hms =>
    have hpositive := (hms.exponents m List.mem_cons_self).positive
    have heq : ofMonomials [m] = monomial m.1 m.2 := rfl
    rw [heq]
    rcases monomial_cases m.1 m.2 with heq | ⟨p, hp, heq⟩ | ⟨factors, heq, hfactors⟩
    · exact .inl ⟨m.1, heq⟩
    · exact .inr (.inl ⟨p, hpositive p hp, heq⟩)
    · refine .inr (.inr (.inl ⟨factors, heq, fun u hu => ?_⟩))
      rcases hfactors u hu with rfl | ⟨p, hp, rfl⟩
      · exact .inl ⟨m.1, rfl⟩
      · exact .inr ⟨p, hpositive p hp, rfl⟩
  | m :: n :: rest, _ => exact .inr (.inr (.inr ⟨_, rfl⟩))

theorem toPolynomial_symbolPower (p : String × Nat) :
    toPolynomial (symbolPower p) = MvPolynomial.monomial (Finsupp.single p.1 p.2) 1 := by
  unfold symbolPower
  split
  case isTrue h => rw [toPolynomial, h, X]
  case isFalse => rw [toPolynomial_power, toPolynomial, X_pow_eq_monomial]

theorem toPolynomial_map_symbolPower (b : Exponents) :
    ((b.map symbolPower).map toPolynomial).prod = MvPolynomial.monomial b.toFinsupp 1 := by
  induction b with
  | nil => simp [Exponents.toFinsupp]
  | cons p b ih =>
    rw [List.map_cons, List.map_cons, List.prod_cons, ih, toPolynomial_symbolPower,
      monomial_mul, one_mul, Exponents.toFinsupp_cons]

theorem toPolynomial_monomial (c : Rat) (b : Exponents) :
    toPolynomial (monomial c b) = MvPolynomial.monomial b.toFinsupp c := by
  unfold monomial
  split
  case isTrue h => rw [h, toPolynomial_number]; rfl
  case isFalse =>
    split
    case isTrue h => rw [toPolynomial_productOf, toPolynomial_map_symbolPower, h]
    case isFalse =>
      rw [toPolynomial, toPolynomials_eq_map, List.map_cons, List.prod_cons,
        toPolynomial_map_symbolPower, toPolynomial_number, C_mul_monomial, mul_one]

theorem toPolynomial_ofMonomials (ms : Monomials) :
    toPolynomial (ofMonomials ms) = ms.toPolynomial := by
  rw [ofMonomials, toPolynomial_sumOf, List.map_map]
  simp only [Function.comp_def, toPolynomial_monomial, Monomials.toPolynomial]

/-- Expanded terms that are the same polynomial are equal. -/
theorem IsExpandedForm.eq_of_toPolynomial_eq {t u : Term} (ht : t.IsExpandedForm)
    (hu : u.IsExpandedForm) (h : t.toPolynomial = u.toPolynomial) : t = u := by
  obtain ⟨ms, hms, rfl⟩ := ht
  obtain ⟨ns, hns, rfl⟩ := hu
  rw [toPolynomial_ofMonomials, toPolynomial_ofMonomials] at h
  rw [Monomials.eq_of_toPolynomial_eq hms hns h]

end Term

end EquationSolver
