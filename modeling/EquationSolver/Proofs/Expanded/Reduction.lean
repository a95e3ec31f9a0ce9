import EquationSolver.Proofs.Expanded.Value
import EquationSolver.Proofs.Expanded.Power

/-!
# The reduced form of a polynomial

Where products are multiplied out, the reduced form of a polynomial is expanded, unless a
product or a power on the way to it was left unexpanded.  Expanded terms are equal when they
are the same polynomial, so reduction decides whether two polynomials are the same.
-/

namespace EquationSolver

open MvPolynomial Term

namespace Term

/-- An expanded term that is no sum is a monomial. -/
theorem IsExpandedForm.exists_monomial {t : Term} (h : t.IsExpandedForm)
    (hsum : t.isSum = false) : ∃ (c : Rat) (b : Exponents), b.IsReduced ∧ t = monomial c b := by
  obtain ⟨ms, hms, rfl⟩ := h
  match ms, hms with
  | [], _ => exact ⟨0, [], ⟨by simp, List.Pairwise.nil⟩, rfl⟩
  | [m], hms => exact ⟨m.1, m.2, hms.exponents m List.mem_cons_self, rfl⟩
  | m :: n :: rest, _ => cases hsum

/-- Two terms of an expanded sum. -/
theorem IsExpandedForm.exists_coeff_ne_zero {t : Term} (h : t.IsExpandedForm)
    (hsum : t.isSum = true) : ∃ d d' : String →₀ Nat, d ≠ d' ∧
      coeff d t.toPolynomial ≠ 0 ∧ coeff d' t.toPolynomial ≠ 0 := by
  obtain ⟨ms, hms, rfl⟩ := h
  rw [toPolynomial_ofMonomials]
  match ms, hms with
  | [], _ => cases hsum
  | [m], _ =>
    have heq : ofMonomials [m] = monomial m.1 m.2 := rfl
    rw [heq, monomial_isSum] at hsum
    cases hsum
  | m :: n :: rest, hms =>
    have hm : m ∈ m :: n :: rest := by simp
    have hn : n ∈ m :: n :: rest := by simp
    refine ⟨m.2.toFinsupp, n.2.toFinsupp, fun heq => ?_, ?_, ?_⟩
    · have hlt := (List.pairwise_cons.1 hms.ascending).1 n (by simp)
      rw [Exponents.eq_of_toFinsupp_eq (hms.exponents m hm) (hms.exponents n hn) heq] at hlt
      exact Std.OrientedCmp.not_lt_of_lt hlt hlt
    · rw [hms.coeff_eq hm]
      exact hms.coefficient_ne_zero m hm
    · rw [hms.coeff_eq hn]
      exact hms.coefficient_ne_zero n hn

/-- A sum is not the monomial that it would have to be if a power of it were one. -/
theorem IsExpandedForm.isSum_of_pow {base t : Term} (hbase : base.IsExpandedForm)
    (hsum : base.isSum = true) (ht : t.IsExpandedForm) {n : Nat} (hn : 0 < n)
    (h : t.toPolynomial = base.toPolynomial ^ n) : t.isSum = true := by
  by_contra hnone
  obtain ⟨c, b, -, rfl⟩ := ht.exists_monomial (Bool.not_eq_true _ ▸ hnone)
  obtain ⟨d, d', hne, hd, hd'⟩ := hbase.exists_coeff_ne_zero hsum
  rw [toPolynomial_monomial] at h
  have hc : c ≠ 0 := by
    rintro rfl
    rw [map_zero] at h
    rw [pow_eq_zero_iff hn.ne' |>.1 h.symm, coeff_zero] at hd
    exact hd rfl
  have hdvd : base.toPolynomial ∣ MvPolynomial.monomial b.toFinsupp c := by
    rw [h]
    exact dvd_pow_self _ hn.ne'
  obtain ⟨m, a, -, -, heq⟩ := (dvd_monomial_iff_exists hc).1 hdvd
  rw [heq, coeff_monomial] at hd hd'
  apply hne
  rw [← (ite_ne_right_iff.1 hd).1, ← (ite_ne_right_iff.1 hd').1]

end Term

namespace Reduction

variable {s : Settings}

/-! ### Products and powers within a depth -/

theorem multipliesMonomials_mulWithin (s : Settings) (depth : Nat) :
    MultipliesMonomials (mulWithin s (depth + 1)) :=
  multipliesMonomials_mulWith s _ (raisesSymbols_powWithin s depth)

theorem raisesFactors_powWithin (s : Settings) (depth : Nat) :
    RaisesFactors (powWithin s (depth + 1)) :=
  raisesFactors_powWith (raisesSymbols_powWithin s depth) (multipliesNumbers_mulWithin s depth)

theorem powWithin_isExpandedForm (depth : Nat) {base : Term} (h : base.IsExpandedForm) {n : Nat}
    (hn : 0 < n) (hexpanded : (powWithin s (depth + 2) base (.number (n : Rat))).IsExpanded) :
    (powWithin s (depth + 2) base (.number (n : Rat))).value.IsExpandedForm :=
  powWith_isExpandedForm (raisesSymbols_powWithin s (depth + 1)) (raisesFactors_powWithin s depth)
    (multipliesNumbers_mulWithin s (depth + 1)) (multipliesMonomials_mulWithin s depth) h hn
    hexpanded

/-- A power of a polynomial that is a polynomial again is the power. -/
theorem toPolynomial_powWithin (depth : Nat) {base : Term} (h : base.IsPolynomial) {n : Nat}
    (hn : 0 < n) (hpower : (powWithin s depth base (.number (n : Rat))).value.IsPolynomial) :
    (powWithin s depth base (.number (n : Rat))).value.toPolynomial = base.toPolynomial ^ n := by
  have hvalue := IsPolynomial.denotes (.power base (.number (n : Rat)))
    (by rw [IsPolynomial]; exact ⟨h, n, hn, rfl⟩)
  have hkept := (powWithin_denotes (s := s) depth hvalue.hasValue).value_eq
  rw [hvalue.value_eq, (IsPolynomial.denotes _ hpower).value_eq] at hkept
  rw [RationalFunction.ofPolynomial_injective hkept, toPolynomial_power]

theorem raisesSums_powWithin (s : Settings) (depth : Nat) :
    RaisesSums (powWithin s (depth + 2)) := by
  intro base n hbase hsum hn hexpanded
  have hform := powWithin_isExpandedForm depth hbase (by omega) hexpanded
  have hpower := toPolynomial_powWithin (depth + 2) hbase.isPolynomial (by omega)
    hform.isPolynomial
  exact ⟨hform, hbase.isSum_of_pow hsum hform (by omega) hpower⟩

theorem IsOperand.of_isExpandedForm {t : Term} (h : t.IsExpandedForm) : IsOperand t := by
  cases hsum : t.isSum with
  | true => exact .inr ⟨h, hsum⟩
  | false => exact .inl (h.exists_monomial hsum)

theorem maxDepth_eq : maxDepth = 999997 + 3 := rfl

/-- A product of expanded terms is expanded, unless it is left as it is. -/
theorem mul_isExpandedForm (hs : s.expands = true) {factors : List Term}
    (h : ∀ t ∈ factors, t.IsExpandedForm) (hexpanded : (mul s factors).IsExpanded) :
    (mul s factors).value.IsExpandedForm := by
  rw [mul, maxDepth_eq] at hexpanded ⊢
  exact mulWith_isExpandedForm hs (raisesSymbols_powWithin s _) (raisesSums_powWithin s _)
    (multipliesMonomials_mulWithin s _) (fun t ht => .of_isExpandedForm (h t ht)) hexpanded

theorem pow_isExpandedForm {base : Term} (h : base.IsExpandedForm) {n : Nat} (hn : 0 < n)
    (hexpanded : (pow s base (.number (n : Rat))).IsExpanded) :
    (pow s base (.number (n : Rat))).value.IsExpandedForm := by
  rw [pow, maxDepth_eq] at hexpanded ⊢
  exact powWithin_isExpandedForm _ h hn hexpanded

/-! ### Powers of numbers -/

theorem isExpandedForm_pow_zero {base : Term} (hplain : IsPlain base)
    (hzero : base.isZero = false) : (pow s base (.number 0)).value.IsExpandedForm := by
  have hoperands := isPlain_operands hplain 0
  have hexponent : (Term.number 0).isZero = true := rfl
  rw [pow, maxDepth_eq, powWithin]
  unfold powWith
  simp only [poison?_eq_none hoperands, hasMatrix_eq_false hoperands, hexponent, hzero,
    Bool.false_eq_true, if_false, if_true]
  exact isExpandedForm_number 1

/-- An integer power of an expanded term is expanded if it is a polynomial, unless it is left as
    it is. -/
theorem pow_isExpandedForm_of_value {base : Term} {n : Int} (h : base.IsExpandedForm)
    (hvalue : HasPolynomialValue (.power base (.number (n : Rat))))
    (hexpanded : (pow s base (.number (n : Rat))).IsExpanded) :
    (pow s base (.number (n : Rat))).value.IsExpandedForm := by
  have hbase := IsPolynomial.denotes base h.isPolynomial
  rcases lt_trichotomy n 0 with hn | rfl | hn
  · -- a polynomial that is divided by is a number, and so is its expanded form
    obtain ⟨c, hc, hnumber⟩ := HasPolynomialValue.base_of_neg hn ⟨_, hbase⟩ hvalue
    have hconstant : base.toPolynomial = (Term.number c).toPolynomial := by
      apply RationalFunction.ofPolynomial_injective
      rw [toPolynomial_number, RationalFunction.ofPolynomial_C, ← hbase.value_eq, hnumber.value_eq]
    obtain rfl := h.eq_of_toPolynomial_eq (isExpandedForm_number c) hconstant
    rw [pow, maxDepth_eq, powWithin] at hexpanded ⊢
    obtain ⟨b, hb⟩ := powWith_integer hn.ne (fun hzero => absurd hzero hc) hexpanded
    rw [hb]
    exact isExpandedForm_number b
  · obtain ⟨-, hpower, -⟩ := hvalue
    rw [Int.cast_zero]
    have hplain : IsPlain base :=
      Valuation.isPlain_of_hasValue ((Assignment.hasValue_valuation base).2 hbase.hasValue)
    refine isExpandedForm_pow_zero hplain ?_
    by_contra hzero
    obtain rfl : base = .zero := by
      cases base <;> simp_all [Term.isZero, Term.zero]
    exact absurd ((hasValue_power.1 hpower).2 (by simp [Term.zero])) (lt_irrefl 0)
  · lift n to Nat using hn.le
    rw [Int.cast_natCast] at hexpanded ⊢
    exact pow_isExpandedForm h (by omega) hexpanded

/-! ### Polynomials -/

theorem isExpandedForm_symbol (name : String) : (Term.symbol name).IsExpandedForm := by
  have heq : Term.symbol name = Term.monomial 1 [(name, 1)] := symbolPower_eq_monomial (name, 1)
  rw [heq]
  exact isExpandedForm_monomial one_ne_zero (isReduced_singleton one_pos)

/-- Reducing the base of a power that is a polynomial leaves it one. -/
theorem hasPolynomialValue_reduceKept (s : Settings) {base : Term} {n : Int}
    (h : HasPolynomialValue (.power base (.number (n : Rat)))) :
    HasPolynomialValue (.power (reduceKept s base).value (.number (n : Rat))) := by
  obtain ⟨p, hvalue, heq⟩ := h
  obtain ⟨hbase, hpos⟩ := hasValue_power.1 hvalue
  obtain ⟨hreduced, hkept⟩ := reduceKept_denotes (s := s) base hbase
  exact ⟨p, hasValue_power.2 ⟨hreduced, hkept.symm ▸ hpos⟩, by rw [value_power, hkept, ← heq,
    value_power]⟩

theorem add_expanded {terms : List Term} (h : ∀ t ∈ terms, t.IsExpandedForm) :
    (add terms).value.IsExpandedForm :=
  add_isExpandedForm fun t ht => isMonomial_of_mem_summands (h t ht)

mutual

/-- The reduced form of a polynomial expression is expanded, unless a part of it is left
    unexpanded. -/
theorem expression_isExpandedForm (hs : s.expands = true) : ∀ t : Term,
    t.IsPolynomialExpression → (reduceKept s t).IsExpanded →
      (reduceKept s t).value.IsExpandedForm
  | .number a, _, _ => by
    rw [reduceKept_number]
    exact isExpandedForm_number a
  | .symbol name, _, _ => by
    rw [reduceKept_symbol]
    exact isExpandedForm_symbol name
  | .sum terms, h, hexpanded => by
    rw [IsPolynomialExpression] at h
    rw [reduceKept, Build.isExpanded_bind] at hexpanded
    rw [reduceKept, Build.value_bind]
    exact add_expanded (expressions_areExpandedForms hs terms h hexpanded.1)
  | .product factors, h, hexpanded => by
    rw [IsPolynomialExpression] at h
    rw [reduceKept, Build.isExpanded_bind] at hexpanded
    rw [reduceKept, Build.value_bind]
    exact mul_isExpandedForm hs (expressions_areExpandedForms hs factors h hexpanded.1)
      hexpanded.2
  | .power base exponent, h, hexpanded => by
    rw [IsPolynomialExpression] at h
    obtain ⟨hbase, n, rfl, hvalue⟩ := h
    rw [reduceKept, reduceKept_number, Build.isExpanded_bind, Build.isExpanded_bind] at hexpanded
    rw [reduceKept, reduceKept_number, Build.value_bind, Build.value_bind]
    exact pow_isExpandedForm_of_value (expression_isExpandedForm hs base hbase hexpanded.1)
      (hasPolynomialValue_reduceKept s hvalue) hexpanded.2.2
  | .negation a, h, hexpanded => by
    rw [IsPolynomialExpression] at h
    rw [reduceKept, Build.isExpanded_bind, Build.isExpanded_bind] at hexpanded
    rw [reduceKept, Build.value_bind, Build.value_bind]
    refine mul_isExpandedForm hs (fun t ht => ?_) hexpanded.2.2
    rcases List.mem_pair.1 ht with rfl | rfl
    · exact isExpandedForm_number (-1)
    · exact expression_isExpandedForm hs a h hexpanded.1
  | .quotient a b, h, hexpanded => by
    rw [IsPolynomialExpression, number_minusOne] at h
    rw [reduceKept] at hexpanded ⊢
    simp only [Build.isExpanded_bind, Build.value_number, number_minusOne] at hexpanded
    simp only [Build.value_bind, Build.value_number, number_minusOne]
    obtain ⟨hleft, hright, -, hinverse, hproduct⟩ := hexpanded
    refine mul_isExpandedForm hs (fun t ht => ?_) hproduct
    rcases List.mem_pair.1 ht with rfl | rfl
    · exact expression_isExpandedForm hs a h.1 hleft
    · exact pow_isExpandedForm_of_value (expression_isExpandedForm hs b h.2.1 hright)
        (hasPolynomialValue_reduceKept s h.2.2) hinverse
  | .decimal _, h, _ | .constant _, h, _ | .undefined, h, _ | .nonreal, h, _
  | .apply _ _, h, _ | .matrix _ _ _, h, _ => by
    simp [IsPolynomialExpression] at h

theorem expressions_areExpandedForms (hs : s.expands = true) : ∀ terms : List Term,
    ArePolynomialExpressions terms → (reduceKeptAll s terms).IsExpanded →
      ∀ t ∈ (reduceKeptAll s terms).value, t.IsExpandedForm
  | [], _, _ => by
    rw [reduceKeptAll]
    simp
  | t :: ts, h, hexpanded => by
    rw [ArePolynomialExpressions] at h
    rw [reduceKeptAll, Build.isExpanded_bind, Build.isExpanded_bind] at hexpanded
    rw [reduceKeptAll]
    simp only [Build.value_bind, Build.value_pure]
    exact List.forall_mem_cons.2 ⟨expression_isExpandedForm hs t h.1 hexpanded.1,
      expressions_areExpandedForms hs ts h.2 hexpanded.2.1⟩

end

theorem reduceKept_isExpandedForm (hs : s.expands = true) (t : Term) (ht : t.IsPolynomial)
    (hexpanded : (reduceKept s t).IsExpanded) : (reduceKept s t).value.IsExpandedForm :=
  expression_isExpandedForm hs t (IsPolynomial.isPolynomialExpression t ht) hexpanded

/-- Polynomials are the same exactly if their reduced forms are. -/
theorem reduceKept_eq_iff (hs : s.expands = true) {t u : Term} (ht : t.IsPolynomial)
    (hu : u.IsPolynomial) (hexpanded : (reduceKept s t).IsExpanded)
    (hexpanded' : (reduceKept s u).IsExpanded) :
    (reduceKept s t).value = (reduceKept s u).value ↔ t.toPolynomial = u.toPolynomial := by
  have hform := reduceKept_isExpandedForm hs t ht hexpanded
  have hform' := reduceKept_isExpandedForm hs u hu hexpanded'
  have hkept := toPolynomial_reduceKept s ht hform.isPolynomial
  have hkept' := toPolynomial_reduceKept s hu hform'.isPolynomial
  constructor
  · intro heq
    rw [← hkept, ← hkept', heq]
  · intro heq
    apply hform.eq_of_toPolynomial_eq hform'
    rw [hkept, hkept', heq]

end Reduction

end EquationSolver
