import EquationSolver.Proofs.Expanded.Merging
import EquationSolver.Proofs.Expanded.Value
import Mathlib.Algebra.MvPolynomial.NoZeroDivisors

/-!
# Products and powers of expanded terms

Numbers go into the coefficient and powers of one symbol are merged, so that a product of
monomials is a monomial.  Sums among the factors are multiplied out term by term.  A product
of expanded terms is therefore expanded, unless it is left as it is because it would have too
many terms.

A power with a positive integer exponent is computed for numbers, pushed into products and
powers, and multiplied out for sums, so that it is expanded again unless a limit keeps it from
being computed.  The power of a sum is a sum: a power of a polynomial is a monomial only if
the polynomial is one.
-/

namespace EquationSolver

open Term

namespace Reduction

/-! ### Requirements on products -/

/-- Products of monomials are monomials, and expanded. -/
def MultipliesMonomials (mul : List Term → Build Term) : Prop :=
  ∀ factors, (∀ t ∈ factors, t.IsMonomial) →
    (mul factors).value.IsMonomial ∧ (mul factors).value.IsExpandedForm

theorem isExpandedForm_number (a : Rat) : (Term.number a).IsExpandedForm := by
  by_cases ha : a = 0
  · exact ⟨[], ⟨by simp, by simp, List.Pairwise.nil⟩, by rw [ha]; rfl⟩
  · refine ⟨[(a, [])], ⟨by simpa using ha, ?_, List.pairwise_singleton _ _⟩, rfl⟩
    simpa using ⟨by simp, List.Pairwise.nil⟩

theorem isExpandedForm_monomial {c : Rat} (hc : c ≠ 0) {b : Exponents} (hb : b.IsReduced) :
    (monomial c b).IsExpandedForm :=
  ⟨[(c, b)], ⟨by simpa using hc, by simpa using hb, List.pairwise_singleton _ _⟩, rfl⟩

/-! ### Multiplying out -/

theorem pairwise_monomials {mul : List Term → Build Term} (hmul : MultipliesMonomials mul)
    {left right : List Term} (hleft : ∀ t ∈ left, t.IsMonomial)
    (hright : ∀ t ∈ right, t.IsMonomial) :
    ∀ t ∈ (pairwise mul left right).value, t.IsMonomial := by
  intro t ht
  rw [pairwise, Build.value_each] at ht
  obtain ⟨⟨a, b⟩, hab, rfl⟩ := List.mem_map.1 ht
  obtain ⟨a', ha, hb⟩ := List.mem_flatMap.1 hab
  obtain ⟨b', hb, heq⟩ := List.mem_map.1 hb
  cases heq
  exact (hmul [a, b] (by simpa using ⟨hleft a ha, hright b hb⟩)).1

theorem multiplySums_monomials {mul : List Term → Build Term} (hmul : MultipliesMonomials mul)
    {sums found : List Term} (hsums : ∀ t ∈ sums, t.IsExpandedForm)
    (hfound : ∀ t ∈ found, t.IsMonomial) :
    ∀ t ∈ (multiplySums mul found sums).value, t.IsMonomial := by
  induction sums generalizing found with
  | nil => exact hfound
  | cons sum sums ih =>
    obtain ⟨hsum, hsums⟩ := List.forall_mem_cons.1 hsums
    rw [multiplySums, Build.value_bind]
    exact ih hsums (pairwise_monomials hmul hfound (isMonomial_of_mem_summands hsum))

theorem add_monomials {terms : List Term} (h : ∀ t ∈ terms, t.IsMonomial) :
    (add terms).value.IsExpandedForm := by
  refine add_isExpandedForm fun t ht u hu => ?_
  rw [summands_of_not_isSum (h t ht).isSum, List.mem_singleton] at hu
  rw [hu]
  exact h t ht

/-- A product that keeps a sum among its factors is unexpanded, unless the sum is all there
    is. -/
theorem eq_singleton_of_sortedProduct {c : Rat} {factors : List Term}
    (hsum : ∃ t ∈ factors, t.isSum = true)
    (h : (sortedProduct (.exact c) factors).IsExpanded) :
    ∃ t ∈ factors, t.isSum = true ∧ (sortedProduct (.exact c) factors).value = t := by
  obtain ⟨t, ht, htrue⟩ := hsum
  have hperm := sortBy_perm Term.compare factors
  have hsorted := hperm.mem_iff.2 ht
  unfold sortedProduct at h ⊢
  generalize sortBy Term.compare factors = sorted at h hperm hsorted ⊢
  match sorted, hsorted with
  | [u], hsorted =>
    rw [List.mem_singleton] at hsorted
    subst hsorted
    by_cases hone : (Coefficient.exact c).isOne
    · exact ⟨t, ht, htrue, by simp [hone, Build.product]⟩
    · simp [hone, Build.product, Build.IsExpanded, productOf, isUnexpanded, htrue] at h
  | u :: v :: rest, hsorted =>
    have hany : (u :: v :: rest).any isSum = true := List.any_eq_true.2 ⟨t, hsorted, htrue⟩
    by_cases hone : (Coefficient.exact c).isOne
    · have := h (.product (u :: v :: rest)) (by simp [hone, Build.product, productOf])
      rw [isUnexpanded, hany] at this
      cases this
    · have := h (.product (Coefficient.toTerm (.exact c) :: u :: v :: rest))
        (by simp [hone, Build.product, productOf])
      rw [isUnexpanded, List.any_cons, hany, Bool.or_true] at this
      cases this

/-- Multiplied out, factors become an expanded sum. -/
theorem distribute_isExpandedForm {s : Settings} {mul : List Term → Build Term}
    (hmul : MultipliesMonomials mul) {c : Rat} {factors : List Term}
    (h : ∀ t ∈ factors, IsFactor t) (hdiffer : SymbolsDiffer factors)
    (hsum : ∃ t ∈ factors, t.isSum = true)
    (hexpanded : (distribute s mul (.exact c) factors).IsExpanded) :
    (distribute s mul (.exact c) factors).value.IsExpandedForm := by
  have hform : ∀ t ∈ factors, t.isSum = true → t.IsExpandedForm := by
    intro t ht htrue
    rcases h t ht with ⟨p, -, rfl⟩ | ⟨hform, -⟩
    · rw [isSum_symbolPower] at htrue
      cases htrue
    · exact hform
  unfold distribute at hexpanded ⊢
  simp only [List.partition_eq_filter_filter] at hexpanded ⊢
  split
  case isTrue hmany =>
    rw [if_pos hmany] at hexpanded
    obtain ⟨t, ht, htrue, heq⟩ := eq_singleton_of_sortedProduct hsum hexpanded
    rw [heq]
    exact hform t ht htrue
  case isFalse =>
    have hothers : ∀ t ∈ factors.filter (not ∘ isSum), t.isSum = false := by
      intro t ht
      simpa using (List.mem_filter.1 ht).2
    obtain ⟨b, hb, hfirst⟩ := sortedProduct_monomial
      (fun t ht => h t (List.mem_of_mem_filter ht)) hothers (hdiffer.filter _) c
    simp only [Build.value_bind]
    refine add_monomials (multiplySums_monomials hmul (fun t ht => ?_) fun t ht => ?_)
    · obtain ⟨ht, htrue⟩ := List.mem_filter.1 ht
      exact hform t ht htrue
    · rw [List.mem_singleton.1 ht]
      exact ⟨c, b, hb, hfirst⟩

/-! ### Products -/

/-- What is left of operands when their numbers are absorbed and their powers are merged. -/
theorem mulWith_eq (s : Settings) {pow : Term → Term → Build Term}
    (mul : List Term → Build Term) (hsymbols : RaisesSymbols pow) {factors : List Term}
    (h : ∀ t ∈ factors, IsOperand t)
    (hsums : (∀ t ∈ factors, t.IsMonomial) ∨
      RaisesSums pow ∧ (mulWith s pow mul factors).IsExpanded) :
    ∃ (c : Rat) (others : List Term),
      (∀ t ∈ others, IsFactor t) ∧ (c ≠ 0 → SymbolsDiffer others) ∧
      ((∀ t ∈ factors, t.IsMonomial) → ∀ t ∈ others, t.isSum = false) ∧
      ∃ before : Build Unit, mulWith s pow mul factors = (do
        before
        if c = 0 then Build.make (.number 0)
        else if s.expands && others.any isSum then distribute s mul (.exact c) others
        else sortedProduct (.exact c) others) := by
  obtain ⟨c, others, habsorb, hothers, hnone⟩ := absorb_operands h
  have hplain : ∀ t ∈ others, IsPlain t := fun t ht => (hothers t ht).isPlain
  unfold mulWith at hsums ⊢
  simp only [habsorb, poison?_eq_none hplain, hasMatrix_eq_false hplain, Bool.false_eq_true,
    if_false] at hsums ⊢
  have hmerge : NeedsNoSums pow others
      (mergeRepeatedly pow maxMergePasses (.exact c) others) :=
    hsums.imp hnone fun ⟨hraises, hexpanded⟩ =>
      ⟨hraises, (Build.isExpanded_bind.1 hexpanded).1⟩
  obtain ⟨hmerged, hdiffer⟩ :=
    mergeRepeatedly_factors hsymbols maxMergePasses (.exact c) hothers hmerge
  generalize mergeRepeatedly pow maxMergePasses (.exact c) others = merged at hmerged hdiffer ⊢
  obtain ⟨⟨c', left⟩, trace⟩ := merged
  obtain ⟨rfl, hleft, hstill⟩ := hmerged
  dsimp only at hleft hstill hdiffer
  have hplain : ∀ t ∈ left, IsPlain t := fun t ht => (hleft t ht).isPlain
  refine ⟨c, left, hleft, fun hc => hdiffer (.inr (by decide)) (by simpa [Coefficient.isZero]),
    fun h => hstill (hnone h), ⟨(), trace⟩, ?_⟩
  refine congrArg (fun b : Build Term => (⟨b.value, trace ++ b.trace⟩ : Build Term)) ?_
  simp only [poison?_eq_none hplain]
  by_cases hc : c = 0 <;> simp [hc, Coefficient.isZero, Coefficient.toTerm]

/-- A product of monomials is a monomial, and expanded. -/
theorem multipliesMonomials_mulWith (s : Settings) {pow : Term → Term → Build Term}
    (mul : List Term → Build Term) (hsymbols : RaisesSymbols pow) :
    MultipliesMonomials (mulWith s pow mul) := by
  intro factors h
  obtain ⟨c, others, hothers, hdiffer, hsums, before, heq⟩ :=
    mulWith_eq s mul hsymbols (fun t ht => .inl (h t ht)) (.inl h)
  have hnone : others.any isSum = false := List.any_eq_false.2 fun t ht => by simp [hsums h t ht]
  rw [heq, Build.value_bind, hnone, Bool.and_false]
  by_cases hc : c = 0
  · rw [if_pos hc]
    exact ⟨isMonomial_number 0, isExpandedForm_number 0⟩
  · obtain ⟨b, hb, hvalue⟩ := sortedProduct_monomial hothers (hsums h) (hdiffer hc) c
    rw [if_neg hc, if_neg Bool.false_ne_true, hvalue]
    exact ⟨⟨c, b, hb, rfl⟩, isExpandedForm_monomial hc hb⟩

/-- A product of expanded terms is expanded, where products are multiplied out and nothing is
    left unexpanded. -/
theorem mulWith_isExpandedForm {s : Settings} {pow : Term → Term → Build Term}
    {mul : List Term → Build Term} (hs : s.expands = true) (hsymbols : RaisesSymbols pow)
    (hraises : RaisesSums pow) (hmul : MultipliesMonomials mul) {factors : List Term}
    (h : ∀ t ∈ factors, IsOperand t) (hexpanded : (mulWith s pow mul factors).IsExpanded) :
    (mulWith s pow mul factors).value.IsExpandedForm := by
  obtain ⟨c, others, hothers, hdiffer, -, before, heq⟩ :=
    mulWith_eq s mul hsymbols h (.inr ⟨hraises, hexpanded⟩)
  rw [heq] at hexpanded ⊢
  have hrest := (Build.isExpanded_bind.1 hexpanded).2
  rw [Build.value_bind]
  by_cases hc : c = 0
  · rw [if_pos hc]
    exact isExpandedForm_number 0
  · rw [if_neg hc] at hrest ⊢
    cases hany : others.any isSum with
    | true =>
      rw [hany, hs, if_pos (by decide)] at hrest
      rw [hs, if_pos (by decide)]
      exact distribute_isExpandedForm hmul hothers (hdiffer hc) (List.any_eq_true.1 hany) hrest
    | false =>
      have hsums : ∀ t ∈ others, t.isSum = false := by simpa using hany
      obtain ⟨b, hb, hvalue⟩ := sortedProduct_monomial hothers hsums (hdiffer hc) c
      rw [Bool.and_false, if_neg Bool.false_ne_true, hvalue]
      exact isExpandedForm_monomial hc hb

end Reduction

namespace Reduction

variable {s : Settings} {pow : Term → Term → Build Term} {mul : List Term → Build Term}

/-! ### The cases of a power -/

theorem isZero_exponent {n : Nat} (hn : 0 < n) : (Term.number (n : Rat)).isZero = false := by
  simp only [Term.isZero, decide_eq_false_iff_not, Nat.cast_eq_zero]
  omega

theorem isOne_exponent {n : Nat} (hn : 2 ≤ n) : (Term.number (n : Rat)).isOne = false := by
  simp only [Term.isOne, decide_eq_false_iff_not, Nat.cast_eq_one]
  omega

theorem isPlain_number (a : Rat) : IsPlain (.number a) := trivial

theorem isPlain_operands {base : Term} (h : IsPlain base) (a : Rat) :
    ∀ t ∈ [base, .number a], IsPlain t := by
  intro t ht
  rcases List.mem_pair.1 ht with rfl | rfl
  · exact h
  · trivial

theorem powWith_one {base : Term} (h : IsPlain base) :
    powWith s pow mul base (.number ((1 : Nat) : Rat)) = pure base := by
  have hplain := isPlain_operands h ((1 : Nat) : Rat)
  unfold powWith
  simp only [poison?_eq_none hplain, hasMatrix_eq_false hplain, Bool.false_eq_true, if_false]
  simp [Term.isZero, Term.isOne]

/-- A higher power of a term that is no number depends on the kind of the term. -/
theorem powWith_eq_exactPower {base : Term} (h : IsPlain base) (hnumeric : base.isNumeric = false)
    {n : Nat} (hn : 2 ≤ n) :
    powWith s pow mul base (.number (n : Rat)) = exactPower s pow mul base (n : Rat) := by
  have hplain := isPlain_operands h (n : Rat)
  have hbase : base.isOne = false := by
    cases base <;> first | rfl | simp [Term.isNumeric] at hnumeric
  unfold powWith
  simp only [poison?_eq_none hplain, hasMatrix_eq_false hplain,
    isZero_exponent (Nat.zero_lt_of_lt hn), isOne_exponent hn, hbase, Bool.false_eq_true,
    if_false, Bool.or_false]
  split
  case h_1 => simp [Term.isNumeric] at hnumeric
  case h_2 b e _ heq =>
    cases heq
    rw [hnumeric]
    rfl
  case h_3 hnumber _ => exact (hnumber _ rfl).elim

/-- An integer power of a number is a number, unless a limit keeps it from being computed. -/
theorem powWith_integer {a : Rat} {n : Int} (hn : n ≠ 0) (ha : a = 0 → 0 < n)
    (hexpanded : (powWith s pow mul (.number a) (.number (n : Rat))).IsExpanded) :
    ∃ b, (powWith s pow mul (.number a) (.number (n : Rat))).value = .number b := by
  have hplain := isPlain_operands (isPlain_number a) (n : Rat)
  have hleft : ¬ (Build.make (.power (.number a) (.number (n : Rat)))).IsExpanded := by
    simp [Build.isExpanded_make, isUnexpanded, Term.isNumeric]
  have hexponent : (Term.number (n : Rat)).isZero = false := by simpa [Term.isZero] using hn
  unfold powWith at hexpanded ⊢
  simp only [poison?_eq_none hplain, hasMatrix_eq_false hplain, hexponent,
    Bool.false_eq_true, if_false] at hexpanded ⊢
  split
  case isTrue => exact ⟨a, rfl⟩
  case isFalse hone =>
    rw [if_neg hone] at hexpanded
    unfold rationalPower at hexpanded ⊢
    split
    case isTrue hzero =>
      have hpos : 0 < (n : Rat) := by exact_mod_cast ha hzero
      exact ⟨0, by rw [if_pos hpos]; rfl⟩
    case isFalse ha =>
      rw [if_neg ha] at hexpanded
      cases hrange : Rational.toInt64Range? (n : Rat) with
      | none =>
        simp only [hrange, Rational.toInt64Range?_num_of_none hrange] at hexpanded
        exact (hleft hexpanded).elim
      | some m =>
        simp only [hrange] at hexpanded ⊢
        split
        case isTrue hfits =>
          rw [if_pos hfits] at hexpanded
          exact (hleft hexpanded).elim
        case isFalse hfits =>
          rw [if_neg hfits] at hexpanded
          cases hpower : Rational.integerPower? a m with
          | none =>
            rw [hpower] at hexpanded
            exact (hleft hexpanded).elim
          | some b => exact ⟨b, rfl⟩

theorem powWith_number {a : Rat} {n : Nat} (hn : 0 < n)
    (hexpanded : (powWith s pow mul (.number a) (.number (n : Rat))).IsExpanded) :
    ∃ b, (powWith s pow mul (.number a) (.number (n : Rat))).value = .number b := by
  rw [← Int.cast_natCast] at hexpanded ⊢
  exact powWith_integer (by omega) (fun _ => by omega) hexpanded

/-! ### Powers of symbols -/

theorem isPlain_symbol (name : String) : IsPlain (.symbol name) := trivial

theorem isPlain_product (factors : List Term) : IsPlain (.product factors) := trivial

theorem isPlain_sum (terms : List Term) : IsPlain (.sum terms) := trivial

theorem symbolPower_eq_power {name : String} {n : Nat} (hn : 2 ≤ n) :
    symbolPower (name, n) = .power (.symbol name) (.number (n : Rat)) :=
  if_neg (by omega)

theorem raisesSymbols_plainPow : RaisesSymbols plainPow := by
  intro name n hn
  have hplain := isPlain_operands (isPlain_symbol name) (n : Rat)
  have hbase : (Term.symbol name).isOne = false := rfl
  unfold plainPow
  simp only [poison?_eq_none hplain, hasMatrix_eq_false hplain,
    isZero_exponent (Nat.zero_lt_of_lt hn), isOne_exponent hn, hbase, Bool.false_eq_true,
    if_false, Bool.or_false]
  rw [symbolPower_eq_power hn, Build.value_make]

theorem raisesSymbols_powWith : RaisesSymbols (powWith s pow mul) := by
  intro name n hn
  rw [powWith_eq_exactPower (isPlain_symbol name) rfl hn, symbolPower_eq_power hn]
  rfl

theorem raisesSymbols_powWithin (s : Settings) (depth : Nat) :
    RaisesSymbols (powWithin s depth) := by
  cases depth with
  | zero => exact raisesSymbols_plainPow
  | succ depth => exact raisesSymbols_powWith

theorem powWith_symbolPower (hsymbols : RaisesSymbols pow) (hnumbers : MultipliesNumbers mul)
    {p : String × Nat} (hp : 0 < p.2) {n : Nat} (hn : 0 < n) :
    ∃ q : String × Nat, 0 < q.2 ∧
      (powWith s pow mul (symbolPower p) (.number (n : Rat))).value = symbolPower q := by
  by_cases hone : n = 1
  · rw [hone, powWith_one (isPlain_symbolPower p)]
    exact ⟨p, hp, rfl⟩
  · rw [powWith_eq_exactPower (isPlain_symbolPower p) (isNumeric_symbolPower p) (by omega)]
    by_cases hfirst : p.2 = 1
    · have hbase : symbolPower p = .symbol p.1 := if_pos hfirst
      rw [hbase]
      exact ⟨(p.1, n), hn, (symbolPower_eq_power (by omega)).symm⟩
    · have hproduct : 2 ≤ p.2 * n :=
        le_trans (by omega) (Nat.le_mul_of_pos_right p.2 hn)
      refine ⟨(p.1, p.2 * n), by omega, ?_⟩
      have htoInt : Rational.toInt? (n : Rat) = some (n : Int) := Rational.toInt?_intCast n
      rw [symbolPower, if_neg hfirst]
      simp only [exactPower, htoInt, Build.value_bind]
      rw [hnumbers, ← Nat.cast_mul]
      exact hsymbols p.1 _ hproduct

/-! ### Powers of expanded terms -/

/-- Powers of numbers and of powers of symbols are monomials, unless they are left
    unexpanded. -/
def RaisesFactors (pow : Term → Term → Build Term) : Prop :=
  ∀ (base : Term) (n : Nat), base.IsMonomialFactor → 0 < n →
    (pow base (.number (n : Rat))).IsExpanded → (pow base (.number (n : Rat))).value.IsMonomial

theorem isReduced_singleton {p : String × Nat} (h : 0 < p.2) : Exponents.IsReduced [p] :=
  ⟨by simpa using h, List.pairwise_singleton _ _⟩

theorem symbolPower_eq_monomial (p : String × Nat) : symbolPower p = monomial 1 [p] := by
  simp [monomial, productOf]

theorem raisesFactors_powWith (hsymbols : RaisesSymbols pow) (hnumbers : MultipliesNumbers mul) :
    RaisesFactors (powWith s pow mul) := by
  intro base n hbase hn hexpanded
  rcases hbase with ⟨a, rfl⟩ | ⟨p, hp, rfl⟩
  · obtain ⟨b, hb⟩ := powWith_number hn hexpanded
    rw [hb]
    exact isMonomial_number b
  · obtain ⟨q, hq, hvalue⟩ := powWith_symbolPower hsymbols hnumbers hp hn
    rw [hvalue]
    exact ⟨1, [q], isReduced_singleton hq, symbolPower_eq_monomial q⟩

/-- Multiplied to itself again and again, an expanded term stays expanded. -/
theorem multiplyRepeatedly_isExpandedForm (hmul : MultipliesMonomials mul) {base : Term}
    (hbase : base.IsExpandedForm) (count : Nat) {found : Term} (hfound : found.IsExpandedForm) :
    (multiplyRepeatedly mul base count found).value.IsExpandedForm := by
  induction count generalizing found with
  | zero => exact hfound
  | succ count ih =>
    rw [multiplyRepeatedly, Build.value_bind, Build.value_bind]
    exact ih (add_monomials (pairwise_monomials hmul (isMonomial_of_mem_summands hfound)
      (isMonomial_of_mem_summands hbase)))

/-- A power of an expanded term is expanded, unless it is left as it is. -/
theorem powWith_isExpandedForm (hsymbols : RaisesSymbols pow) (hfactors : RaisesFactors pow)
    (hnumbers : MultipliesNumbers mul) (hmul : MultipliesMonomials mul) {base : Term}
    (h : base.IsExpandedForm) {n : Nat} (hn : 0 < n)
    (hexpanded : (powWith s pow mul base (.number (n : Rat))).IsExpanded) :
    (powWith s pow mul base (.number (n : Rat))).value.IsExpandedForm := by
  have htoInt : Rational.toInt? (n : Rat) = some (n : Int) := Rational.toInt?_intCast n
  rcases h.cases with ⟨a, rfl⟩ | ⟨p, hp, rfl⟩ | ⟨factors, rfl, hbase⟩ | ⟨terms, rfl⟩
  · obtain ⟨b, hb⟩ := powWith_number hn hexpanded
    rw [hb]
    exact isExpandedForm_number b
  · obtain ⟨q, hq, hvalue⟩ := powWith_symbolPower hsymbols hnumbers hp hn
    rw [hvalue, symbolPower_eq_monomial]
    exact isExpandedForm_monomial one_ne_zero (isReduced_singleton hq)
  · by_cases hone : n = 1
    · rw [hone, powWith_one (isPlain_product factors)]
      exact h
    · rw [powWith_eq_exactPower (isPlain_product factors) rfl (by omega)] at hexpanded ⊢
      simp only [exactPower, htoInt, Build.isExpanded_bind, Build.isExpanded_each] at hexpanded
      simp only [exactPower, htoInt, Build.value_bind, Build.value_each]
      refine (hmul _ fun t ht => ?_).2
      obtain ⟨u, hu, rfl⟩ := List.mem_map.1 ht
      exact hfactors u n (hbase u hu) hn (hexpanded.1 u hu)
  · by_cases hone : n = 1
    · rw [hone, powWith_one (isPlain_sum terms)]
      exact h
    · rw [powWith_eq_exactPower (isPlain_sum terms) rfl (by omega)] at hexpanded ⊢
      simp only [exactPower, htoInt] at hexpanded ⊢
      split
      case isTrue => exact multiplyRepeatedly_isExpandedForm hmul h _ h
      case isFalse hlimits =>
        rw [if_neg hlimits, Build.isExpanded_make] at hexpanded
        simp [isUnexpanded, isSum] at hexpanded

end Reduction

end EquationSolver
