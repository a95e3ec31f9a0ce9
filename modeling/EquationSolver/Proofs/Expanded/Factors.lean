import EquationSolver.Proofs.Expanded.Sum

/-!
# Factors of expanded terms

Flattened, the factors of a product of expanded terms are numbers, powers of symbols and
sums.  Powers of different symbols are sorted into a monomial.
-/

namespace EquationSolver

open Term

namespace Reduction

/-! ### Factors -/

/-- A power of a symbol, or a sum. -/
def IsFactor (t : Term) : Prop :=
  (∃ p : String × Nat, 0 < p.2 ∧ t = symbolPower p) ∨ (t.IsExpandedForm ∧ t.isSum = true)

/-- The term is expanded, or at least a monomial. -/
def IsOperand (t : Term) : Prop :=
  t.IsMonomial ∨ (t.IsExpandedForm ∧ t.isSum = true)

theorem IsFactor.ne_product {t : Term} (h : IsFactor t) (factors : List Term) :
    t ≠ .product factors := by
  rcases h with ⟨p, -, rfl⟩ | ⟨-, hsum⟩
  · exact symbolPower_ne_product p factors
  · rintro rfl
    cases hsum

theorem IsFactor.isNumeric {t : Term} (h : IsFactor t) : t.isNumeric = false := by
  rcases h with ⟨p, -, rfl⟩ | ⟨-, hsum⟩
  · exact isNumeric_symbolPower p
  · cases t <;> simp_all [isSum, Term.isNumeric]

theorem IsFactor.isPlain {t : Term} (h : IsFactor t) : IsPlain t := by
  rcases h with ⟨p, -, rfl⟩ | ⟨-, hsum⟩
  · exact isPlain_symbolPower p
  · cases t <;> simp_all [isSum, IsPlain]

theorem flatFactorsOfAll_symbolPowers (b : Exponents) :
    flatFactorsOfAll (b.map symbolPower) = b.map symbolPower := by
  induction b with
  | nil => rfl
  | cons p b ih =>
    rw [List.map_cons, flatFactorsOfAll, ih, flatFactors_of_ne (symbolPower_ne_product p)]
    rfl

theorem flatFactors_monomial (c : Rat) (b : Exponents) :
    ∃ numbers : List Rat, flatFactors (monomial c b) =
      numbers.map Term.number ++ b.map symbolPower := by
  unfold monomial
  split
  case isTrue h =>
    subst h
    exact ⟨[c], by simp [flatFactors]⟩
  case isFalse hne =>
    split
    case isTrue =>
      refine ⟨[], ?_⟩
      cases b with
      | nil => exact absurd rfl hne
      | cons p rest =>
        cases rest with
        | nil => exact flatFactors_of_ne (symbolPower_ne_product p)
        | cons q rest => exact flatFactorsOfAll_symbolPowers (p :: q :: rest)
    case isFalse =>
      refine ⟨[c], ?_⟩
      rw [flatFactors, flatFactorsOfAll, flatFactorsOfAll_symbolPowers]
      simp [flatFactors]

theorem multiplyNumbers_exact {factors : List Term}
    (h : ∀ t ∈ factors, (∃ a, t = .number a) ∨ IsFactor t) (c : Rat) :
    ∃ a, multiplyNumbers (.exact c) factors = .exact a := by
  induction factors generalizing c with
  | nil => exact ⟨c, rfl⟩
  | cons t ts ih =>
    obtain ⟨ht, hts⟩ := List.forall_mem_cons.1 h
    rcases ht with ⟨a, rfl⟩ | ht
    · exact ih hts (c * a)
    · have hnone : Coefficient.of? t = none := by
        have := ht.isNumeric
        cases t <;> simp_all [Term.isNumeric, Coefficient.of?]
      obtain ⟨a, ha⟩ := ih hts c
      refine ⟨a, ?_⟩
      rw [← ha, multiplyNumbers, List.foldl_cons, hnone]
      rfl

theorem flatFactors_operand {t : Term} (h : IsOperand t) :
    ∀ u ∈ flatFactors t, (∃ a, u = .number a) ∨ IsFactor u := by
  rcases h with ⟨c, b, hb, rfl⟩ | hsum
  · obtain ⟨numbers, heq⟩ := flatFactors_monomial c b
    intro u hu
    rw [heq, List.mem_append] at hu
    rcases hu with hu | hu
    · obtain ⟨a, -, rfl⟩ := List.mem_map.1 hu
      exact .inl ⟨a, rfl⟩
    · obtain ⟨p, hp, rfl⟩ := List.mem_map.1 hu
      exact .inr (.inl ⟨p, hb.positive p hp, rfl⟩)
  · intro u hu
    rw [flatFactors_of_ne (IsFactor.ne_product (.inr hsum)), List.mem_singleton] at hu
    rw [hu]
    exact .inr (.inr hsum)

/-- Operands are absorbed into a number and factors, sums only if there are sums among the
    operands. -/
theorem absorb_operands {factors : List Term} (h : ∀ t ∈ factors, IsOperand t) :
    ∃ a others, absorb .one factors = (.exact a, others) ∧ (∀ t ∈ others, IsFactor t) ∧
      ((∀ t ∈ factors, t.IsMonomial) → ∀ t ∈ others, t.isSum = false) := by
  have hflat : ∀ u ∈ flatFactorsOfAll factors, (∃ a, u = .number a) ∨ IsFactor u := by
    intro u hu
    rw [flatFactorsOfAll_eq_flatMap] at hu
    obtain ⟨t, ht, hu⟩ := List.mem_flatMap.1 hu
    exact flatFactors_operand (h t ht) u hu
  obtain ⟨a, ha⟩ := multiplyNumbers_exact hflat 1
  refine ⟨a, _, Prod.ext ha rfl, fun t ht => ?_, fun hmonomials t ht => ?_⟩
  · obtain ⟨ht, hnumeric⟩ := List.mem_filter.1 ht
    rcases hflat t ht with ⟨a, rfl⟩ | hfactor
    · simp [Term.isNumeric] at hnumeric
    · exact hfactor
  · obtain ⟨ht, hnumeric⟩ := List.mem_filter.1 ht
    rw [flatFactorsOfAll_eq_flatMap] at ht
    obtain ⟨u, hu, ht⟩ := List.mem_flatMap.1 ht
    obtain ⟨c, b, hb, rfl⟩ := hmonomials u hu
    obtain ⟨numbers, heq⟩ := flatFactors_monomial c b
    rw [heq, List.mem_append] at ht
    rcases ht with ht | ht
    · obtain ⟨a, -, rfl⟩ := List.mem_map.1 ht
      rfl
    · obtain ⟨p, -, rfl⟩ := List.mem_map.1 ht
      exact isSum_symbolPower p

/-- Factors that are absorbed stay what they are. -/
theorem absorb_factors {c : Coefficient} {factors : List Term} (h : ∀ t ∈ factors, IsFactor t) :
    absorb c factors = (c, factors) := by
  have hflat : flatFactorsOfAll factors = factors := by
    induction factors with
    | nil => rfl
    | cons t ts ih =>
      obtain ⟨ht, hts⟩ := List.forall_mem_cons.1 h
      rw [flatFactorsOfAll, flatFactors_of_ne ht.ne_product, ih hts]
      rfl
  have hnumbers : multiplyNumbers c factors = c := by
    clear hflat
    induction factors with
    | nil => rfl
    | cons t ts ih =>
      obtain ⟨ht, hts⟩ := List.forall_mem_cons.1 h
      have hnone : Coefficient.of? t = none := by
        have := ht.isNumeric
        cases t <;> simp_all [Term.isNumeric, Coefficient.of?]
      rw [multiplyNumbers, List.foldl_cons, hnone]
      exact ih hts
  rw [absorb, hflat, hnumbers, List.filter_eq_self.2]
  intro t ht
  simp [(h t ht).isNumeric]

/-! ### Sorting -/

/-- No symbol occurs in two of the factors. -/
def SymbolsDiffer (factors : List Term) : Prop :=
  factors.Pairwise fun t u => ∀ p q : String × Nat, t = symbolPower p → u = symbolPower q →
    p.1 ≠ q.1

theorem exists_exponents {factors : List Term} (h : ∀ t ∈ factors, IsFactor t)
    (hsums : ∀ t ∈ factors, t.isSum = false) :
    ∃ b : Exponents, factors = b.map symbolPower ∧ ∀ p ∈ b, 0 < p.2 := by
  induction factors with
  | nil => exact ⟨[], rfl, by simp⟩
  | cons t ts ih =>
    obtain ⟨ht, hts⟩ := List.forall_mem_cons.1 h
    obtain ⟨hfalse, hsums⟩ := List.forall_mem_cons.1 hsums
    obtain ⟨b, rfl, hb⟩ := ih hts hsums
    rcases ht with ⟨p, hp, rfl⟩ | ⟨-, htrue⟩
    · exact ⟨p :: b, rfl, List.forall_mem_cons.2 ⟨hp, hb⟩⟩
    · rw [hfalse] at htrue
      cases htrue

theorem sortedProduct_symbolPowers (c : Rat) {factors : List Term} {b : Exponents}
    (h : sortBy Term.compare factors = b.map symbolPower) :
    (sortedProduct (.exact c) factors).value = monomial c b := by
  unfold sortedProduct monomial
  simp only [h, List.isEmpty_map, List.isEmpty_iff]
  split
  case isTrue => rfl
  case isFalse hne =>
    by_cases hc : c = 1
    · rw [if_pos hc, if_pos (by simpa [Coefficient.isOne] using hc), Build.value_product]
    · rw [if_neg hc, if_neg (by simpa [Coefficient.isOne] using hc)]
      cases b with
      | nil => exact absurd rfl hne
      | cons p b => rfl

theorem compare_names_of_isLE {p q : String × Nat} (hne : p.1 ≠ q.1)
    (hle : (Exponents.comparePowers p q).isLE) : Ord.compare p.1 q.1 = .lt := by
  have hspec : Exponents.comparePowers p q =
      (Ord.compare p.1 q.1).then (Ord.compare p.2 q.2) := rfl
  rw [hspec] at hle
  cases hnames : Ord.compare p.1 q.1 with
  | lt => rfl
  | eq => exact (hne (Std.LawfulEqOrd.eq_of_compare hnames)).elim
  | gt =>
    rw [hnames] at hle
    cases hle

theorem sortedProduct_monomial {factors : List Term} (h : ∀ t ∈ factors, IsFactor t)
    (hsums : ∀ t ∈ factors, t.isSum = false) (hdiffer : SymbolsDiffer factors) (c : Rat) :
    ∃ b : Exponents, b.IsReduced ∧ (sortedProduct (.exact c) factors).value = monomial c b := by
  obtain ⟨b, rfl, hpositive⟩ := exists_exponents h hsums
  have hsorted : sortBy Term.compare (b.map symbolPower) =
      (sortBy Exponents.comparePowers b).map symbolPower :=
    sortBy_map fun p hp q hq => Exponents.compare_symbolPower (hpositive p hp) (hpositive q hq)
  have hperm := sortBy_perm Exponents.comparePowers b
  refine ⟨_, ⟨fun p hp => hpositive p (hperm.mem_iff.1 hp), ?_⟩,
    sortedProduct_symbolPowers c hsorted⟩
  have hnames : (sortBy Exponents.comparePowers b).Pairwise fun p q => p.1 ≠ q.1 := by
    refine (hperm.pairwise_iff fun hne => hne.symm).2 ?_
    exact (List.pairwise_map.1 hdiffer).imp fun hpq => hpq _ _ rfl rfl
  exact hnames.imp₂ (fun p q => compare_names_of_isLE) (pairwise_sortBy b)

end Reduction

end EquationSolver
