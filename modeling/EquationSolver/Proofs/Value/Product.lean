import EquationSolver.Proofs.Value.Sum
import EquationSolver.Reduction.Product
import Mathlib.Algebra.BigOperators.Ring.Finset
import Mathlib.Algebra.BigOperators.Ring.List
import Mathlib.Algebra.GroupWithZero.Basic
import Mathlib.Algebra.Order.BigOperators.Group.List

/-!
# Products keep their value

A product on the way to its standard form is a coefficient with factors, and every step
keeps what the two denote together: moving numbers into the coefficient, merging the powers
of a base, sorting, and multiplying out sums.  Powers and smaller products are parameters
of these steps; `KeepsPowers` and `KeepsProducts` say what is asked of them.
-/

namespace EquationSolver

namespace Reduction

open Reading

variable {K : Type*} [Field K] {R : Reading K}

/-! ### Requirements on smaller powers and products -/

/-- Powers with a value keep it. -/
def KeepsPowers (R : Reading K) (pow : Term → Term → Build Term) : Prop :=
  ∀ base exponent, R.HasValue (.power base exponent) →
    R.Denotes (pow base exponent).value (R.value (.power base exponent))

def KeepsProducts (R : Reading K) (mul : List Term → Build Term) : Prop :=
  ∀ factors, (∀ t ∈ factors, R.HasValue t) →
    R.Denotes (mul factors).value (factors.map R.value).prod

/-! ### Coefficient and factors -/

/-- A coefficient and factors that denote `v` together. -/
structure IsFactored (R : Reading K) (c : Coefficient) (factors : List Term) (v : K) :
    Prop where
  exact : c.IsExact
  hasValue : ∀ t ∈ factors, R.HasValue t
  value_eq : c.value K * (factors.map R.value).prod = v

mutual

theorem flatFactors_value : ∀ t : Term, R.HasValue t →
    (∀ u ∈ flatFactors t, R.HasValue u) ∧ ((flatFactors t).map R.value).prod = R.value t
  | .product factors, h => by
    rw [flatFactors, value_product]
    exact flatFactorsOfAll_value factors (R.hasValue_product.1 h).1
  | .number _, h | .decimal _, h | .constant _, h | .symbol _, h | .undefined, h
  | .nonreal, h | .sum _, h | .power _ _, h | .negation _, h | .quotient _ _, h
  | .apply _ _, h | .matrix _ _ _, h => by
    rw [flatFactors_of_ne (by simp)]
    exact ⟨by simp [h], by simp⟩

theorem flatFactorsOfAll_value : ∀ factors : List Term, (∀ t ∈ factors, R.HasValue t) →
    (∀ u ∈ flatFactorsOfAll factors, R.HasValue u) ∧
      ((flatFactorsOfAll factors).map R.value).prod = (factors.map R.value).prod
  | [], _ => by simp [flatFactorsOfAll]
  | t :: ts, h => by
    obtain ⟨hfirst, hfirstProd⟩ := flatFactors_value t (h t (by simp))
    obtain ⟨hrest, hrestProd⟩ :=
      flatFactorsOfAll_value ts fun u hu => h u (List.mem_cons_of_mem _ hu)
    rw [flatFactorsOfAll]
    refine ⟨?_, by simp [hfirstProd, hrestProd]⟩
    intro u hu
    exact (List.mem_append.1 hu).elim (hfirst u) (hrest u)

end

section CharZero

variable [CharZero K]

/-- Numbers go into the coefficient and the rest stays. -/
theorem multiplyNumbers_factored {c : Coefficient} {factors : List Term} (hc : c.IsExact)
    (h : ∀ t ∈ factors, R.HasValue t) :
    IsFactored R (multiplyNumbers c factors) (factors.filter fun t => !t.isNumeric)
      (c.value K * (factors.map R.value).prod) := by
  induction factors generalizing c with
  | nil => exact ⟨hc, by simp, by simp [multiplyNumbers]⟩
  | cons t ts ih =>
    have hts : ∀ u ∈ ts, R.HasValue u := fun u hu => h u (List.mem_cons_of_mem _ hu)
    have ht := h t (by simp)
    rcases Coefficient.of?_of_hasValue ht with ⟨a, rfl, ha⟩ | hnone
    · have hmul := hc.mul (K := K) (d := .exact a) ⟨a, rfl⟩
      have step := ih hmul.1 hts
      have hstep : multiplyNumbers c (.number a :: ts) = multiplyNumbers (c.mul (.exact a)) ts := by
        simp [multiplyNumbers, ha]
      rw [hstep, List.filter_cons_of_neg (by simp [Term.isNumeric])]
      refine ⟨step.exact, step.hasValue, ?_⟩
      rw [step.value_eq, hmul.2]
      simp [Coefficient.value, mul_assoc]
    · have hnumeric : t.isNumeric = false := by
        cases t <;> simp_all [Coefficient.of?, Term.isNumeric]
      have step := ih hc hts
      have hstep : multiplyNumbers c (t :: ts) = multiplyNumbers c ts := by
        simp [multiplyNumbers, hnone]
      rw [hstep, List.filter_cons_of_pos (by simp [hnumeric])]
      refine ⟨step.exact, ?_, ?_⟩
      · intro u hu
        rcases List.mem_cons.1 hu with rfl | hu
        · exact ht
        · exact step.hasValue u hu
      · rw [List.map_cons, List.prod_cons, mul_left_comm, step.value_eq, List.map_cons,
          List.prod_cons, mul_left_comm]

theorem absorb_factored {c : Coefficient} {factors : List Term} (hc : c.IsExact)
    (h : ∀ t ∈ factors, R.HasValue t) :
    IsFactored R (absorb c factors).1 (absorb c factors).2
      (c.value K * (factors.map R.value).prod) := by
  obtain ⟨hflat, hprod⟩ := flatFactorsOfAll_value factors h
  exact hprod ▸ multiplyNumbers_factored hc hflat

/-- No number is left among the factors. -/
theorem number_not_mem_absorb (a : Rat) (c : Coefficient) (factors : List Term) :
    .number a ∉ (absorb c factors).2 :=
  fun hmem => by simpa [Term.isNumeric] using List.of_mem_filter hmem

/-- A coefficient in front of factors, which are absorbed, keeps what it denotes. -/
theorem IsFactored.absorb {c : Coefficient} {factors : List Term} {v : K}
    (h : IsFactored R c factors v) :
    IsFactored R (absorb c factors).1 (Reduction.absorb c factors).2 v :=
  h.value_eq ▸ absorb_factored h.exact h.hasValue

end CharZero

theorem sortedProduct_denotes {c : Coefficient} {factors : List Term} {v : K}
    (h : IsFactored R c factors v) (hc : c.isZero = false) (hzero : .number 0 ∉ factors) :
    R.Denotes (sortedProduct c factors).value v := by
  have hperm := sortBy_perm Term.compare factors
  have hsorted : ∀ t ∈ sortBy Term.compare factors, R.HasValue t :=
    fun t ht => h.hasValue t (hperm.mem_iff.1 ht)
  have hsortedZero : .number 0 ∉ sortBy Term.compare factors :=
    fun hmem => hzero (hperm.mem_iff.1 hmem)
  have hprod : ((sortBy Term.compare factors).map R.value).prod =
      (factors.map R.value).prod := (hperm.map _).prod_eq
  refine sortedProduct_cases (P := fun t => R.Denotes t v) ?_ ?_ ?_
  · rintro rfl
    exact h.exact.denotes.congr (by simpa using h.value_eq)
  · intro _ hone
    refine (Denotes.productOf hsorted fun _ => hsortedZero).congr ?_
    rw [hprod, ← h.value_eq, h.exact.value_eq_one hone, one_mul]
  · intro _ _
    exact (h.exact.productOf_denotes hc hsorted fun _ => hsortedZero).congr
      (by rw [hprod, h.value_eq])

/-! ### Powers of one base -/

/-- The product of the powers that a group stands for. -/
def groupValue (R : Reading K) (group : PowerGroup Term) : K :=
  (group.exponents.map fun x => R.value (.power group.base x)).prod

/-- Every power of the group has a value, and a single one is the factor it came from. -/
structure IsValuedGroup (R : Reading K) (group : PowerGroup Term) : Prop where
  nonempty : group.exponents ≠ []
  powers : ∀ x ∈ group.exponents, R.HasValue (.power group.base x)
  first : ∀ x, group.exponents = [x] → R.Denotes group.first (R.value (.power group.base x))

/-- A factor is the power that it is read as. -/
theorem asPower_denotes {t : Term} (h : R.HasValue t) :
    R.Denotes (Term.power (asPower t).1 (asPower t).2) (R.value t) := by
  have first : R.Denotes (Term.power t .one) (R.value t) := ⟨by simpa using h, by simp⟩
  cases t with
  | power base exponent => exact .of_hasValue h
  | _ => exact first

theorem addToGroups_value {t : Term} {groups : List (PowerGroup Term)} (ht : R.HasValue t)
    (h : ∀ group ∈ groups, IsValuedGroup R group) :
    (∀ group ∈ addToGroups t groups, IsValuedGroup R group) ∧
      ((addToGroups t groups).map (groupValue R)).prod =
        R.value t * (groups.map (groupValue R)).prod := by
  have hpower := asPower_denotes ht
  induction groups with
  | nil =>
    refine ⟨?_, by simp [addToGroups, groupValue, hpower.value_eq]⟩
    intro group hgroup
    rw [addToGroups, List.mem_singleton] at hgroup
    subst hgroup
    refine ⟨by simp, by simpa using hpower.hasValue, ?_⟩
    intro x hx
    rw [← List.singleton_inj.1 hx, hpower.value_eq]
    exact .of_hasValue ht
  | cons group rest ih =>
    have hgroup := h group (by simp)
    have hrest : ∀ g ∈ rest, IsValuedGroup R g := fun g hg => h g (List.mem_cons_of_mem _ hg)
    simp only [addToGroups]
    split
    case isTrue hbase =>
      constructor
      · intro g hg
        rcases List.mem_cons.1 hg with rfl | hg
        · refine ⟨by simp, ?_, ?_⟩
          · intro x hx
            rcases List.mem_append.1 hx with hx | hx
            · exact hgroup.powers x hx
            · rw [List.mem_singleton.1 hx, hbase]
              exact hpower.hasValue
          · intro x hx
            have hlength : group.exponents.length = 0 := by simpa using congrArg List.length hx
            exact absurd (List.length_eq_zero_iff.1 hlength) hgroup.nonempty
        · exact hrest g hg
      · simp only [List.map_cons, List.prod_cons, groupValue, List.map_append, List.map_nil,
          List.prod_append, List.prod_nil, mul_one]
        rw [hbase, hpower.value_eq]
        ring
    case isFalse =>
      obtain ⟨ihGroups, ihProd⟩ := ih hrest
      constructor
      · intro g hg
        rcases List.mem_cons.1 hg with rfl | hg
        · exact hgroup
        · exact ihGroups g hg
      · rw [List.map_cons, List.prod_cons, ihProd, List.map_cons, List.prod_cons]
        ring

theorem foldl_addToGroups_value {factors : List Term} {groups : List (PowerGroup Term)}
    (hfactors : ∀ t ∈ factors, R.HasValue t) (h : ∀ group ∈ groups, IsValuedGroup R group) :
    (∀ group ∈ factors.foldl (fun groups t => addToGroups t groups) groups,
        IsValuedGroup R group) ∧
      ((factors.foldl (fun groups t => addToGroups t groups) groups).map (groupValue R)).prod =
        (factors.map R.value).prod * (groups.map (groupValue R)).prod := by
  induction factors generalizing groups with
  | nil => exact ⟨by simpa using h, by simp⟩
  | cons t ts ih =>
    have hstep := addToGroups_value (hfactors t (by simp)) h
    obtain ⟨hgroups, hprod⟩ := ih (fun u hu => hfactors u (List.mem_cons_of_mem _ hu)) hstep.1
    refine ⟨hgroups, ?_⟩
    rw [List.foldl_cons, hprod, hstep.2, List.map_cons, List.prod_cons]
    ring

theorem powerGroups_value {factors : List Term} (h : ∀ t ∈ factors, R.HasValue t) :
    (∀ group ∈ powerGroups factors, IsValuedGroup R group) ∧
      ((powerGroups factors).map (groupValue R)).prod = (factors.map R.value).prod := by
  have hnone : ∀ group ∈ ([] : List (PowerGroup Term)), IsValuedGroup R group := by simp
  obtain ⟨hgroups, hprod⟩ := foldl_addToGroups_value h hnone
  exact ⟨hgroups, by simpa [powerGroups] using hprod⟩

/-- The product of powers of one base is the power with the sum of the exponents. -/
theorem prod_power {v : K} {exponents : List Rat} (hne : exponents ≠ [])
    (h : ∀ q ∈ exponents, R.IsDefined v q) : R.IsDefined v exponents.sum ∧
      (exponents.map (R.power v)).prod = R.power v exponents.sum := by
  induction exponents with
  | nil => exact absurd rfl hne
  | cons q rest ih =>
    obtain ⟨hq, hrest⟩ := List.forall_mem_cons.1 h
    by_cases hnil : rest = []
    · subst hnil
      exact ⟨by simpa using hq, by simp⟩
    · obtain ⟨hsum, hprod⟩ := ih hnil hrest
      rw [List.sum_cons, List.map_cons, List.prod_cons, hprod]
      exact ⟨R.isDefined_add hq hsum, (R.power_add hq hsum).symm⟩

theorem IsValuedGroup.exponents_eq {group : PowerGroup Term} (h : IsValuedGroup R group) :
    ∃ qs : List Rat, qs ≠ [] ∧ group.exponents = qs.map Term.number ∧
      R.HasValue group.base ∧ ∀ q ∈ qs, R.IsDefined (R.value group.base) q := by
  obtain ⟨base, exponents, first⟩ := group
  have hpowers := h.powers
  have hnonempty := h.nonempty
  clear h
  dsimp only at hpowers hnonempty ⊢
  induction exponents with
  | nil => exact absurd rfl hnonempty
  | cons x rest ih =>
    obtain ⟨q, rfl, hbase, hq⟩ := (hpowers x (by simp)).exponent_eq
    by_cases hrest : rest = []
    · subst hrest
      exact ⟨[q], List.cons_ne_nil _ _, rfl, hbase, by simpa using hq⟩
    · obtain ⟨qs, -, rfl, -, hqs⟩ := ih (fun y hy => hpowers y (List.mem_cons_of_mem _ hy)) hrest
      exact ⟨q :: qs, List.cons_ne_nil _ _, rfl, hbase, List.forall_mem_cons.2 ⟨hq, hqs⟩⟩

theorem mergeGroup_denotes {pow : Term → Term → Build Term} (hpow : KeepsPowers R pow)
    {group : PowerGroup Term} (h : IsValuedGroup R group) :
    R.Denotes (mergeGroup pow group).value (groupValue R group) := by
  unfold mergeGroup
  split
  case h_1 x hx => exact (h.first x hx).congr (by simp [groupValue, hx])
  case h_2 =>
    obtain ⟨qs, hne, hqs, hbase, hdefined⟩ := h.exponents_eq
    obtain ⟨hsum, hprod⟩ := prod_power hne hdefined
    rw [Build.value_bind, hqs, add_numbers]
    refine (hpow group.base _ (R.hasValue_power.2 ⟨hbase, hsum⟩)).congr ?_
    rw [value_power, groupValue, hqs, List.map_map, ← hprod]
    simp [Function.comp_def]

theorem mergePowers_factored {pow : Term → Term → Build Term} (hpow : KeepsPowers R pow)
    {c : Coefficient} {factors : List Term} {v : K} (h : IsFactored R c factors v) :
    IsFactored R c (mergePowers pow factors).value.1 v := by
  obtain ⟨hgroups, hprod⟩ := powerGroups_value h.hasValue
  have hmerged : (mergePowers pow factors).value.1 =
      (powerGroups factors).map fun group => (mergeGroup pow group).value := by
    simp [mergePowers]
  rw [hmerged]
  refine ⟨h.exact, ?_, ?_⟩
  · intro t ht
    obtain ⟨group, hgroup, rfl⟩ := List.mem_map.1 ht
    exact (mergeGroup_denotes hpow (hgroups group hgroup)).hasValue
  · rw [List.map_map, ← h.value_eq, ← hprod]
    refine congrArg (fun w => c.value K * w) (congrArg List.prod ?_)
    exact List.map_congr_left fun group hgroup =>
      (mergeGroup_denotes hpow (hgroups group hgroup)).value_eq

/-! ### Multiplying out -/

theorem pairwise_value {mul : List Term → Build Term} (hmul : KeepsProducts R mul)
    {left right : List Term} (hleft : ∀ t ∈ left, R.HasValue t)
    (hright : ∀ t ∈ right, R.HasValue t) :
    (∀ t ∈ (pairwise mul left right).value, R.HasValue t) ∧
      ((pairwise mul left right).value.map R.value).sum =
        (left.map R.value).sum * (right.map R.value).sum := by
  have hpair : ∀ a ∈ left, ∀ b ∈ right, R.Denotes (mul [a, b]).value (R.value a * R.value b) := by
    intro a ha b hb
    refine (hmul [a, b] ?_).congr (by simp)
    intro t ht
    rcases List.mem_pair.1 ht with rfl | rfl
    · exact hleft t ha
    · exact hright t hb
  simp only [pairwise, Build.value_each]
  constructor
  · intro t ht
    obtain ⟨⟨a, b⟩, hab, rfl⟩ := List.mem_map.1 ht
    obtain ⟨a', ha, hab⟩ := List.mem_flatMap.1 hab
    obtain ⟨b', hb, heq⟩ := List.mem_map.1 hab
    cases heq
    exact (hpair a ha b hb).hasValue
  · induction left with
    | nil => simp
    | cons a rest ih =>
      have hrest := ih (fun t ht => hleft t (List.mem_cons_of_mem _ ht))
        (fun x hx => hpair x (List.mem_cons_of_mem _ hx))
      have hfirst : (right.map fun b => R.value (mul [a, b]).value).sum =
          R.value a * (right.map R.value).sum := by
        rw [← List.sum_map_mul_left]
        exact congrArg List.sum
          (List.map_congr_left fun b hb => (hpair a (by simp) b hb).value_eq)
      rw [List.flatMap_cons, List.map_append, List.map_append, List.sum_append, hrest]
      simp only [List.map_map, Function.comp_def, List.map_cons, List.sum_cons, hfirst]
      ring

theorem multiplySums_value {mul : List Term → Build Term} (hmul : KeepsProducts R mul)
    {found sums : List Term} (hfound : ∀ t ∈ found, R.HasValue t)
    (hsums : ∀ t ∈ sums, R.HasValue t) :
    (∀ t ∈ (multiplySums mul found sums).value, R.HasValue t) ∧
      ((multiplySums mul found sums).value.map R.value).sum =
        (found.map R.value).sum * (sums.map R.value).prod := by
  induction sums generalizing found with
  | nil => exact ⟨by simpa [multiplySums] using hfound, by simp [multiplySums]⟩
  | cons sum rest ih =>
    have hsum := hsums sum (by simp)
    obtain ⟨hlonger, hlongerSum⟩ :=
      pairwise_value hmul hfound fun t ht => hasValue_of_mem_summands hsum ht
    obtain ⟨hterms, htermsSum⟩ := ih hlonger fun t ht => hsums t (List.mem_cons_of_mem _ ht)
    rw [multiplySums, Build.value_bind]
    refine ⟨hterms, ?_⟩
    rw [htermsSum, hlongerSum, sum_summands, List.map_cons, List.prod_cons, mul_assoc]

/-! ### Products -/

variable [CharZero K]

theorem mergeRepeatedly_factored {pow : Term → Term → Build Term} (hpow : KeepsPowers R pow)
    (passes : Nat) {c : Coefficient} {factors : List Term} {v : K}
    (h : IsFactored R c factors v) :
    IsFactored R (mergeRepeatedly pow passes c factors).value.1
      (mergeRepeatedly pow passes c factors).value.2 v := by
  induction passes generalizing c factors with
  | zero => exact h
  | succ passes ih =>
    unfold mergeRepeatedly
    split
    case isTrue => exact h
    case isFalse =>
      have hstep := (mergePowers_factored hpow h).absorb
      simp only [Build.value_bind]
      split
      · exact ih hstep
      · exact hstep

theorem number_not_mem_mergeRepeatedly {a : Rat} (pow : Term → Term → Build Term) (passes : Nat)
    {c : Coefficient} {factors : List Term} (h : .number a ∉ factors) :
    .number a ∉ (mergeRepeatedly pow passes c factors).value.2 := by
  induction passes generalizing c factors with
  | zero => exact h
  | succ passes ih =>
    unfold mergeRepeatedly
    split
    case isTrue => exact h
    case isFalse =>
      simp only [Build.value_bind]
      split
      · exact ih (number_not_mem_absorb a _ _)
      · exact number_not_mem_absorb a _ _

theorem distribute_denotes {s : Settings} {mul : List Term → Build Term}
    (hmul : KeepsProducts R mul) {c : Coefficient} {factors : List Term} {v : K}
    (h : IsFactored R c factors v) (hc : c.isZero = false) (hzero : .number 0 ∉ factors) :
    R.Denotes (distribute s mul c factors).value v := by
  unfold distribute
  rw [List.partition_eq_filter_filter]
  dsimp only
  split
  case isTrue => exact sortedProduct_denotes h hc hzero
  case isFalse =>
    set sums := factors.filter Term.isSum
    set others := factors.filter (not ∘ Term.isSum)
    have hothers : IsFactored R c others (c.value K * (others.map R.value).prod) :=
      ⟨h.exact, fun t ht => h.hasValue t (List.mem_of_mem_filter ht), rfl⟩
    have hfirst := sortedProduct_denotes hothers hc fun hmem => hzero (List.mem_of_mem_filter hmem)
    have hfound : ∀ t ∈ [(sortedProduct c others).value], R.HasValue t := by
      simpa using hfirst.hasValue
    have hsums : ∀ t ∈ sums, R.HasValue t := fun t ht => h.hasValue t (List.mem_of_mem_filter ht)
    obtain ⟨hterms, hsum⟩ := multiplySums_value hmul hfound hsums
    have hperm : (sums ++ others).Perm factors := List.filter_append_perm _ _
    simp only [Build.value_bind]
    refine (add_denotes hterms).congr ?_
    rw [hsum, ← h.value_eq, ← (hperm.map R.value).prod_eq, List.map_append, List.prod_append,
      List.map_singleton, List.sum_singleton, hfirst.value_eq]
    ring

/-- The product of factors in standard form denotes the product of their values, if
    smaller powers and products keep theirs. -/
theorem keepsProducts_mulWith {s : Settings} {pow : Term → Term → Build Term}
    {mul : List Term → Build Term} (hpow : KeepsPowers R pow) (hmul : KeepsProducts R mul) :
    KeepsProducts R (mulWith s pow mul) := by
  intro factors hfactors
  have habsorb := absorb_factored Coefficient.isExact_one hfactors
  rw [Coefficient.value_one, one_mul] at habsorb
  have hmerge := mergeRepeatedly_factored hpow maxMergePasses habsorb
  have hplain := fun t ht => R.isPlain (habsorb.hasValue t ht)
  have hmergePlain := fun t ht => R.isPlain (hmerge.hasValue t ht)
  unfold mulWith
  simp only [poison?_eq_none hplain, hasMatrix_eq_false hplain, Bool.false_eq_true, if_false,
    Build.value_bind, poison?_eq_none hmergePlain]
  split
  case isTrue hzero =>
    refine (hmerge.exact.denotes).congr ?_
    rw [← hmerge.value_eq, hmerge.exact.value_eq_zero hzero, zero_mul]
  case isFalse hnonzero =>
    have hzero := number_not_mem_mergeRepeatedly pow maxMergePasses
      (c := (absorb .one factors).1) (number_not_mem_absorb 0 .one factors)
    split
    · exact distribute_denotes hmul hmerge (Bool.eq_false_iff.2 hnonzero) hzero
    · exact sortedProduct_denotes hmerge (Bool.eq_false_iff.2 hnonzero) hzero

theorem keepsProducts_plainMul : KeepsProducts R plainMul := by
  intro factors hfactors
  have habsorb := absorb_factored Coefficient.isExact_one hfactors
  rw [Coefficient.value_one, one_mul] at habsorb
  have hplain := fun t ht => R.isPlain (habsorb.hasValue t ht)
  unfold plainMul
  simp only [poison?_eq_none hplain, hasMatrix_eq_false hplain, Bool.false_eq_true, if_false]
  split
  case isTrue hzero =>
    refine (habsorb.exact.denotes).congr ?_
    rw [← habsorb.value_eq, habsorb.exact.value_eq_zero hzero, zero_mul]
  case isFalse hnonzero =>
    exact sortedProduct_denotes habsorb (Bool.eq_false_iff.2 hnonzero)
      (number_not_mem_absorb 0 .one factors)

end Reduction

end EquationSolver
