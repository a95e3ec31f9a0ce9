import EquationSolver.Proofs.Number.PerfectPower
import EquationSolver.Proofs.Reduction.Standard
import EquationSolver.Proofs.Value.Power
import EquationSolver.Reduction.Function

/-!
# What products and powers inherit from their operands

Products, powers and exact values of functions put together the factors, terms, bases and exponents
that they find in their operands.  So they have a property of terms that the parts of a term inherit
from it and that is handed on by the few ways in which parts are put together: as sums, as sorted
factors behind a coefficient, and as powers.
-/

namespace EquationSolver

namespace Reduction

/-! ### Coefficients as terms -/

section Coefficients

variable {c : Coefficient} {t : Term}

theorem isNumeric_of_of? (h : Coefficient.of? t = some c) : t.isNumeric = true := by
  cases t <;> first | rfl | cases h

theorem isNumeric_of_of?_eq_none (h : Coefficient.of? t = none) : t.isNumeric = false := by
  cases t <;> first | rfl | cases h

theorem isAtom_ofDouble (x : Float) : (Term.ofDouble x).isAtom = true := by
  unfold Term.ofDouble
  split_ifs <;> rfl

theorem isAtom_toTerm (c : Coefficient) : c.toTerm.isAtom = true := by
  cases c with
  | exact a => rfl
  | approximate x => exact isAtom_ofDouble x

theorem hasMatrix_cons_of_isAtom (h : t.isAtom = true) (factors : List Term) :
    hasMatrix (t :: factors) = hasMatrix factors := by
  unfold hasMatrix
  rw [List.any_cons]
  cases t with
  | matrix rows columns entries => cases h
  | _ => rw [Bool.false_or]

theorem hasMatrix_toTerm_cons (c : Coefficient) (factors : List Term) :
    hasMatrix (c.toTerm :: factors) = hasMatrix factors :=
  hasMatrix_cons_of_isAtom (isAtom_toTerm c) factors

end Coefficients

/-! ### What is handed on -/

/-- A base and an exponent that stay a power: neither of them decides the result and, if neither is
    a matrix, the exponent is not zero and none of them is one. -/
structure AreKept (base exponent : Term) : Prop where
  unmarked : poison? [base, exponent] = none
  nontrivial : hasMatrix [base, exponent] = false →
    exponent.isZero = false ∧ exponent.isOne = false ∧ base.isOne = false

/-- A property of terms, and one of coefficients, that parts inherit and that is handed on to what
    is put together from them. -/
structure IsInherited (s : Settings) (P : Term → Prop) (C : Coefficient → Prop) : Prop where
  part : ∀ {t u : Term}, P t → u ∈ t.children → P u
  number : ∀ a : Rat, P (.number a)
  constant : ∀ c : Constant, P (.constant c)
  undefined : P .undefined
  nonreal : P .nonreal
  double : ∀ {bits : UInt64}, P (.decimal bits) → ∀ x, P (Term.ofDouble x)
  read : ∀ {t : Term} {c : Coefficient}, P t → Coefficient.of? t = some c → C c
  times : ∀ {c d : Coefficient}, C c → C d → C (c.mul d)
  written : ∀ {c : Coefficient}, C c → P c.toTerm
  rest : ∀ {c : Rat} {factors : List Term}, P (.product (.number c :: factors)) →
    P (Term.productOf factors)
  add : ∀ {ts : List Term}, (∀ t ∈ ts, P t) → P (add ts).value
  sortedProduct : ∀ {c : Coefficient} {factors : List Term}, C c → c.isZero = false →
    AreFlat factors → poison? factors = none → (∀ t ∈ factors, P t) →
    P (sortedProduct c factors).value
  matrixProduct : ∀ {c : Coefficient} {factors : List Term}, C c → AreFlat factors →
    hasMatrix factors = true → (∀ t ∈ factors, P t) → P (matrixProduct c factors).value
  power : ∀ {base exponent : Term}, P base → P exponent → AreKept base exponent →
    P (.power base exponent)

namespace IsInherited

variable {s : Settings} {P : Term → Prop} {C : Coefficient → Prop} {c : Coefficient}
  {t base exponent : Term} {factors operands : List Term}

theorem exact (h : IsInherited s P C) (a : Rat) : C (.exact a) :=
  h.read (h.number a) rfl

theorem poison (h : IsInherited s P C) {t : Term} (ht : poison? operands = some t) : P t := by
  rcases eq_of_poison?_eq_some ht with rfl | rfl
  · exact h.undefined
  · exact h.nonreal

theorem summands (h : IsInherited s P C) (ht : P t) : ∀ u ∈ Reduction.summands t, P u :=
  forall_mem_summands ht fun _ hu => h.part ht hu

theorem pair (ht : P t) {u : Term} (hu : P u) : ∀ v ∈ [t, u], P v :=
  List.forall_mem_cons.2 ⟨ht, List.forall_mem_singleton.2 hu⟩

/-! ### Factors -/

mutual

theorem flatFactors (h : IsInherited s P C) :
    ∀ t : Term, P t → ∀ u ∈ Reduction.flatFactors t, P u
  | .product factors, ht => by
    unfold Reduction.flatFactors
    exact h.flatFactorsOfAll factors fun u hu => h.part ht hu
  | .number _, ht | .decimal _, ht | .constant _, ht | .symbol _, ht | .undefined, ht
  | .nonreal, ht | .sum _, ht | .power _ _, ht | .negation _, ht | .quotient _ _, ht
  | .apply _ _, ht | .matrix _ _ _, ht => List.forall_mem_singleton.2 ht

theorem flatFactorsOfAll (h : IsInherited s P C) : ∀ factors : List Term, (∀ t ∈ factors, P t) →
    ∀ u ∈ Reduction.flatFactorsOfAll factors, P u
  | [], _ => nofun
  | t :: ts, hfactors => by
    obtain ⟨ht, hts⟩ := List.forall_mem_cons.1 hfactors
    unfold Reduction.flatFactorsOfAll
    exact List.forall_mem_append.2 ⟨h.flatFactors t ht, h.flatFactorsOfAll ts hts⟩

end

theorem multiplyNumbers (h : IsInherited s P C) (hc : C c) (hfactors : ∀ t ∈ factors, P t) :
    C (multiplyNumbers c factors) := by
  induction factors generalizing c with
  | nil => exact hc
  | cons t ts ih =>
    obtain ⟨ht, hts⟩ := List.forall_mem_cons.1 hfactors
    refine ih ?_ hts
    dsimp only
    split
    case h_1 d hd => exact h.times hc (h.read ht hd)
    case h_2 => exact hc

end IsInherited

/-! ### Absorbed operands -/

/-- A coefficient and flat factors that have the properties. -/
structure AreInherited (P : Term → Prop) (C : Coefficient → Prop)
    (parts : Coefficient × List Term) : Prop where
  coefficient : C parts.1
  flat : AreFlat parts.2
  factors : ∀ t ∈ parts.2, P t

mutual

theorem not_product_of_mem_flatFactors : ∀ t : Term, ∀ u ∈ flatFactors t, ∀ ts, u ≠ .product ts
  | .product factors => by
    unfold flatFactors
    exact not_product_of_mem_flatFactorsOfAll factors
  | .number _ | .decimal _ | .constant _ | .symbol _ | .undefined | .nonreal | .sum _ | .power _ _
  | .negation _ | .quotient _ _ | .apply _ _ | .matrix _ _ _ =>
    List.forall_mem_singleton.2 fun _ => Term.noConfusion

theorem not_product_of_mem_flatFactorsOfAll : ∀ factors : List Term,
    ∀ u ∈ flatFactorsOfAll factors, ∀ ts, u ≠ .product ts
  | [] => nofun
  | t :: ts => by
    unfold flatFactorsOfAll
    exact List.forall_mem_append.2
      ⟨not_product_of_mem_flatFactors t, not_product_of_mem_flatFactorsOfAll ts⟩

end

theorem areFlat_absorb (c : Coefficient) (factors : List Term) : AreFlat (absorb c factors).2 where
  not_numeric t ht := by simpa using (List.mem_filter.1 ht).2
  not_product t ht := not_product_of_mem_flatFactorsOfAll factors t (List.mem_of_mem_filter ht)

namespace IsInherited

variable {s : Settings} {P : Term → Prop} {C : Coefficient → Prop} {c : Coefficient}
  {t base exponent : Term} {factors operands : List Term}

theorem absorb (h : IsInherited s P C) (hc : C c) (hfactors : ∀ t ∈ factors, P t) :
    AreInherited P C (Reduction.absorb c factors) := by
  have hflat := h.flatFactorsOfAll factors hfactors
  exact ⟨h.multiplyNumbers hc hflat, areFlat_absorb c factors,
    fun t ht => hflat t (List.mem_of_mem_filter ht)⟩

/-! ### Merging powers -/

/-- The base and the exponents of a group have the property, and so does its first factor. -/
structure IsInheritedGroup (P : Term → Prop) (group : PowerGroup Term) : Prop where
  base : P group.base
  exponents : ∀ t ∈ group.exponents, P t
  first : P group.first

theorem asPower (h : IsInherited s P C) (ht : P t) :
    P (Reduction.asPower t).1 ∧ P (Reduction.asPower t).2 := by
  cases t with
  | power base exponent =>
    exact ⟨h.part ht List.mem_cons_self, h.part ht (List.mem_cons_of_mem _ List.mem_cons_self)⟩
  | _ => exact ⟨ht, h.number 1⟩

theorem addToGroups (h : IsInherited s P C) (ht : P t) :
    ∀ {groups : List (PowerGroup Term)}, (∀ group ∈ groups, IsInheritedGroup P group) →
      ∀ group ∈ Reduction.addToGroups t groups, IsInheritedGroup P group
  | [], _ => List.forall_mem_singleton.2
      ⟨(h.asPower ht).1, List.forall_mem_singleton.2 (h.asPower ht).2, ht⟩
  | group :: rest, hgroups => by
    obtain ⟨hgroup, hrest⟩ := List.forall_mem_cons.1 hgroups
    unfold Reduction.addToGroups
    split
    · exact List.forall_mem_cons.2 ⟨⟨hgroup.base, List.forall_mem_append.2 ⟨hgroup.exponents,
        List.forall_mem_singleton.2 (h.asPower ht).2⟩, hgroup.first⟩, hrest⟩
    · exact List.forall_mem_cons.2 ⟨hgroup, h.addToGroups ht hrest⟩

theorem powerGroups (h : IsInherited s P C) (hfactors : ∀ t ∈ factors, P t) :
    ∀ group ∈ Reduction.powerGroups factors, IsInheritedGroup P group := by
  have hfold : ∀ groups : List (PowerGroup Term), (∀ group ∈ groups, IsInheritedGroup P group) →
      ∀ group ∈ factors.foldl (fun groups factor => Reduction.addToGroups factor groups) groups,
        IsInheritedGroup P group := by
    induction factors with
    | nil => exact fun _ hgroups => hgroups
    | cons t ts ih =>
      obtain ⟨ht, hts⟩ := List.forall_mem_cons.1 hfactors
      exact fun groups hgroups => ih hts _ (h.addToGroups ht hgroups)
  exact hfold [] nofun

section Parameters

variable {pow : Term → Term → Build Term} {mul : List Term → Build Term}
  (hpow : ∀ base exponent, P base → P exponent → P (pow base exponent).value)
  (hmul : ∀ factors, (∀ t ∈ factors, P t) → P (mul factors).value)

include hpow in
theorem mergePowers (h : IsInherited s P C) (hfactors : ∀ t ∈ factors, P t) :
    ∀ t ∈ (Reduction.mergePowers pow factors).value.1, P t := by
  intro t ht
  unfold Reduction.mergePowers at ht
  simp only [Build.value_bind, Build.value_pure, Build.value_each] at ht
  obtain ⟨group, hgroup, rfl⟩ := List.mem_map.1 ht
  have hgroup := h.powerGroups hfactors group hgroup
  unfold mergeGroup
  split
  · exact hgroup.first
  · exact hpow _ _ hgroup.base (h.add hgroup.exponents)

include hpow in
theorem mergeRepeatedly (h : IsInherited s P C) (passes : Nat)
    (hparts : AreInherited P C (c, factors)) :
    AreInherited P C (Reduction.mergeRepeatedly pow passes c factors).value := by
  induction passes generalizing c factors with
  | zero => exact hparts
  | succ passes ih =>
    have hmerged := h.absorb hparts.coefficient (h.mergePowers hpow hparts.factors)
    unfold Reduction.mergeRepeatedly
    split
    · exact hparts
    · rw [Build.value_bind]
      dsimp only
      split
      · exact ih hmerged
      · exact hmerged

/-! ### Products -/

include hmul in
theorem pairwise {left right : List Term} (hleft : ∀ t ∈ left, P t)
    (hright : ∀ t ∈ right, P t) : ∀ t ∈ (Reduction.pairwise mul left right).value, P t := by
  intro t ht
  unfold Reduction.pairwise at ht
  rw [Build.value_each] at ht
  obtain ⟨⟨a, b⟩, hpair, rfl⟩ := List.mem_map.1 ht
  obtain ⟨a', ha, hpair⟩ := List.mem_flatMap.1 hpair
  obtain ⟨b', hb, hpair⟩ := List.mem_map.1 hpair
  cases hpair
  exact hmul _ (pair (hleft a ha) (hright b hb))

include hmul in
theorem multiplySums (h : IsInherited s P C) {found sums : List Term} (hfound : ∀ t ∈ found, P t)
    (hsums : ∀ t ∈ sums, P t) : ∀ t ∈ (Reduction.multiplySums mul found sums).value, P t := by
  induction sums generalizing found with
  | nil => exact hfound
  | cons sum sums ih =>
    obtain ⟨hsum, hrest⟩ := List.forall_mem_cons.1 hsums
    unfold Reduction.multiplySums
    exact ih (pairwise hmul hfound (h.summands hsum)) hrest

include hmul in
theorem distribute (h : IsInherited s P C) (hparts : AreInherited P C (c, factors))
    (hzero : c.isZero = false) (hpoison : poison? factors = none) : P (Reduction.distribute s mul c factors).value := by
  have hsums : ∀ t ∈ (factors.partition Term.isSum).1, P t := by
    rw [List.partition_eq_filter_filter]
    exact fun t ht => hparts.factors t (List.mem_of_mem_filter ht)
  have hothers : ∀ t ∈ (factors.partition Term.isSum).2, t ∈ factors := by
    rw [List.partition_eq_filter_filter]
    exact fun t ht => List.mem_of_mem_filter ht
  have hflat : AreFlat (factors.partition Term.isSum).2 :=
    ⟨fun t ht => hparts.flat.not_numeric t (hothers t ht),
      fun t ht => hparts.flat.not_product t (hothers t ht)⟩
  unfold Reduction.distribute
  dsimp only
  split
  · exact h.sortedProduct hparts.coefficient hzero hparts.flat hpoison hparts.factors
  · have hfirst := h.sortedProduct hparts.coefficient hzero hflat
      (poison?_eq_none_of_subset hothers hpoison) fun t ht => hparts.factors t (hothers t ht)
    exact h.add (h.multiplySums hmul (List.forall_mem_singleton.2 hfirst) hsums)

include hpow hmul in
theorem mulWith (h : IsInherited s P C) (hfactors : ∀ t ∈ factors, P t) :
    P (Reduction.mulWith s pow mul factors).value := by
  have habsorbed := h.absorb (h.exact 1) hfactors
  unfold Reduction.mulWith
  dsimp only
  split
  case h_1 poison hpoison => exact h.poison hpoison
  case h_2 =>
    split
    case isTrue hmatrix =>
      exact h.matrixProduct habsorbed.coefficient habsorbed.flat hmatrix habsorbed.factors
    case isFalse =>
      have hmerged := h.mergeRepeatedly hpow maxMergePasses habsorbed
      rw [Build.value_bind]
      split
      case h_1 poison hpoison => exact h.poison hpoison
      case h_2 hpoison =>
        split_ifs with hzero
        · exact h.written hmerged.coefficient
        · exact h.distribute hmul hmerged (by simpa using hzero) hpoison
        · exact h.sortedProduct hmerged.coefficient (by simpa using hzero) hmerged.flat hpoison
            hmerged.factors

theorem plainMul (h : IsInherited s P C) (hfactors : ∀ t ∈ factors, P t) :
    P (Reduction.plainMul factors).value := by
  have habsorbed := h.absorb (h.exact 1) hfactors
  unfold Reduction.plainMul
  dsimp only
  split
  case h_1 poison hpoison => exact h.poison hpoison
  case h_2 hpoison =>
    split_ifs with hmatrix hzero
    · exact h.matrixProduct habsorbed.coefficient habsorbed.flat hmatrix habsorbed.factors
    · exact h.written habsorbed.coefficient
    · exact h.sortedProduct habsorbed.coefficient (by simpa using hzero) habsorbed.flat hpoison
        habsorbed.factors

/-! ### Powers -/

theorem areKept_of_hasMatrix (hpoison : poison? [base, exponent] = none)
    (hmatrix : hasMatrix [base, exponent] = true) : AreKept base exponent where
  unmarked := hpoison
  nontrivial hnone := absurd hmatrix (by simp [hnone])

theorem areKept_of_nontrivial (hpoison : poison? [base, exponent] = none)
    (hzero : ¬ exponent.isZero = true) (hone : ¬ (exponent.isOne || base.isOne) = true) :
    AreKept base exponent where
  unmarked := hpoison
  nontrivial _ := by simpa [and_assoc] using And.intro hzero hone

/-- The radicand and the index that a root is lowered to are at least two. -/
theorem areKept_lowered {radicand q : Nat} (hradicand : 0 < radicand) (hq : 2 ≤ q)
    (hinside : (splitPower radicand q).2 ≠ 1) :
    AreKept (.number ((lowerIndex (splitPower radicand q).2 q).1 : Rat))
      (.number (1 / ((lowerIndex (splitPower radicand q).2 q).2 : Rat))) := by
  have hpos := (splitPower_pos hradicand (by omega : q ≠ 0)).2
  have hpower := (splitPower_eq_one_or_ne_pow hradicand hq).resolve_left hinside
  obtain ⟨hbase, hindex, -⟩ := lowerIndex_proper (by omega) hq hpower
  refine ⟨rfl, fun _ => ?_⟩
  simp only [Term.isZero, Term.isOne, decide_eq_false_iff_not, one_div, inv_eq_zero, inv_eq_one]
  refine ⟨?_, ?_, ?_⟩
  all_goals
    norm_cast
    omega

/-- A number that is no integer, although its numerator is a word, has a denominator. -/
theorem two_le_den {e : Rat} {p : Int} (hwhole : Rational.toInt64Range? e = none)
    (hp : Integer.toInt64Range? e.num = some p) : 2 ≤ e.den := by
  have hone : e.den ≠ 1 := by
    intro hone
    rw [Rational.toInt64Range?, Rational.toInt?, if_pos hone, Option.bind_some, hp] at hwhole
    cases hwhole
  have hpos := e.den_pos
  omega

variable {unreduced : Build Term} (hunreduced : P unreduced.value)

/-- A number times a root has the property, too. -/
theorem radicalProduct (h : IsInherited s P C) {a b e : Rat} (ha : a ≠ 0) (hone : a ≠ 1)
    (hroot : P (.power (.number b) (.number e))) :
    P (Build.product [.number a, .power (.number b) (.number e)]).value := by
  have hflat : AreFlat [Term.power (.number b) (.number e)] :=
    ⟨List.forall_mem_singleton.2 rfl, List.forall_mem_singleton.2 fun _ => Term.noConfusion⟩
  have hsorted := h.sortedProduct (h.exact a) (decide_eq_false ha) hflat rfl
    (List.forall_mem_singleton.2 hroot)
  unfold Reduction.sortedProduct at hsorted
  simpa [sortBy, insertAll, insertDescending, maxInsertionLength, Coefficient.isOne, hone,
    Coefficient.toTerm] using hsorted

include hunreduced in
theorem radical (h : IsInherited s P C) {b : Rat} (hb : b ≠ 0) {p : Int} {q : Nat} (hq : 2 ≤ q) :
    P (Reduction.radical s b p q unreduced).value := by
  unfold Reduction.radical
  dsimp only
  split
  · exact hunreduced
  · split
    case h_1 => exact h.undefined
    case h_2 wholePower hwhole =>
      split
      case isTrue => exact h.number _
      case isFalse hinside =>
        have hradicand : 0 < Nat.pow b.num.natAbs (p % (q : Int)).toNat *
            Nat.pow b.den (q - (p % (q : Int)).toNat) :=
          Nat.mul_pos (Nat.pow_pos (Int.natAbs_pos.2 (Rat.num_ne_zero.2 hb)))
            (Nat.pow_pos b.den_pos)
        have hroot := h.power (h.number _) (h.number _) (areKept_lowered hradicand hq hinside)
        generalize hcoefficient : wholePower * _ / _ = coefficient
        simp only [Build.value_bind]
        split_ifs with hone
        · exact hroot
        · refine h.radicalProduct ?_ hone hroot
          have houtside := (splitPower_pos hradicand (show q ≠ 0 by omega)).1
          rw [← hcoefficient, Rational.integerPower?_eq hwhole]
          exact div_ne_zero (mul_ne_zero (zpow_ne_zero _ hb) (Nat.cast_ne_zero.2 houtside.ne'))
            (Nat.cast_ne_zero.2 b.den_ne_zero)

include hpow hmul hunreduced in
theorem negativePower (h : IsInherited s P C) {b : Rat} (hb : b ≠ 0) (p : Int) {q : Nat}
    (hq : 2 ≤ q) : P (Reduction.negativePower s pow mul b p q unreduced).value := by
  have hroot : P (Reduction.radical s b.abs p q unreduced).value :=
    h.radical hunreduced (by simpa [Rat.abs_def] using hb) hq
  unfold Reduction.negativePower
  split_ifs
  · exact hroot
  · exact hmul _ (pair (h.number _) hroot)
  · exact hunreduced
  · exact h.nonreal
  · exact hmul _ (pair (hpow _ _ (h.constant .i) (h.number _)) hroot)
  · exact hunreduced

include hpow hmul hunreduced in
theorem rationalPower (h : IsInherited s P C) {b e : Rat} :
    P (Reduction.rationalPower s pow mul b e unreduced).value := by
  unfold Reduction.rationalPower
  split
  · split_ifs
    · exact h.number _
    · exact h.undefined
  case isFalse hb =>
    split
    · split
      · exact hunreduced
      · split
        · exact h.number _
        · exact hunreduced
    case h_2 hwhole =>
      split
      case h_1 => exact hunreduced
      case h_2 p hp =>
        have hden : 2 ≤ e.den := two_le_den hwhole hp
        split_ifs
        · exact hunreduced
        · exact h.negativePower hpow hmul hunreduced hb _ hden
        · exact h.radical hunreduced hb hden

include hmul in
theorem multiplyRepeatedly (h : IsInherited s P C) {found : Term} (count : Nat) (hbase : P base)
    (hfound : P found) : P (Reduction.multiplyRepeatedly mul base count found).value := by
  induction count generalizing found with
  | zero => exact hfound
  | succ count ih =>
    unfold Reduction.multiplyRepeatedly
    exact ih (h.add (pairwise hmul (h.summands hfound) (h.summands hbase)))

include hpow hmul in
theorem exactPower (h : IsInherited s P C) {e : Rat} (hbase : P base)
    (hunreduced : P (.power base (.number e))) :
    P (Reduction.exactPower s pow mul base e).value := by
  unfold Reduction.exactPower
  dsimp only
  split
  case h_1 =>
    unfold imaginaryPower
    split_ifs
    · exact h.number _
    · exact hbase
    · exact h.number _
    · exact hmul _ (pair (h.number _) hbase)
  case h_2 inner innerExponent _ _ =>
    obtain ⟨hinner, hexponent⟩ := h.asPower hbase
    exact hpow _ _ hinner (hmul _ (pair hexponent (h.number e)))
  case h_3 factors _ _ =>
    refine hmul _ fun t ht => ?_
    rw [Build.value_each] at ht
    obtain ⟨factor, hfactor, rfl⟩ := List.mem_map.1 ht
    exact hpow _ _ (h.part hbase hfactor) (h.number e)
  case h_4 first rest _ =>
    split
    · have hrest : P (Build.product rest).value := by
        rw [Build.value_product]
        exact h.rest hbase
      exact hmul _ (pair (hpow _ _ (h.number first) (h.number e)) (hpow _ _ hrest (h.number e)))
    · exact hunreduced
  case h_5 =>
    split
    · exact h.multiplyRepeatedly hmul _ hbase hbase
    · exact hunreduced
  case h_6 => exact hunreduced

include hunreduced in
theorem decimalPower (h : IsInherited s P C) {bits : UInt64} (hbits : P (.decimal bits))
    (x y : Float) : P (Reduction.decimalPower s x y unreduced).value := by
  unfold Reduction.decimalPower
  split_ifs
  · exact h.double hbits 0
  · exact h.undefined
  · exact h.nonreal
  · exact hunreduced
  · exact h.double hbits _

/-- A numeric term that is no number is a decimal. -/
theorem exists_decimal {t : Term} (ht : t.isNumeric = true) (hnumber : ∀ a, t ≠ .number a) :
    ∃ bits, t = .decimal bits := by
  cases t with
  | number a => exact absurd rfl (hnumber a)
  | decimal bits => exact ⟨bits, rfl⟩
  | _ => cases ht

include hpow hmul in
theorem powWith (h : IsInherited s P C) (hbase : P base) (hexponent : P exponent) :
    P (Reduction.powWith s pow mul base exponent).value := by
  unfold Reduction.powWith
  dsimp only
  split
  case h_1 poison hpoison => exact h.poison hpoison
  case h_2 hpoison =>
    split_ifs with hmatrix hzero _ hone
    · exact h.power hbase hexponent (areKept_of_hasMatrix hpoison hmatrix)
    · exact h.undefined
    · exact h.number 1
    · exact hbase
    · have hunreduced : P (Build.make (.power base exponent)).value :=
        h.power hbase hexponent (areKept_of_nontrivial hpoison hzero hone)
      split
      case h_1 => exact h.rationalPower hpow hmul hunreduced
      case h_2 e hnumber =>
        split
        case isTrue hnumeric =>
          obtain ⟨bits, rfl⟩ := exists_decimal hnumeric hnumber
          exact h.decimalPower hunreduced hbase _ _
        case isFalse => exact h.exactPower hpow hmul hbase hunreduced
      case h_3 hnumber _ =>
        split
        case isTrue hnumeric =>
          obtain ⟨bits, rfl⟩ := exists_decimal (Bool.and_eq_true_iff.1 hnumeric).2 hnumber
          exact h.decimalPower hunreduced hexponent _ _
        case isFalse => exact hunreduced

theorem plainPow (h : IsInherited s P C) (hbase : P base) (hexponent : P exponent) :
    P (Reduction.plainPow base exponent).value := by
  unfold Reduction.plainPow
  split
  case h_1 poison hpoison => exact h.poison hpoison
  case h_2 hpoison =>
    split_ifs with hmatrix hzero _ hone
    · exact h.power hbase hexponent (areKept_of_hasMatrix hpoison hmatrix)
    · exact h.undefined
    · exact h.number 1
    · exact hbase
    · exact h.power hbase hexponent (areKept_of_nontrivial hpoison hzero hone)

end Parameters

theorem within (h : IsInherited s P C) (depth : Nat) :
    (∀ factors, (∀ t ∈ factors, P t) → P (mulWithin s depth factors).value) ∧
      ∀ base exponent, P base → P exponent → P (powWithin s depth base exponent).value := by
  induction depth with
  | zero => exact ⟨fun _ => h.plainMul, fun _ _ => h.plainPow⟩
  | succ depth ih => exact ⟨fun _ => h.mulWith ih.2 ih.1, fun _ _ => h.powWith ih.2 ih.1⟩

/-- Products of operands with the property have it. -/
theorem mul (h : IsInherited s P C) (hfactors : ∀ t ∈ factors, P t) :
    P (Reduction.mul s factors).value :=
  (h.within maxDepth).1 factors hfactors

/-- Powers of operands with the property have it. -/
theorem pow (h : IsInherited s P C) (hbase : P base) (hexponent : P exponent) :
    P (Reduction.pow s base exponent).value :=
  (h.within maxDepth).2 base exponent hbase hexponent

/-! ### Exact values of functions -/

section Functions

variable {f : Function} {argument : Term} {b : Build Term} {step : Int}

theorem firstQuarterSine? (h : IsInherited s P C)
    (hb : Reduction.firstQuarterSine? s step = some b) : P b.value := by
  have hroot (a : Rat) : P (Reduction.mul s
      [.number (1 / 2), (Reduction.pow s (.number a) (.number (1 / 2))).value]).value :=
    h.mul (pair (h.number _) (h.pow (h.number a) (h.number _)))
  unfold Reduction.firstQuarterSine? at hb
  dsimp only at hb
  split_ifs at hb <;> cases hb
  · exact h.number 0
  · exact h.number (1 / 2)
  · exact hroot 2
  · exact hroot 3
  · exact h.number 1

theorem exactSine? (h : IsInherited s P C) (hb : Reduction.exactSine? s step = some b) :
    P b.value := by
  unfold Reduction.exactSine? at hb
  obtain ⟨sine, hsine, rfl⟩ := Option.map_eq_some_iff.1 hb
  have hvalue := h.firstQuarterSine? hsine
  rw [Build.value_bind]
  split
  · exact h.mul (pair (h.number (-1)) hvalue)
  · exact hvalue

theorem exactTangent? (h : IsInherited s P C) (hb : Reduction.exactTangent? s step = some b) :
    P b.value := by
  unfold Reduction.exactTangent? at hb
  split at hb
  case h_1 sine cosine hsine hcosine =>
    obtain rfl := Option.some.inj hb
    simp only [Build.value_bind]
    split
    · exact h.undefined
    · exact h.mul (pair (h.exactSine? hsine) (h.pow (h.exactSine? hcosine) (h.number (-1))))
  case h_2 => cases hb

theorem angle (h : IsInherited s P C) (halfTurns : Rat) :
    P (Reduction.angle s halfTurns).value := by
  unfold Reduction.angle
  split
  · exact h.mul (pair (h.number _) (h.constant .pi))
  · exact h.number _
  · exact h.number _

theorem exactInverse? (h : IsInherited s P C)
    (hb : Reduction.exactInverse? s f argument = some b) : P b.value := by
  unfold Reduction.exactInverse? at hb
  split at hb
  · split_ifs at hb
    · cases hb
      exact h.nonreal
    · obtain ⟨halfTurns, -, rfl⟩ := Option.map_eq_some_iff.1 hb
      exact h.angle halfTurns
  · cases hb

theorem exactLogarithm? (h : IsInherited s P C) {isDecimal : Bool}
    (hb : Reduction.exactLogarithm? s isDecimal argument = some b) : P b.value := by
  unfold Reduction.exactLogarithm? at hb
  split at hb
  · split_ifs at hb
    cases hb
    exact h.number 1
  · split_ifs at hb
    · cases hb
      exact h.undefined
    · cases hb
      exact h.nonreal
    · cases hb
      exact h.number 0
    · obtain ⟨k, -, rfl⟩ := Option.map_eq_some_iff.1 hb
      exact h.number k
  · cases hb

theorem exactAbsoluteValue? (h : IsInherited s P C)
    (hb : Reduction.exactAbsoluteValue? argument = some b) : P b.value := by
  unfold Reduction.exactAbsoluteValue? at hb
  split at hb <;> cases hb
  · exact h.number _
  · exact h.number 1
  · exact h.constant _

theorem exactCubeRoot? (h : IsInherited s P C)
    (hb : Reduction.exactCubeRoot? s argument = some b) : P b.value := by
  unfold Reduction.exactCubeRoot? at hb
  split at hb <;> cases hb
  have hroot (a : Rat) : P (Reduction.pow s (.number a) (.number (1 / 3))).value :=
    h.pow (h.number a) (h.number _)
  simp only [Build.value_bind]
  split
  · exact h.mul (pair (h.number (-1)) (hroot _))
  · exact hroot _

/-- Exact values of functions have the property. -/
theorem exactValue? (h : IsInherited s P C) (hb : Reduction.exactValue? s f argument = some b) :
    P b.value := by
  unfold Reduction.exactValue? at hb
  split at hb
  case h_1 =>
    obtain ⟨step, -, hstep⟩ := Option.bind_eq_some_iff.1 hb
    exact h.exactSine? hstep
  case h_2 =>
    obtain ⟨step, -, hstep⟩ := Option.bind_eq_some_iff.1 hb
    exact h.exactSine? hstep
  case h_3 =>
    obtain ⟨step, -, hstep⟩ := Option.bind_eq_some_iff.1 hb
    exact h.exactTangent? hstep
  case h_4 => exact h.exactInverse? hb
  case h_5 => exact h.exactInverse? hb
  case h_6 => exact h.exactInverse? hb
  case h_7 => exact h.exactLogarithm? hb
  case h_8 => exact h.exactLogarithm? hb
  case h_9 => exact h.exactAbsoluteValue? hb
  case h_10 => exact h.exactCubeRoot? hb

theorem decimalValue (h : IsInherited s P C) {bits : UInt64} (hbits : P (.decimal bits))
    (hkept : P (.apply f (.decimal bits))) : P (Reduction.decimalValue s f bits).value := by
  unfold Reduction.decimalValue
  dsimp only
  split_ifs
  · exact h.undefined
  · exact h.double hbits _
  · exact h.nonreal
  · exact hkept

/-- Functions of an argument with the property have it if they have it where they are kept. -/
theorem apply (h : IsInherited s P C) (hargument : P argument)
    (hkept : poison? [argument] = none → P (.apply f argument)) :
    P (Reduction.apply s f argument).value := by
  unfold Reduction.apply
  split
  case h_1 poison hpoison => exact h.poison hpoison
  case h_2 hpoison =>
    have hkept := hkept hpoison
    split
    · exact hkept
    · exact h.decimalValue hargument hkept
    · cases hvalue : Reduction.exactValue? s f argument with
      | none => exact hkept
      | some b => exact h.exactValue? hvalue

end Functions

end IsInherited

end Reduction

end EquationSolver
