import EquationSolver.Proofs.Value.Product
import EquationSolver.Reduction.Power

/-!
# Powers keep their value

A power is computed for numbers, folded for the imaginary unit, pushed into powers and
products, multiplied out for sums, and otherwise left as it is.  Each case keeps the value, if
the roots of numbers are drawn as the valuation has them; from them, products and powers keep
theirs at every depth.
-/

namespace EquationSolver

/-! ### Powers of numbers -/

namespace Rational

theorem toInt?_intCast (n : Int) : toInt? (n : Rat) = some n := by
  simp [toInt?]

theorem eq_intCast_of_toInt? {a : Rat} {n : Int} (h : toInt? a = some n) : a = (n : Rat) := by
  obtain ⟨hden, hnum⟩ := Option.ite_none_right_eq_some.1 h
  rw [← Option.some.inj hnum, Rat.coe_int_num_of_den_eq_one hden]

theorem den_ne_one_of_toInt? {a : Rat} (h : toInt? a = none) : a.den ≠ 1 := by
  intro hden
  rw [toInt?, if_pos hden] at h
  cases h

theorem eq_intCast_of_toInt64Range? {a : Rat} {n : Int} (h : toInt64Range? a = some n) :
    a = (n : Rat) := by
  obtain ⟨m, hm, hn⟩ := Option.bind_eq_some_iff.1 h
  obtain ⟨-, hmn⟩ := Option.ite_none_right_eq_some.1 hn
  rw [← Option.some.inj hmn, eq_intCast_of_toInt? hm]

theorem toInt64Range?_num_of_none {n : Int} (h : toInt64Range? (n : Rat) = none) :
    Integer.toInt64Range? (n : Rat).num = none := by
  simpa [toInt64Range?, toInt?_intCast] using h

/-- A number that is no integer in the range has a fraction or a numerator beyond the range. -/
theorem den_ne_one_of_toInt64Range? {a : Rat} {p : Int} (h : toInt64Range? a = none)
    (hp : Integer.toInt64Range? a.num = some p) : a.den ≠ 1 := by
  intro hden
  rw [toInt64Range?, toInt?, if_pos hden] at h
  cases hp.symm.trans h

theorem integerPower?_eq {a v : Rat} {n : Int} (h : integerPower? a n = some v) : v = a ^ n := by
  unfold integerPower? at h
  split at h
  · simp at h
  · split at h
    case isTrue hn =>
      obtain ⟨k, rfl⟩ := Int.eq_ofNat_of_zero_le hn
      have hv : Rat.pow a k = v := by simpa using h
      rw [← hv, zpow_natCast]
      rfl
    case isFalse hn =>
      split at h
      · simp at h
      · obtain ⟨k, rfl⟩ := Int.eq_negSucc_of_lt_zero (by omega : n < 0)
        have hv : Rat.pow a⁻¹ (k + 1) = v := by simpa using h
        rw [← hv, zpow_negSucc, ← inv_pow]
        rfl

end Rational

/-- The roots of positive numbers are drawn as the reading has them. -/
def Reading.DrawsRoots {K : Type*} [Field K] (R : Reading K) (s : Reduction.Settings) : Prop :=
  ∀ b q : Rat, 0 < b → q.den ≠ 1 → R.IsDefined (b : K) q → ∀ unreduced : Build Term,
    R.Denotes unreduced.value (R.power b q) →
      R.Denotes (Reduction.radical s b q.num q.den unreduced).value (R.power b q)

namespace Reduction

open Reading

variable {K : Type*} [Field K] {R : Reading K}

/-- The product of two numbers is a number. -/
def MultipliesNumbers (mul : List Term → Build Term) : Prop :=
  ∀ a b : Rat, (mul [.number a, .number b]).value = .number (a * b)

/-- A power that is left as it is keeps its value. -/
theorem unreduced_denotes {base exponent : Term} (h : R.HasValue (.power base exponent)) :
    R.Denotes (Build.make (.power base exponent)).value (R.value (.power base exponent)) :=
  .of_hasValue h

/-- The roots of positive numbers are drawn as the valuation has them. -/
def DrawsRoots (V : Valuation K) (s : Settings) : Prop :=
  ∀ b q : Rat, 0 < b → q.den ≠ 1 → V.IsDefined (b : K) q → ∀ unreduced : Build Term,
    V.Denotes unreduced.value (V.power b q) →
      V.Denotes (radical s b q.num q.den unreduced).value (V.power b q)

theorem DrawsRoots.reading {V : Valuation K} {s : Settings} (h : DrawsRoots V s) :
    V.reading.DrawsRoots s :=
  fun b q hb hq hdefined unreduced hunreduced =>
    (h b q hb hq hdefined unreduced (.of_reading hunreduced)).reading

theorem DrawsRoots.of_reading {V : Valuation K} {s : Settings} (h : V.reading.DrawsRoots s) :
    DrawsRoots V s :=
  fun b q hb hq hdefined unreduced hunreduced =>
    .of_reading (h b q hb hq hdefined unreduced hunreduced.reading)

theorem rationalPower_denotes [CharZero K] {s : Settings} (hroots : R.DrawsRoots s)
    {pow : Term → Term → Build Term} {mul : List Term → Build Term} {b q : Rat}
    (h : R.HasValue (.power (.number b) (.number q))) :
    R.Denotes (rationalPower s pow mul b q (Build.make (.power (.number b) (.number q)))).value
      (R.value (.power (.number b) (.number q))) := by
  have hdefined : R.IsDefined (b : K) q := by simpa using (R.hasValue_power.1 h).2
  have hvalue : R.value (.power (.number b) (.number q)) = R.power (b : K) q := by simp
  unfold rationalPower
  split
  case isTrue hzero =>
    rw [hzero, Rat.cast_zero] at hdefined
    rw [if_pos (R.pos_of_isDefined_zero hdefined)]
    refine (Denotes.number 0).congr ?_
    rw [hvalue, hzero, Rat.cast_zero, R.power_zero hdefined]
  case isFalse hne =>
    split
    case h_1 n hn =>
      obtain rfl := Rational.eq_intCast_of_toInt64Range? hn
      split
      · exact unreduced_denotes h
      · split
        case h_1 v hv =>
          refine (Denotes.number v).congr ?_
          rw [hvalue, Rational.integerPower?_eq hv, Rat.cast_zpow, R.power_intCast]
        case h_2 => exact unreduced_denotes h
    case h_2 hnone =>
      split
      case h_1 => exact unreduced_denotes h
      case h_2 p hp =>
        have hden := Rational.den_ne_one_of_toInt64Range? hnone hp
        obtain ⟨-, hnum⟩ := Option.ite_none_right_eq_some.1 hp
        obtain rfl := Option.some.inj hnum
        have hpos : 0 < b := lt_of_le_of_ne (R.nonneg hdefined hden) (Ne.symm hne)
        split
        · exact unreduced_denotes h
        · rw [if_neg hpos.not_gt, hvalue]
          exact hroots b q hpos hden hdefined _ (hvalue ▸ unreduced_denotes h)

/-! ### Powers of the imaginary unit -/

theorem imaginary_zpow {i : K} (hi : i * i = -1) (n : Int) : i ^ n = i ^ (n % 4) := by
  have hne : i ≠ 0 := by
    rintro rfl
    rw [zero_mul, eq_comm, neg_eq_zero] at hi
    exact one_ne_zero hi
  have hfour : i ^ (4 : Int) = 1 := by
    calc i ^ (4 : Int) = (i * i) * (i * i) := by
          rw [show (4 : Int) = ((4 : Nat) : Int) from rfl, zpow_natCast]; ring
      _ = 1 := by rw [hi]; ring
  conv_lhs => rw [← Int.mul_ediv_add_emod n 4, zpow_add₀ hne, zpow_mul, hfour, one_zpow, one_mul]

theorem imaginaryPower_denotes {mul : List Term → Build Term} (hmul : KeepsProducts R mul)
    (hi : R.HasValue (.constant .i)) (n : Int) :
    R.Denotes (imaginaryPower mul n).value (R.value (.constant .i) ^ n) := by
  have hdenotes : R.Denotes (.constant .i) (R.value (.constant .i)) := .of_hasValue hi
  have hsq := R.i_mul_i hi
  rw [imaginary_zpow hsq]
  unfold imaginaryPower
  split
  case isTrue h => exact (Denotes.number 1).congr (by rw [h]; simp)
  case isFalse h0 =>
    split
    case isTrue h => exact hdenotes.congr (by rw [h]; simp)
    case isFalse h1 =>
      split
      case isTrue h =>
        refine (Denotes.number (-1)).congr ?_
        rw [h, show (2 : Int) = ((2 : Nat) : Int) from rfl, zpow_natCast, pow_two, hsq]
        simp
      case isFalse h2 =>
        have h3 : n % 4 = ((3 : Nat) : Int) := by omega
        refine (hmul [.number (-1), .constant .i] ?_).congr ?_
        · intro t ht
          rcases List.mem_pair.1 ht with rfl | rfl
          · exact R.hasValue_number _
          · exact hdenotes.hasValue
        · have hcube : R.value (.constant .i) ^ 3 = -R.value (.constant .i) := by
            calc R.value (.constant .i) ^ 3
                = (R.value (.constant .i) * R.value (.constant .i)) * R.value (.constant .i) := by
                  ring
              _ = -R.value (.constant .i) := by rw [hsq]; ring
          rw [h3, zpow_natCast, hcube]
          simp

/-! ### Powers of other terms -/

theorem multiplyRepeatedly_denotes [CharZero K] {mul : List Term → Build Term}
    (hmul : KeepsProducts R mul) {base : Term} (hbase : R.HasValue base) (count : Nat)
    {found : Term} (hfound : R.HasValue found) :
    R.Denotes (multiplyRepeatedly mul base count found).value
      (R.value found * R.value base ^ count) := by
  induction count generalizing found with
  | zero => exact (Denotes.of_hasValue hfound).congr (by simp)
  | succ count ih =>
    obtain ⟨hterms, hsum⟩ := pairwise_value hmul
      (fun t ht => hasValue_of_mem_summands hfound ht)
      (fun t ht => hasValue_of_mem_summands hbase ht)
    have hadd := add_denotes hterms
    rw [multiplyRepeatedly, Build.value_bind, Build.value_bind]
    refine (ih hadd.hasValue).congr ?_
    rw [hadd.value_eq, hsum, sum_summands, sum_summands, pow_succ]
    ring

theorem prod_map_zpow (values : List K) (n : Int) :
    (values.map fun v => v ^ n).prod = values.prod ^ n := by
  induction values with
  | nil => simp
  | cons v rest ih => simp [ih, mul_zpow]

theorem exactPower_denotes [CharZero K] {s : Settings} {pow : Term → Term → Build Term}
    {mul : List Term → Build Term} (hpow : KeepsPowers R pow) (hmul : KeepsProducts R mul)
    (hnumbers : MultipliesNumbers mul) {base : Term} {q : Rat}
    (h : R.HasValue (.power base (.number q))) :
    R.Denotes (exactPower s pow mul base q).value (R.value (.power base (.number q))) := by
  obtain ⟨hbase, hdefined⟩ := R.hasValue_power.1 h
  unfold exactPower
  split
  case h_1 n hn =>
    obtain rfl := Rational.eq_intCast_of_toInt? hn
    refine (imaginaryPower_denotes hmul hbase n).congr ?_
    rw [value_power, R.power_intCast]
  case h_2 inner exponent n hn =>
    obtain rfl := Rational.eq_intCast_of_toInt? hn
    obtain ⟨r, rfl, hinner, hr⟩ := hbase.exponent_eq
    rw [value_power] at hdefined
    rw [Build.value_bind, hnumbers]
    refine (hpow inner _ (R.hasValue_power.2 ⟨hinner, R.isDefined_mul hr hdefined⟩)).congr ?_
    rw [value_power, value_power, value_power, R.power_mul hr hdefined, R.power_intCast]
  case h_3 factors n hn =>
    obtain rfl := Rational.eq_intCast_of_toInt? hn
    obtain ⟨hfactors, -⟩ := R.hasValue_product.1 hbase
    have hpos := R.isDefined_intCast.1 hdefined
    have hpowers : ∀ t ∈ factors,
        R.Denotes (pow t (.number (n : Rat))).value (R.value t ^ n) := by
      intro t ht
      refine (hpow t _ (R.hasValue_power.2 ⟨hfactors t ht, ?_⟩)).congr ?_
      · refine R.isDefined_intCast.2 fun hzero => hpos ?_
        rw [value_product]
        exact List.prod_eq_zero (List.mem_map.2 ⟨t, ht, hzero⟩)
      · rw [value_power, R.power_intCast]
    rw [Build.value_bind, Build.value_each]
    refine (hmul _ ?_).congr ?_
    · intro u hu
      obtain ⟨t, ht, rfl⟩ := List.mem_map.1 hu
      exact (hpowers t ht).hasValue
    · rw [value_power, R.power_intCast, value_product, ← prod_map_zpow, List.map_map, List.map_map]
      exact congrArg List.prod (List.map_congr_left fun t ht => (hpowers t ht).value_eq)
  case h_4 c rest hnone =>
    have hden := Rational.den_ne_one_of_toInt? hnone
    obtain ⟨hfactors, hzero⟩ := R.hasValue_product.1 hbase
    replace hzero := hzero (R.hasRoots_of_isDefined hdefined hden)
    split
    case isTrue hc =>
      -- a factor that is the number zero was ruled out, so the coefficient is positive
      have hpos : 0 < c :=
        lt_of_le_of_ne hc fun heq => hzero (heq ▸ List.mem_cons_self)
      have hrest := Denotes.productOf (fun t ht => hfactors t (List.mem_cons_of_mem _ ht))
        fun _ hmem => hzero (List.mem_cons_of_mem _ hmem)
      have hvalue : R.value (.product (.number c :: rest)) =
          (c : K) * (rest.map R.value).prod := by simp
      rw [hvalue] at hdefined
      obtain ⟨hcDefined, hrestDefined⟩ := R.isDefined_split hpos hden hdefined
      have houter := hpow (.number c) (.number q)
        (R.hasValue_power.2 ⟨R.hasValue_number c, by simpa using hcDefined⟩)
      have hinner := hpow (Term.productOf rest) (.number q)
        (R.hasValue_power.2 ⟨hrest.hasValue, hrest.value_eq.symm ▸ hrestDefined⟩)
      simp only [Build.value_bind, Build.value_product]
      refine (hmul _ ?_).congr ?_
      · intro t ht
        rcases List.mem_pair.1 ht with rfl | rfl
        · exact houter.hasValue
        · exact hinner.hasValue
      · rw [value_power, hvalue, R.power_split hpos hden hdefined]
        simp [houter.value_eq, hinner.value_eq, hrest.value_eq]
    case isFalse => exact unreduced_denotes h
  case h_5 terms n hn =>
    obtain rfl := Rational.eq_intCast_of_toInt? hn
    split
    case isTrue hexp =>
      have hn : 2 ≤ n := by
        simp only [isExpandable, Bool.and_eq_true, decide_eq_true_eq] at hexp
        exact hexp.1.1.1.2
      refine (multiplyRepeatedly_denotes hmul hbase (n.toNat - 1) hbase).congr ?_
      rw [value_power, R.power_intCast, ← pow_succ', ← zpow_natCast]
      congr 1
      omega
    case isFalse => exact unreduced_denotes h
  case h_6 => exact unreduced_denotes h

/-- The cases of a power that are decided before its base is looked at. -/
theorem power_trivial {base : Term} {q : Rat} (h : R.HasValue (.power base (.number q))) :
    (q = 0 → base.isZero = false ∧ R.value (.power base (.number q)) = 1) ∧
      ((Term.number q).isOne || base.isOne → R.Denotes base
        (R.value (.power base (.number q)))) := by
  obtain ⟨hbase, hdefined⟩ := R.hasValue_power.1 h
  constructor
  · rintro rfl
    obtain ⟨hne, hone⟩ := power_exponent_zero hdefined
    refine ⟨?_, by rw [value_power, hone]⟩
    cases base with
    | number b =>
      refine decide_eq_false fun hb => hne ?_
      rw [value_number, hb, Rat.cast_zero]
    | _ => rfl
  · intro hone
    refine (Denotes.of_hasValue hbase).congr ?_
    rw [value_power]
    rcases Bool.or_eq_true _ _ ▸ hone with hq | hb
    · have : q = 1 := by simpa [Term.isOne] using hq
      rw [this, power_exponent_one]
    · cases base with
      | number b =>
        obtain rfl : b = 1 := by simpa [Term.isOne] using hb
        rw [value_number, Rat.cast_one] at hdefined ⊢
        exact (R.power_one hdefined).symm
      | _ => simp [Term.isOne] at hb

/-- The power of a base in standard form keeps its value, if smaller powers and products
    keep theirs. -/
theorem keepsPowers_powWith [CharZero K] {s : Settings} (hroots : R.DrawsRoots s)
    {pow : Term → Term → Build Term} {mul : List Term → Build Term} (hpow : KeepsPowers R pow)
    (hmul : KeepsProducts R mul) (hnumbers : MultipliesNumbers mul) :
    KeepsPowers R (powWith s pow mul) := by
  intro base exponent h
  obtain ⟨q, rfl, hbase, -⟩ := h.exponent_eq
  obtain ⟨hzero, hone⟩ := power_trivial h
  have hplain : ∀ t ∈ [base, .number q], IsPlain t := by
    intro t ht
    rcases List.mem_pair.1 ht with rfl | rfl
    · exact R.isPlain hbase
    · trivial
  unfold powWith
  simp only [poison?_eq_none hplain, hasMatrix_eq_false hplain, Bool.false_eq_true, if_false]
  split
  case isTrue hq =>
    have hq : q = 0 := by simpa [Term.isZero] using hq
    rw [if_neg (by simp [(hzero hq).1]), (hzero hq).2]
    exact (Denotes.number 1).congr (by simp)
  case isFalse =>
    split
    case isTrue h1 => exact hone h1
    case isFalse hnot =>
      clear hnot
      split
      case h_1 b e heq =>
        cases heq
        exact rationalPower_denotes hroots h
      case h_2 base base' exponent' e hne heq =>
        cases heq
        have hnumeric : base.isNumeric = false := by
          cases base with
          | number b => exact (hne b rfl).elim
          | decimal bits => exact absurd hbase (R.not_hasValue_decimal bits)
          | _ => rfl
        rw [hnumeric]
        exact exactPower_denotes hpow hmul hnumbers h
      case h_3 hnumber _ => exact (hnumber q rfl).elim

theorem keepsPowers_plainPow : KeepsPowers R plainPow := by
  intro base exponent h
  obtain ⟨q, rfl, hbase, -⟩ := h.exponent_eq
  obtain ⟨hzero, hone⟩ := power_trivial h
  have hplain : ∀ t ∈ [base, .number q], IsPlain t := by
    intro t ht
    rcases List.mem_pair.1 ht with rfl | rfl
    · exact R.isPlain hbase
    · trivial
  unfold plainPow
  simp only [poison?_eq_none hplain, hasMatrix_eq_false hplain, Bool.false_eq_true, if_false]
  split
  case isTrue hq =>
    have hq : q = 0 := by simpa [Term.isZero] using hq
    rw [if_neg (by simp [(hzero hq).1]), (hzero hq).2]
    exact (Denotes.number 1).congr (by simp)
  case isFalse =>
    split
    case isTrue h1 => exact hone h1
    case isFalse => exact unreduced_denotes h

/-! ### Products and powers together -/

theorem multipliesNumbers_mulWith (s : Settings) (pow : Term → Term → Build Term)
    (mul : List Term → Build Term) : MultipliesNumbers (mulWith s pow mul) := by
  intro a b
  have hproduct := mulWith_numbers s pow mul [a, b]
  simpa using hproduct

theorem multipliesNumbers_plainMul : MultipliesNumbers plainMul := by
  intro a b
  have habsorb : absorb .one [.number a, .number b] = (.exact (a * b), []) := by
    simpa [Coefficient.one] using absorb_numbers [a, b] 1
  unfold plainMul
  rw [habsorb]
  simp only [poison?_nil, hasMatrix_nil, Bool.false_eq_true, if_false]
  split <;> rfl

theorem multipliesNumbers_mulWithin (s : Settings) (depth : Nat) :
    MultipliesNumbers (mulWithin s depth) := by
  cases depth with
  | zero => exact multipliesNumbers_plainMul
  | succ depth => exact multipliesNumbers_mulWith s _ _

/-- Products and powers keep their values at every depth. -/
theorem keeps_mulWithin_powWithin [CharZero K] {s : Settings} (hroots : R.DrawsRoots s)
    (depth : Nat) : KeepsProducts R (mulWithin s depth) ∧ KeepsPowers R (powWithin s depth) := by
  induction depth with
  | zero => exact ⟨keepsProducts_plainMul, keepsPowers_plainPow⟩
  | succ depth ih =>
    obtain ⟨hmul, hpow⟩ := ih
    exact ⟨keepsProducts_mulWith hpow hmul,
      keepsPowers_powWith hroots hpow hmul (multipliesNumbers_mulWithin s depth)⟩

theorem mul_denotes [CharZero K] {s : Settings} (hroots : R.DrawsRoots s) {factors : List Term}
    (h : ∀ t ∈ factors, R.HasValue t) :
    R.Denotes (mul s factors).value (factors.map R.value).prod :=
  (keeps_mulWithin_powWithin hroots maxDepth).1 factors h

theorem pow_denotes [CharZero K] {s : Settings} (hroots : R.DrawsRoots s) {base exponent : Term}
    (h : R.HasValue (.power base exponent)) :
    R.Denotes (pow s base exponent).value (R.value (.power base exponent)) :=
  (keeps_mulWithin_powWithin hroots maxDepth).2 base exponent h

theorem inverse_denotes [CharZero K] {s : Settings} (hroots : R.DrawsRoots s) {t : Term}
    (h : R.HasValue t) (hne : R.value t ≠ 0) :
    R.Denotes (pow s t (.number (-1))).value (R.value t)⁻¹ := by
  have hdefined : R.IsDefined (R.value t) ((-1 : Int) : Rat) :=
    R.isDefined_intCast.2 fun hzero => absurd hzero hne
  have hpower := pow_denotes hroots (R.hasValue_power.2 ⟨h, hdefined⟩)
  rw [value_power, R.power_intCast, zpow_neg_one] at hpower
  simpa using hpower

section Pairs

variable [CharZero K] {s : Settings} {t u : Term} {v w : K}

theorem add_pair_denotes (ht : R.Denotes t v) (hu : R.Denotes u w) :
    R.Denotes (add [t, u]).value (v + w) := by
  refine (add_denotes ?_).congr (by simp [ht.value_eq, hu.value_eq])
  exact List.forall_mem_cons.2 ⟨ht.hasValue, List.forall_mem_singleton.2 hu.hasValue⟩

theorem mul_pair_denotes (hroots : R.DrawsRoots s) (ht : R.Denotes t v) (hu : R.Denotes u w) :
    R.Denotes (mul s [t, u]).value (v * w) := by
  refine (mul_denotes hroots ?_).congr (by simp [ht.value_eq, hu.value_eq])
  exact List.forall_mem_cons.2 ⟨ht.hasValue, List.forall_mem_singleton.2 hu.hasValue⟩

end Pairs

end Reduction

/-! ### In a valuation -/

namespace Valuation

open Reduction (Settings DrawsRoots)

variable {K : Type*} [Field K] [CharZero K] {V : Valuation K} {s : Settings}

theorem add_denotes {terms : List Term} (h : ∀ t ∈ terms, V.HasValue t) :
    V.Denotes (Reduction.add terms).value (terms.map V.value).sum :=
  .of_reading (Reduction.add_denotes (R := V.reading) h)

theorem mul_denotes (hroots : DrawsRoots V s) {factors : List Term}
    (h : ∀ t ∈ factors, V.HasValue t) :
    V.Denotes (Reduction.mul s factors).value (factors.map V.value).prod :=
  .of_reading (Reduction.mul_denotes hroots.reading h)

theorem pow_denotes (hroots : DrawsRoots V s) {base exponent : Term}
    (h : V.HasValue (.power base exponent)) :
    V.Denotes (Reduction.pow s base exponent).value (V.value (.power base exponent)) :=
  .of_reading (Reduction.pow_denotes hroots.reading h)

theorem inverse_denotes (hroots : DrawsRoots V s) {t : Term} (h : V.HasValue t)
    (hne : V.value t ≠ 0) :
    V.Denotes (Reduction.pow s t (.number (-1))).value (V.value t)⁻¹ :=
  .of_reading (Reduction.inverse_denotes hroots.reading h hne)

end Valuation

end EquationSolver
