import EquationSolver.Proofs.Number.PerfectPower
import EquationSolver.Proofs.Number.Size
import EquationSolver.Proofs.Value.Power
import Mathlib.Analysis.SpecialFunctions.Pow.Real

/-!
# Real values

Terms are read as real numbers: powers with exponents that are no integers are those of
numbers that are not negative, and the imaginary unit has no value.  The roots of numbers are
drawn as they are in the real numbers.
-/

namespace EquationSolver

/-! ### Powers of real numbers -/

namespace Rational

theorem eq_intCast_of_den_eq_one {q : Rat} (h : q.den = 1) : q = (q.num : Rat) :=
  (Rat.coe_int_num_of_den_eq_one h).symm

theorem den_add_eq_one {q r : Rat} (hq : q.den = 1) (hr : r.den = 1) : (q + r).den = 1 := by
  rw [eq_intCast_of_den_eq_one hq, eq_intCast_of_den_eq_one hr, ← Int.cast_add]
  exact Rat.den_intCast _

theorem den_mul_intCast_eq_one {q : Rat} (n : Int) (hq : q.den = 1) : (q * n).den = 1 := by
  rw [eq_intCast_of_den_eq_one hq, ← Int.cast_mul]
  exact Rat.den_intCast _

end Rational

open Rational in
/-- The powers of the real numbers: those of zero have to be positive, and those of negative
    numbers integers. -/
noncomputable def PowerRule.real : PowerRule ℝ where
  IsDefined v q := (v = 0 → 0 < q) ∧ (q.den ≠ 1 → 0 ≤ v)
  power v q := v ^ (q : ℝ)
  hasRoots := True
  hasRoots_of_isDefined _ _ := trivial
  isDefined_intCast := by
    intro v n
    simp
  power_intCast v n := by rw [Rat.cast_intCast, Real.rpow_intCast]
  pos_of_isDefined_zero h := h.1 rfl
  power_zero := by
    rintro q ⟨hpos, -⟩
    exact Real.zero_rpow (Rat.cast_ne_zero.2 (hpos rfl).ne')
  power_one _ := Real.one_rpow _
  isDefined_add := by
    rintro v q r ⟨hq, hq'⟩ ⟨hr, hr'⟩
    refine ⟨fun hv => add_pos (hq hv) (hr hv), fun hden => ?_⟩
    by_cases hone : q.den = 1
    · exact hr' fun hone' => hden (den_add_eq_one hone hone')
    · exact hq' hone
  power_add := by
    rintro v q r ⟨hq, hq'⟩ ⟨hr, hr'⟩
    rcases lt_trichotomy v 0 with hneg | rfl | hpos
    · -- both exponents are integers, since the base is negative
      have hden : q.den = 1 := not_not.1 fun h => hneg.not_ge (hq' h)
      have hden' : r.den = 1 := not_not.1 fun h => hneg.not_ge (hr' h)
      rw [eq_intCast_of_den_eq_one hden, eq_intCast_of_den_eq_one hden', ← Int.cast_add,
        Rat.cast_intCast, Rat.cast_intCast, Rat.cast_intCast, Real.rpow_intCast,
        Real.rpow_intCast, Real.rpow_intCast, zpow_add₀ hneg.ne]
    · have hzero {q : Rat} (hpos : 0 < q) : (0 : ℝ) ^ (q : ℝ) = 0 :=
        Real.zero_rpow (Rat.cast_ne_zero.2 hpos.ne')
      rw [hzero (hq rfl), zero_mul, hzero (add_pos (hq rfl) (hr rfl))]
    · rw [Rat.cast_add, Real.rpow_add hpos]
  isDefined_mul := by
    rintro v q n ⟨hq, hq'⟩ ⟨hn, -⟩
    refine ⟨?_, fun hden => hq' fun hone => hden (den_mul_intCast_eq_one n hone)⟩
    rintro rfl
    have hpower : (0 : ℝ) ^ (q : ℝ) = 0 := Real.zero_rpow (Rat.cast_ne_zero.2 (hq rfl).ne')
    exact mul_pos (hq rfl) (hn hpower)
  power_mul := by
    rintro v q n ⟨hq, hq'⟩ -
    rw [Rat.cast_mul, Rat.cast_intCast]
    rcases lt_or_ge v 0 with hneg | hnonneg
    · have hden : q.den = 1 := not_not.1 fun h => hneg.not_ge (hq' h)
      rw [eq_intCast_of_den_eq_one hden, Rat.cast_intCast, ← Int.cast_mul, Real.rpow_intCast,
        Real.rpow_intCast, zpow_mul]
    · rw [Real.rpow_mul hnonneg, Real.rpow_intCast]
  nonneg := by
    rintro a q ⟨-, h⟩ hden
    exact_mod_cast h hden
  isDefined_split := by
    rintro a q v ha hden ⟨hzero, hnonneg⟩
    have ha' : (0 : ℝ) < a := by exact_mod_cast ha
    refine ⟨⟨fun h => absurd h ha'.ne', fun _ => ha'.le⟩, ?_, fun h => ?_⟩
    · intro hv
      exact hzero (by rw [hv, mul_zero])
    · exact (mul_nonneg_iff_of_pos_left ha').1 (hnonneg h)
  power_split := by
    rintro a q v ha hden ⟨-, hnonneg⟩
    have ha' : (0 : ℝ) < a := by exact_mod_cast ha
    exact Real.mul_rpow ha'.le ((mul_nonneg_iff_of_pos_left ha').1 (hnonneg hden))

/-! ### Real values of terms -/

/-- What terms are as real numbers, with these numbers for the symbols. -/
noncomputable def Valuation.real (ρ : String → ℝ) : Valuation ℝ where
  toPowerRule := .real
  symbol := ρ
  constant
    | .pi => Real.pi
    | .e => Real.exp 1
    | .i => 0
  HasConstant c := c ≠ .i
  i_mul_i h := absurd rfl h

namespace Valuation

theorem denotes_symbol (ρ : String → ℝ) (name : String) :
    (real ρ).Denotes (.symbol name) (ρ name) :=
  ⟨by simp [HasValue], by simp [value, real]⟩

/-- A positive number has all powers. -/
theorem Denotes.rpow {ρ : String → ℝ} {base : Term} {v : ℝ} (h : (real ρ).Denotes base v)
    (hpos : 0 < v) (q : Rat) : (real ρ).Denotes (.power base (.number q)) (v ^ (q : ℝ)) := by
  obtain ⟨hbase, rfl⟩ := h
  refine ⟨hasValue_power.2 ⟨hbase, fun hzero => absurd hzero hpos.ne', fun _ => hpos.le⟩, ?_⟩
  rw [value_power]
  rfl

end Valuation

/-! ### Roots of numbers -/

/-- Positive numbers have the powers that they have among the real numbers, which the field
    contains. -/
def Reading.HasRealPowers {K : Type*} [Field K] (R : Reading K) (φ : ℝ →+* K) : Prop :=
  ∀ a q : Rat, 0 < a → R.IsDefined (a : K) q ∧ R.power (a : K) q = φ ((a : ℝ) ^ (q : ℝ))

theorem hasRealPowers_real (ρ : String → ℝ) :
    (Valuation.real ρ).reading.HasRealPowers (.id ℝ) := by
  intro a q ha
  have hpos : (0 : ℝ) < a := by exact_mod_cast ha
  exact ⟨⟨fun h => absurd h hpos.ne', fun _ => hpos.le⟩, rfl⟩

namespace Reduction

/-- A positive power of a fraction has the denominator of the fraction taken out, as often as the
    index of the root to be drawn says. -/
theorem pow_eq_div {b : Rat} {r n : Nat} (hb : 0 < b) (hr : r ≤ n) :
    (b : ℝ) ^ r = ((b.num.natAbs ^ r * b.den ^ (n - r) : Nat) : ℝ) / (b.den : ℝ) ^ n := by
  have hden : (b.den : ℝ) ≠ 0 := Nat.cast_ne_zero.2 b.den_ne_zero
  have hnum : (b.num.natAbs : ℝ) = (b.num : ℝ) := by
    rw [Nat.cast_natAbs, abs_of_pos (Rat.num_pos.2 hb)]
  have hsplit : (b.den : ℝ) ^ n = (b.den : ℝ) ^ r * (b.den : ℝ) ^ (n - r) := by
    rw [← pow_add, Nat.add_sub_cancel' hr]
  rw [Rat.cast_def, div_pow, Nat.cast_mul, Nat.cast_pow, Nat.cast_pow, hnum, hsplit,
    mul_div_mul_right _ _ (pow_ne_zero _ hden)]

/-- The exponent is split into a whole part and a remainder. -/
theorem rpow_eq_root {b q : Rat} (hb : 0 < b) :
    (b : ℝ) ^ (q : ℝ) = (b : ℝ) ^ (q.num / (q.den : Int)) *
      ((b.num.natAbs ^ (q.num % (q.den : Int)).toNat *
        b.den ^ (q.den - (q.num % (q.den : Int)).toNat) : Nat) : ℝ) ^ ((q.den : ℝ)⁻¹) / b.den := by
  have hb' : (0 : ℝ) < b := by exact_mod_cast hb
  have hden : (0 : Int) < q.den := Int.natCast_pos.2 q.den_pos
  have hremainder := Int.emod_nonneg q.num hden.ne'
  have hlt := Int.emod_lt_of_pos q.num hden
  generalize hr : (q.num % (q.den : Int)).toNat = r
  have hr' : q.num % (q.den : Int) = r := by omega
  have hq : (q : ℝ) = ((q.num / (q.den : Int) : Int) : ℝ) + (r : ℝ) * (q.den : ℝ)⁻¹ := by
    have hnum := Int.mul_ediv_add_emod q.num q.den
    rw [hr'] at hnum
    have hne : (q.den : ℝ) ≠ 0 := Nat.cast_ne_zero.2 q.den_ne_zero
    rw [Rat.cast_def, div_eq_iff hne, add_mul, mul_assoc, inv_mul_cancel₀ hne, mul_one]
    conv_lhs => rw [← hnum]
    push_cast
    ring
  have hroot : (b : ℝ) ^ ((r : ℝ) * (q.den : ℝ)⁻¹) =
      ((b.num.natAbs ^ r * b.den ^ (q.den - r) : Nat) : ℝ) ^ ((q.den : ℝ)⁻¹) / b.den := by
    rw [Real.rpow_mul hb'.le, Real.rpow_natCast, pow_eq_div hb (by omega : r ≤ q.den),
      Real.div_rpow (Nat.cast_nonneg _) (by positivity),
      Real.pow_rpow_inv_natCast (Nat.cast_nonneg _) q.den_ne_zero]
  rw [hq, Real.rpow_add hb', Real.rpow_intCast, hroot, mul_div_assoc]

/-- A root is what comes out of it times the root of what is left inside. -/
theorem root_eq (a n : Nat) (hn : n ≠ 0) :
    (a : ℝ) ^ ((n : ℝ)⁻¹) =
      (splitPower a n).1 * ((splitPower a n).2 : ℝ) ^ ((n : ℝ)⁻¹) := by
  conv_lhs => rw [← splitPower_spec a n]
  rw [Nat.cast_mul, Nat.cast_pow, Real.mul_rpow (by positivity) (Nat.cast_nonneg _),
    Real.pow_rpow_inv_natCast (Nat.cast_nonneg _) hn]

/-- A root with its index lowered is the same number. -/
theorem root_lowerIndex (a n : Nat) (hn : n ≠ 0) :
    ((lowerIndex a n).1 : ℝ) ^ (((lowerIndex a n).2 : ℝ)⁻¹) = (a : ℝ) ^ ((n : ℝ)⁻¹) := by
  obtain ⟨g, hindex, hpower⟩ := lowerIndex_spec a n
  generalize (lowerIndex a n).1 = radicand at hpower ⊢
  generalize (lowerIndex a n).2 = index at hindex ⊢
  obtain rfl := hindex
  obtain rfl := hpower
  have hg : g ≠ 0 := right_ne_zero_of_mul hn
  rw [Nat.cast_pow, Nat.cast_mul, mul_inv, mul_comm, Real.rpow_mul (by positivity),
    Real.pow_rpow_inv_natCast (Nat.cast_nonneg _) hg]

section Reading

variable {K : Type*} [Field K] {R : Reading K} {φ : ℝ →+* K}

/-- The root that is left is a number that is not negative. -/
theorem root_denotes (h : R.HasRealPowers φ) {radicand : Nat} (index : Nat)
    (hradicand : 0 < radicand) :
    R.Denotes (.power (.number (radicand : Rat)) (.number (1 / (index : Rat))))
      (φ ((radicand : ℝ) ^ ((index : ℝ)⁻¹))) := by
  obtain ⟨hdefined, hpower⟩ := h (radicand : Rat) (1 / (index : Rat)) (by exact_mod_cast hradicand)
  constructor
  · rw [Reading.hasValue_power, Reading.value_number]
    exact ⟨R.hasValue_number _, hdefined⟩
  · rw [Reading.value_power, Reading.value_number, hpower]
    push_cast
    rw [one_div]

/-- A multiple of a term that is no number. -/
theorem multiple_denotes {t : Term} {c : Rat} {v : K} (h : R.Denotes t v) (hc : c ≠ 0)
    (ht : t.isNumeric = false) : R.Denotes (Term.productOf [.number c, t]) ((c : K) * v) := by
  refine (Reading.Denotes.productOf ?_ fun _ hzero => ?_).congr ?_
  · intro u hu
    rcases List.mem_pair.1 hu with rfl | rfl
    · exact R.hasValue_number c
    · exact h.hasValue
  · rcases List.mem_pair.1 hzero with heq | rfl
    · exact hc (Term.number.inj heq).symm
    · cases ht
  · simp [h.value_eq]

/-- The roots of numbers are drawn as they are in the real numbers. -/
theorem drawsRoots_of_realPowers {s : Settings} (hlimit : s.limits.maxExponentBits = 4096)
    (h : R.HasRealPowers φ) : R.DrawsRoots s := by
  intro b q hb hden hdefined unreduced hunreduced
  unfold radical
  dsimp only
  split
  case isTrue => exact hunreduced
  case isFalse hfits =>
    have hfits : s.fits b ((q.num / (q.den : Int)).natAbs + q.den) = true := by simpa using hfits
    have hlt := Settings.lt_halfWordCount_of_fits hlimit hfits
    split
    case h_1 hnone =>
      unfold Rational.integerPower? at hnone
      rw [if_neg (by omega)] at hnone
      split_ifs at hnone with hnonneg hzero
      exact absurd hzero hb.ne'
    case h_2 wholePower hwhole =>
      obtain rfl := Rational.integerPower?_eq hwhole
      generalize hradicand : Nat.pow b.num.natAbs (q.num % (q.den : Int)).toNat *
        Nat.pow b.den (q.den - (q.num % (q.den : Int)).toNat) = radicand
      have hpos : 0 < radicand := by
        have hnum : 0 < b.num.natAbs := Int.natAbs_pos.2 (Rat.num_pos.2 hb).ne'
        rw [← hradicand]
        exact Nat.mul_pos (Nat.pow_pos hnum) (Nat.pow_pos b.den_pos)
      obtain ⟨houtside, hinside⟩ := splitPower_pos hpos q.den_ne_zero
      have hsplit := root_eq radicand q.den q.den_ne_zero
      have hvalue := rpow_eq_root (q := q) hb
      rw [show (b.num.natAbs ^ (q.num % (q.den : Int)).toNat *
        b.den ^ (q.den - (q.num % (q.den : Int)).toNat)) = radicand from hradicand, hsplit] at hvalue
      generalize hu : (splitPower radicand q.den).1 = outside at houtside hvalue
      generalize hv : (splitPower radicand q.den).2 = inside at hinside hvalue
      have hcoefficient : ((b ^ (q.num / (q.den : Int)) * (outside : Rat) / (b.den : Rat) : Rat) : ℝ) *
          (inside : ℝ) ^ ((q.den : ℝ)⁻¹) = (b : ℝ) ^ (q : ℝ) := by
        rw [hvalue]
        push_cast
        ring
      have hne : b ^ (q.num / (q.den : Int)) * (outside : Rat) / (b.den : Rat) ≠ 0 := by
        have := b.den_pos
        positivity
      generalize b ^ (q.num / (q.den : Int)) * (outside : Rat) / (b.den : Rat) = coefficient
        at hcoefficient hne
      rw [(h b q hb).2]
      replace hcoefficient := congrArg φ hcoefficient
      rw [map_mul, map_ratCast] at hcoefficient
      split
      case isTrue hone =>
        rw [hone, Nat.cast_one, Real.one_rpow, map_one, mul_one] at hcoefficient
        exact (Reading.Denotes.number coefficient).congr hcoefficient
      case isFalse =>
        have hroot := root_denotes h (lowerIndex inside q.den).2
          (lowerIndex_pos hinside q.den_ne_zero)
        rw [root_lowerIndex inside q.den q.den_ne_zero] at hroot
        simp only [Build.value_bind, Build.value_number, Build.value_make]
        split
        case isTrue hone =>
          rw [hone, Rat.cast_one, one_mul] at hcoefficient
          exact hroot.congr hcoefficient
        case isFalse =>
          simp only [Build.value_bind, Build.value_number, Build.value_product]
          exact (multiple_denotes hroot hne rfl).congr hcoefficient

end Reading

theorem drawsRoots_real {s : Settings} (hlimit : s.limits.maxExponentBits = 4096)
    (ρ : String → ℝ) : DrawsRoots (.real ρ) s :=
  .of_reading (drawsRoots_of_realPowers hlimit (hasRealPowers_real ρ))

end Reduction

end EquationSolver
