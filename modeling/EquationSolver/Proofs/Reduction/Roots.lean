import EquationSolver.Proofs.Number.PerfectPower
import EquationSolver.Proofs.Number.Size
import EquationSolver.Proofs.Reduction.Canonical
import EquationSolver.Proofs.Value.Power
import Mathlib.Algebra.Order.Field.Power
import Mathlib.Tactic.FieldSimp
import Mathlib.Tactic.Positivity

/-!
# Roots in lowest form

A power of a positive rational with a fraction as exponent becomes a number, or a number times a
root of a natural number.  The result is the power exactly, and nothing more can be drawn out of
the root: its index cannot be lowered, and no power of a small number divides its radicand.
-/

namespace EquationSolver

open Term

namespace Reduction

variable {s : Settings} {a b c e : Rat} {m k q : Nat} {p : Int}

/-- The number `c` times the `k`-th root of `m` is the `q`-th root of `a`, and nothing more can be
    drawn out of the root. -/
structure IsLoweredRoot (a : Rat) (q : Nat) (c : Rat) (m k : Nat) : Prop where
  coefficient_pos : 0 < c
  two_le_radicand : 2 ≤ m
  two_le_index : 2 ≤ k
  index_dvd : k ∣ q
  pow_eq : c ^ q * (m : Rat) ^ (q / k) = a
  /-- The index cannot be lowered. -/
  ne_pow : ∀ g, 2 ≤ g → g ∣ k → ∀ r : Nat, r ^ g ≠ m
  /-- No power of a small number can be taken out. -/
  not_pow_dvd : ∀ r, 2 ≤ r → r ≤ 10000 → ¬ r ^ k ∣ m

/-- The root of a natural number as a term. -/
def rootTerm (m k : Nat) : Term :=
  .power (.number (m : Rat)) (.number (1 / (k : Rat)))

/-- The term is the `q`-th root of `a` in lowest form: a number, or a number times a root, where a
    number that is one is left out. -/
inductive IsRootOf (a : Rat) (q : Nat) : Term → Prop
  | number {c : Rat} (hpos : 0 < c) (hpow : c ^ q = a) : IsRootOf a q (.number c)
  | root {m k : Nat} (h : IsLoweredRoot a q 1 m k) : IsRootOf a q (rootTerm m k)
  | multiple {c : Rat} {m k : Nat} (hone : c ≠ 1) (h : IsLoweredRoot a q c m k) :
    IsRootOf a q (.product [.number c, rootTerm m k])

/-! ### The parts of a root -/

/-- The whole power, and what comes out of the root over the denominator, with what stays inside
    are the root. -/
theorem coefficient_pow_mul (hb : 0 < b) (hq : 0 < q) {u v : Nat}
    (h : u ^ q * v = b.num.natAbs ^ (p % (q : Int)).toNat *
      b.den ^ (q - (p % (q : Int)).toNat)) :
    (b ^ (p / (q : Int)) * (u : Rat) / (b.den : Rat)) ^ q * (v : Rat) = b ^ p := by
  have hremainder := Int.emod_nonneg p (Int.natCast_pos.2 hq).ne'
  have hlt := Int.emod_lt_of_pos p (Int.natCast_pos.2 hq)
  generalize hr : (p % (q : Int)).toNat = r at h
  have hden : (b.den : Rat) ≠ 0 := Nat.cast_ne_zero.2 b.den_ne_zero
  have hnum : (b.num.natAbs : Rat) = b * b.den := by
    rw [Nat.cast_natAbs, abs_of_pos (Rat.num_pos.2 hb), Rat.mul_den_eq_num]
  have hradicand : (u : Rat) ^ q * v = b ^ r * (b.den : Rat) ^ q := by
    have hcast := congrArg (Nat.cast (R := Rat)) h
    push_cast at hcast
    rw [hcast, hnum, mul_pow, mul_assoc, ← pow_add, Nat.add_sub_cancel' (by omega)]
  have hexponent : p = p / (q : Int) * (q : Int) + (r : Int) := by
    have hdivmod := Int.mul_ediv_add_emod p q
    rw [mul_comm] at hdivmod
    omega
  calc (b ^ (p / (q : Int)) * (u : Rat) / (b.den : Rat)) ^ q * (v : Rat)
      = (b ^ (p / (q : Int))) ^ q * ((u : Rat) ^ q * v) / (b.den : Rat) ^ q := by
        rw [div_pow, mul_pow]
        ring
    _ = (b ^ (p / (q : Int))) ^ q * b ^ r := by
        rw [hradicand]
        field_simp
    _ = b ^ (p / (q : Int) * (q : Int) + (r : Int)) := by
        rw [zpow_add₀ hb.ne', zpow_mul, zpow_natCast, zpow_natCast]
    _ = b ^ p := by rw [← hexponent]

/-- What is left inside with its index lowered is the same root in lowest form. -/
theorem isLoweredRoot_of_split (hc : 0 < c) (hq : 2 ≤ q) {radicand : Nat} (hradicand : 0 < radicand)
    (hone : (splitPower radicand q).2 ≠ 1)
    (hpow : c ^ q * ((splitPower radicand q).2 : Rat) = a) :
    IsLoweredRoot a q c (lowerIndex (splitPower radicand q).2 q).1
      (lowerIndex (splitPower radicand q).2 q).2 := by
  have hpower := (splitPower_eq_one_or_ne_pow hradicand hq).resolve_left hone
  have hinside : 2 ≤ (splitPower radicand q).2 := by
    have hpos := (splitPower_pos hradicand (by omega : q ≠ 0)).2
    omega
  have hsmall : ∀ r, 2 ≤ r → r ≤ 10000 → ¬ r ^ q ∣ (splitPower radicand q).2 :=
    fun r htwo hle => not_pow_dvd_splitPower hradicand hq htwo hle
  generalize (splitPower radicand q).2 = inside at hone hpow hpower hinside hsmall
  obtain ⟨hm, hk, hdvd⟩ := lowerIndex_proper hinside hq hpower
  obtain ⟨g, hlowered, hroot⟩ := lowerIndex_spec inside q
  have hne : ∀ {d : Nat}, 2 ≤ d → d ∣ (lowerIndex inside q).2 →
      ∀ r : Nat, r ^ d ≠ (lowerIndex inside q).1 := lowerIndex_ne_pow (by omega)
  generalize (lowerIndex inside q).1 = m at hm hdvd hroot hne ⊢
  generalize (lowerIndex inside q).2 = k at hk hdvd hlowered hne ⊢
  have hquotient : q / k = g := by
    rw [← hlowered]
    exact Nat.mul_div_cancel_left g (by omega)
  exact {
    coefficient_pos := hc
    two_le_radicand := hm
    two_le_index := hk
    index_dvd := ⟨g, hlowered.symm⟩
    pow_eq := by rw [hquotient, ← hpow, ← hroot, Nat.cast_pow]
    ne_pow := fun d htwo hd r => hne htwo hd r
    not_pow_dvd := fun r htwo hle hpowdvd => hsmall r htwo hle (hdvd r hpowdvd) }

/-! ### Drawing a root -/

theorem integerPower?_of_lt (hb : b ≠ 0) {n : Int} (hn : n.natAbs < Integer.halfWordCount) :
    Rational.integerPower? b n = some (b ^ n) := by
  cases hpower : Rational.integerPower? b n with
  | some v => rw [Rational.integerPower?_eq hpower]
  | none =>
    unfold Rational.integerPower? at hpower
    rw [if_neg (by omega)] at hpower
    split_ifs at hpower

/-- The power of a positive rational that passes the size test is drawn as a root in lowest
    form. -/
theorem radical_isRootOf (hb : 0 < b) (hq : 2 ≤ q)
    (hfits : s.fits b ((p / (q : Int)).natAbs + q) = true)
    (hwhole : (p / (q : Int)).natAbs < Integer.halfWordCount) (unreduced : Build Term) :
    IsRootOf (b ^ p) q (radical s b p q unreduced).value := by
  have hnum : 0 < b.num.natAbs := Int.natAbs_pos.2 (Rat.num_pos.2 hb).ne'
  unfold radical
  simp only [hfits, Bool.not_true, Bool.false_eq_true, if_false, integerPower?_of_lt hb.ne' hwhole,
    Nat.pow_eq]
  generalize hradicand : b.num.natAbs ^ (p % (q : Int)).toNat *
    b.den ^ (q - (p % (q : Int)).toNat) = radicand
  have hpos : 0 < radicand := by
    rw [← hradicand]
    exact Nat.mul_pos (Nat.pow_pos hnum) (Nat.pow_pos b.den_pos)
  have houtside := (splitPower_pos hpos (by omega : q ≠ 0)).1
  have hpow := coefficient_pow_mul hb (by omega : 0 < q)
    ((splitPower_spec radicand q).trans hradicand.symm)
  have hc : 0 < b ^ (p / (q : Int)) * ((splitPower radicand q).1 : Rat) / (b.den : Rat) := by
    have := b.den_pos
    positivity
  generalize b ^ (p / (q : Int)) * ((splitPower radicand q).1 : Rat) / (b.den : Rat) = c
    at hpow hc ⊢
  split
  case isTrue hone =>
    rw [hone, Nat.cast_one, mul_one] at hpow
    exact .number hc hpow
  case isFalse hone =>
    have hlowered := isLoweredRoot_of_split hc hq hpos hone hpow
    simp only [Build.value_bind, Build.value_number, Build.value_make]
    split
    case isTrue hcone => exact .root (hcone ▸ hlowered)
    case isFalse hcone => exact .multiple hcone hlowered

/-! ### Powers of numbers -/

theorem maxDepth_eq_succ : maxDepth = 999999 + 1 := rfl

/-- A power of a number with a fraction as exponent is computed as a rational power. -/
theorem pow_number_of_fraction (hone : b ≠ 1) (hden : e.den ≠ 1) :
    pow s (.number b) (.number e) = rationalPower s (powWithin s 999999) (mulWithin s 999999) b e
      (Build.make (.power (.number b) (.number e))) := by
  have hplain : ∀ t ∈ [Term.number b, .number e], IsPlain t := by
    intro t ht
    rcases List.mem_pair.1 ht with rfl | rfl <;> trivial
  have hzero : (Term.number e).isZero = false := by
    refine decide_eq_false fun h => hden ?_
    rw [h]
    rfl
  have hexponent : (Term.number e).isOne = false := by
    refine decide_eq_false fun h => hden ?_
    rw [h]
    rfl
  have hbase : (Term.number b).isOne = false := decide_eq_false hone
  rw [pow, maxDepth_eq_succ, powWithin, powWith]
  simp only [poison?_eq_none hplain, hasMatrix_eq_false hplain, hzero, hexponent, hbase,
    Bool.false_eq_true, if_false, Bool.or_false]

theorem toInt64Range?_of_fraction (hden : e.den ≠ 1) : Rational.toInt64Range? e = none := by
  rw [Rational.toInt64Range?, Rational.toInt?, if_neg hden]
  rfl

/-- With the default limits, a power of a positive rational other than one with a fraction as
    exponent, whose numerator has at most 64 bits and whose denominator is at most 64, is in
    lowest form if it passes the size test: a positive number, or a positive number times a
    root, whose power with the denominator is the power of the base with the numerator, and
    nothing more can be drawn out of the root. -/
theorem pow_isRootOf (hlimits : s.limits = {}) (hb : 0 < b) (hone : b ≠ 1)
    (hnum : Integer.minSigned ≤ e.num ∧ e.num ≤ Integer.maxSigned) (hden : 2 ≤ e.den)
    (hden' : e.den ≤ 64) (hfits : s.fits b ((e.num / (e.den : Int)).natAbs + e.den) = true) :
    IsRootOf (b ^ e.num) e.den (pow s (.number b) (.number e)).value := by
  have hrange : Integer.toInt64Range? e.num = some e.num := if_pos hnum
  have hindex : ¬ (s.limits.maxRootIndex < e.den ∨ Integer.halfWordCount ≤ e.den) := by
    have hlimit : s.limits.maxRootIndex = 64 := by rw [hlimits]
    have hword : Integer.halfWordCount = 4294967296 := rfl
    omega
  have hwhole : (e.num / (e.den : Int)).natAbs < Integer.halfWordCount := by
    have hlt := Settings.lt_halfWordCount_of_fits (by rw [hlimits]) hfits
    omega
  rw [pow_number_of_fraction hone (by omega), rationalPower]
  simp only [if_neg hb.ne', toInt64Range?_of_fraction (e := e) (by omega), hrange, if_neg hindex,
    if_neg hb.not_gt]
  exact radical_isRootOf hb hden hfits hwhole _

theorem pow_isRootOf_eight :
    IsRootOf (8 ^ (1 / 2 : Rat).num) (1 / 2 : Rat).den
      (pow {} (.number 8) (.number (1 / 2))).value :=
  pow_isRootOf rfl (by decide) (by decide) (by decide +kernel) (by decide +kernel)
    (by decide +kernel) (by decide +kernel)

end Reduction

end EquationSolver
