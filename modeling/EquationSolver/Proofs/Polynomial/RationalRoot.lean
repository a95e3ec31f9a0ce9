import EquationSolver.Polynomial.Roots
import EquationSolver.Proofs.Number.Divisor
import Mathlib.RingTheory.Coprime.Lemmas
import Mathlib.RingTheory.Int.Basic
import Mathlib.Tactic.FieldSimp
import Mathlib.Tactic.LinearCombination

/-!
# The rational root search

Multiplied by the common denominator, a cubic has integer coefficients, and a fraction is a root of
it exactly if the homogeneous cubic vanishes at its numerator and denominator.  What the search
returns is a root, and by the rational root theorem it returns one if there is any and the divisors
of the first and the last coefficient can be enumerated.
-/

namespace EquationSolver

/-! ### Cubics -/

namespace Cubic

variable {p : Cubic Rat} {q : Cubic Int} {r : Rat}

/-- The value of a cubic at a point of a field. -/
def valueAt {K : Type*} [Field K] (p : Cubic Rat) (x : K) : K :=
  p.a * x ^ 3 + p.b * x ^ 2 + p.c * x + p.d

/-- The cubic `a (x - u) (x - v) (x - w)`. -/
def ofRoots (a u v w : Rat) : Cubic Rat :=
  ⟨a, -(a * (u + v + w)), a * (u * v + u * w + v * w), -(a * u * v * w)⟩

theorem valueAt_ofRoots {K : Type*} [Field K] [CharZero K] (a u v w : Rat) (x : K) :
    (ofRoots a u v w).valueAt x = a * ((x - u) * (x - v) * (x - w)) := by
  simp only [valueAt, ofRoots]
  push_cast
  ring

/-! ### Integer coefficients -/

theorem commonDenominator_pos (p : Cubic Rat) : 0 < p.commonDenominator :=
  Nat.lcm_pos (Nat.lcm_pos (Nat.lcm_pos p.a.den_pos p.b.den_pos) p.c.den_pos) p.d.den_pos

theorem num_mul_eq {x : Rat} {n : Nat} (h : x.den ∣ n) :
    ((x * (n : Rat)).num : Rat) = x * (n : Rat) := by
  obtain ⟨k, rfl⟩ := h
  have hproduct : x * ((x.den * k : Nat) : Rat) = ((x.num * k : Int) : Rat) := by
    rw [Nat.cast_mul, ← mul_assoc, Rat.mul_den_eq_num, Int.cast_mul, Int.cast_natCast]
  rw [hproduct, Rat.num_intCast]

/-- The common denominator clears the denominators of all coefficients. -/
theorem integral_eq (p : Cubic Rat) :
    (p.integral.a : Rat) = p.a * (p.commonDenominator : Rat) ∧
      (p.integral.b : Rat) = p.b * (p.commonDenominator : Rat) ∧
      (p.integral.c : Rat) = p.c * (p.commonDenominator : Rat) ∧
      (p.integral.d : Rat) = p.d * (p.commonDenominator : Rat) := by
  refine ⟨num_mul_eq ?_, num_mul_eq ?_, num_mul_eq ?_, num_mul_eq ?_⟩
  · exact ((Nat.dvd_lcm_left _ _).trans (Nat.dvd_lcm_left _ _)).trans (Nat.dvd_lcm_left _ _)
  · exact ((Nat.dvd_lcm_right _ _).trans (Nat.dvd_lcm_left _ _)).trans (Nat.dvd_lcm_left _ _)
  · exact (Nat.dvd_lcm_right _ _).trans (Nat.dvd_lcm_left _ _)
  · exact Nat.dvd_lcm_right _ _

/-- It is the least number that does. -/
theorem isLeast_commonDenominator (p : Cubic Rat) :
    IsLeast {n : Nat | 0 < n ∧ ∃ q : Cubic Int, q.map (fun k : Int => (k : Rat)) =
      p.map fun x => x * (n : Rat)} p.commonDenominator := by
  constructor
  · obtain ⟨ha, hb, hc, hd⟩ := integral_eq p
    refine ⟨p.commonDenominator_pos, p.integral, ?_⟩
    simp only [map, ha, hb, hc, hd]
  · rintro n ⟨hn, q, hq⟩
    have hden {x : Rat} {k : Int} (h : (k : Rat) = x * (n : Rat)) : x.den ∣ n := by
      have hx : x = Rat.divInt k n := by
        rw [Rat.divInt_eq_div, h, Int.cast_natCast]
        field_simp
      exact Int.natCast_dvd_natCast.1 (hx ▸ Rat.den_dvd k n)
    simp only [map, Cubic.mk.injEq] at hq
    obtain ⟨ha, hb, hc, hd⟩ := hq
    exact Nat.le_of_dvd hn
      (Nat.lcm_dvd (Nat.lcm_dvd (Nat.lcm_dvd (hden ha) (hden hb)) (hden hc)) (hden hd))

/-- The homogeneous cubic at a fraction is a multiple of the value of the cubic. -/
theorem homogeneousValue_eq (m : Int) {n : Int} (hn : n ≠ 0) :
    (p.integral.homogeneousValue m n : Rat) =
      (p.commonDenominator : Rat) * (n : Rat) ^ 3 * p.valueAt ((m : Rat) / (n : Rat)) := by
  have hn' : (n : Rat) ≠ 0 := Int.cast_ne_zero.2 hn
  obtain ⟨ha, hb, hc, hd⟩ := integral_eq p
  simp only [homogeneousValue, valueAt]
  push_cast
  rw [ha, hb, hc, hd]
  field_simp

theorem homogeneousValue_eq_zero_iff {m n : Int} (hn : n ≠ 0) :
    p.integral.homogeneousValue m n = 0 ↔ p.valueAt ((m : Rat) / (n : Rat)) = 0 := by
  have hcommon : (p.commonDenominator : Rat) ≠ 0 := Nat.cast_ne_zero.2 p.commonDenominator_pos.ne'
  rw [← Int.cast_eq_zero (α := Rat), homogeneousValue_eq m hn, mul_eq_zero, or_iff_right]
  exact mul_ne_zero hcommon (pow_ne_zero 3 (Int.cast_ne_zero.2 hn))

/-- A rational root in lowest terms. -/
theorem homogeneousValue_of_root (h : p.valueAt r = 0) :
    p.integral.homogeneousValue r.num r.den = 0 := by
  rw [homogeneousValue_eq_zero_iff (Int.natCast_ne_zero.2 r.den_ne_zero), Int.cast_natCast,
    Rat.num_div_den]
  exact h

theorem isCoprime_num_den (r : Rat) : IsCoprime r.num (r.den : Int) :=
  Int.isCoprime_iff_nat_coprime.2 (by simpa using r.reduced)

/-! ### What the search returns -/

theorem signedRoot?_eq_some {m n : Nat} (h : signedRoot? q m n = some r) :
    ∃ k : Int, q.homogeneousValue k n = 0 ∧ r = (k : Rat) / ((n : Int) : Rat) := by
  unfold signedRoot? at h
  split_ifs at h with hpositive hnegative
  · exact ⟨m, hpositive, by rw [← Option.some.inj h, Rat.mkRat_eq_div]; rfl⟩
  · exact ⟨-m, hnegative, by rw [← Option.some.inj h, Rat.mkRat_eq_div]; rfl⟩

/-- What the search returns is a root. -/
theorem valueAt_of_rationalRoot? (h : p.rationalRoot? = some r) : p.valueAt r = 0 := by
  obtain ⟨numerators, -, hrest⟩ := Option.bind_eq_some_iff.1 h
  obtain ⟨denominators, hdenominators, hfound⟩ := Option.bind_eq_some_iff.1 hrest
  obtain ⟨hne, hmem⟩ := divisors?_eq_some hdenominators
  obtain ⟨m, -, hm⟩ := List.exists_of_findSome?_eq_some hfound
  obtain ⟨n, hn, hroot⟩ := List.exists_of_findSome?_eq_some hm
  obtain ⟨k, hzero, rfl⟩ := signedRoot?_eq_some hroot
  have hn' : (n : Int) ≠ 0 := by
    intro heq
    exact hne (zero_dvd_iff.1 (heq ▸ (hmem n).1 hn))
  exact (homogeneousValue_eq_zero_iff hn').1 hzero

/-! ### The rational root theorem -/

/-- Coprime numbers at which a homogeneous cubic vanishes divide its last and its first
    coefficient. -/
theorem dvd_of_homogeneousValue {m n : Int} (hcoprime : IsCoprime m n)
    (h : q.homogeneousValue m n = 0) : m ∣ q.d ∧ n ∣ q.a := by
  have hexpand : q.a * m ^ 3 + q.b * m ^ 2 * n + q.c * m * n ^ 2 + q.d * n ^ 3 = 0 := by
    rw [← h, homogeneousValue]
    ring
  constructor
  · have hdvd : m ∣ q.d * n ^ 3 :=
      ⟨-(q.a * m ^ 2 + q.b * m * n + q.c * n ^ 2), by linear_combination hexpand⟩
    exact (hcoprime.pow_right).dvd_of_dvd_mul_right hdvd
  · have hdvd : n ∣ q.a * m ^ 3 :=
      ⟨-(q.b * m ^ 2 + q.c * m * n + q.d * n ^ 2), by linear_combination hexpand⟩
    exact (hcoprime.symm.pow_right).dvd_of_dvd_mul_right hdvd

theorem signedRoot?_isSome {m : Int} {n : Nat} (h : q.homogeneousValue m n = 0) :
    (signedRoot? q m.natAbs n).isSome = true := by
  unfold signedRoot?
  rcases Int.natAbs_eq m with hm | hm
  · rw [if_pos (by rw [← hm]; exact h)]
    rfl
  · split
    · rfl
    · rw [if_pos (by rw [← hm]; exact h)]
      rfl

/-- A cubic with a rational root has one that the search returns, if its integer coefficients are
    small enough for their divisors to be enumerated. -/
theorem exists_rationalRoot? (ha : p.a ≠ 0) (hd : p.d ≠ 0)
    (hasmall : p.integral.a.natAbs ≤ divisorEnumerationLimit)
    (hdsmall : p.integral.d.natAbs ≤ divisorEnumerationLimit) (h : p.valueAt r = 0) :
    ∃ r', p.rationalRoot? = some r' := by
  have hcommon : (p.commonDenominator : Rat) ≠ 0 := Nat.cast_ne_zero.2 p.commonDenominator_pos.ne'
  obtain ⟨ha_eq, -, -, hd_eq⟩ := integral_eq p
  have ha' : p.integral.a ≠ 0 := by
    rw [← Int.cast_ne_zero (α := Rat), ha_eq]
    exact mul_ne_zero ha hcommon
  have hd' : p.integral.d ≠ 0 := by
    rw [← Int.cast_ne_zero (α := Rat), hd_eq]
    exact mul_ne_zero hd hcommon
  obtain ⟨numerators, hnumerators⟩ : ∃ found, divisors? p.integral.d = some found :=
    ⟨_, divisors?_of_le hd' hdsmall⟩
  obtain ⟨denominators, hdenominators⟩ : ∃ found, divisors? p.integral.a = some found :=
    ⟨_, divisors?_of_le ha' hasmall⟩
  have hzero := homogeneousValue_of_root h
  obtain ⟨hnum, hden⟩ := dvd_of_homogeneousValue (isCoprime_num_den r) hzero
  have hfound : ((numerators.findSome? fun m => denominators.findSome? fun n =>
      signedRoot? p.integral m n)).isSome = true := by
    rw [List.findSome?_isSome_iff]
    refine ⟨r.num.natAbs, ((divisors?_eq_some hnumerators).2 _).2 (by simpa using hnum), ?_⟩
    rw [List.findSome?_isSome_iff]
    exact ⟨r.den, ((divisors?_eq_some hdenominators).2 _).2 hden, signedRoot?_isSome hzero⟩
  obtain ⟨r', hr'⟩ := Option.isSome_iff_exists.1 hfound
  refine ⟨r', ?_⟩
  simp only [rationalRoot?, hnumerators, hdenominators]
  exact hr'

theorem natAbs_le_divisorEnumerationLimit {k : Int} {x : Rat} (hk : (k : Rat) = x)
    (h : |x| ≤ 10 ^ 12) : k.natAbs ≤ divisorEnumerationLimit := by
  have habs : ((k.natAbs : Nat) : Rat) ≤ ((10 ^ 12 : Nat) : Rat) := by
    rw [Nat.cast_natAbs, Int.cast_abs, hk]
    exact_mod_cast h
  exact Nat.cast_le.1 habs

/-- The search decides whether there is a rational root: what it returns is one, and if it returns
    nothing there is none, as long as the first and the last coefficient, multiplied by the common
    denominator, are small enough for their divisors to be enumerated. -/
theorem rationalRoot_decides (p : Cubic Rat) (ha : p.a ≠ 0) (hd : p.d ≠ 0) :
    (∀ r, p.rationalRoot? = some r → p.valueAt r = 0) ∧
      (p.rationalRoot? = none → |p.a * (p.commonDenominator : Rat)| ≤ 10 ^ 12 →
        |p.d * (p.commonDenominator : Rat)| ≤ 10 ^ 12 → ∀ r : Rat, p.valueAt r ≠ 0) := by
  refine ⟨fun r => valueAt_of_rationalRoot?, fun hnone hasmall hdsmall r hroot => ?_⟩
  obtain ⟨ha_eq, -, -, hd_eq⟩ := integral_eq p
  obtain ⟨r', hr'⟩ := exists_rationalRoot? ha hd
    (natAbs_le_divisorEnumerationLimit ha_eq hasmall)
    (natAbs_le_divisorEnumerationLimit hd_eq hdsmall) hroot
  rw [hnone] at hr'
  cases hr'

/-- `2 x ^ 3 - x ^ 2 + 2 x - 1` has the root that is found for it, and `x ^ 3 / 2 - 1` has no
    rational root. -/
theorem rationalRoot_decides_cubeRoot :
    (⟨2, -1, 2, -1⟩ : Cubic Rat).rationalRoot? = some (1 / 2) ∧
      (⟨2, -1, 2, -1⟩ : Cubic Rat).valueAt (1 / 2 : Rat) = 0 ∧
      (⟨1 / 2, 0, 0, -1⟩ : Cubic Rat).rationalRoot? = none ∧
      ∀ r : Rat, (⟨1 / 2, 0, 0, -1⟩ : Cubic Rat).valueAt r ≠ 0 := by
  have hfound : (⟨2, -1, 2, -1⟩ : Cubic Rat).rationalRoot? = some (1 / 2) := by decide +kernel
  have hnone : (⟨1 / 2, 0, 0, -1⟩ : Cubic Rat).rationalRoot? = none := by decide +kernel
  have hcommon : (⟨1 / 2, 0, 0, -1⟩ : Cubic Rat).commonDenominator = 2 := by decide +kernel
  refine ⟨hfound, (rationalRoot_decides _ (by norm_num) (by norm_num)).1 _ hfound, hnone, ?_⟩
  refine (rationalRoot_decides _ (by norm_num) (by norm_num)).2 hnone ?_ ?_
  · rw [hcommon]
    norm_num
  · rw [hcommon]
    norm_num

end Cubic

end EquationSolver
