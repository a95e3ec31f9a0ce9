import EquationSolver.Proofs.Number.Nearest
import EquationSolver.Proofs.Polynomial.RationalRoot

/-!
# Rational roots are apart

Two rational roots of a cubic with integer coefficients can be taken out of it as two linear
factors, so that their denominators together divide the first coefficient and their numerators the
last one.  Roots in lowest terms therefore are apart in proportion to their size, and by far more
than doubles are as long as the divisors of both coefficients can be enumerated: such roots are
told apart by the nearest doubles.
-/

namespace EquationSolver

namespace Cubic

variable {p : Cubic Rat} {q : Cubic Int}

/-! ### Two linear factors -/

/-- What is left of a cubic after one linear factor has been taken out of it. -/
theorem exists_factor {m n : Int} (hcoprime : IsCoprime m n) (hm : m ≠ 0) (hn : n ≠ 0)
    (h : q.homogeneousValue m n = 0) :
    ∃ first middle last : Int, q.a = n * first ∧ q.d = m * last ∧
      ∀ m' n', q.homogeneousValue m' n' =
        (n * m' - m * n') * (first * m' ^ 2 + middle * m' * n' - last * n' ^ 2) := by
  obtain ⟨⟨last, hlast⟩, ⟨first, hfirst⟩⟩ := dvd_of_homogeneousValue hcoprime h
  have hzero : first * m ^ 2 + q.b * m + q.c * n + last * n ^ 2 = 0 := by
    refine mul_left_cancel₀ (mul_ne_zero hm hn) ?_
    rw [mul_zero, ← h, homogeneousValue, hfirst, hlast]
    ring
  have hdvd : n ∣ m * (first * m + q.b) :=
    ⟨-(q.c + last * n), by linear_combination hzero⟩
  obtain ⟨middle, hmiddle⟩ := hcoprime.symm.dvd_of_dvd_mul_left hdvd
  have hc : q.c = -(m * middle + last * n) := by
    refine mul_left_cancel₀ hn ?_
    linear_combination hzero - m * hmiddle
  have hb : q.b = n * middle - first * m := by
    linear_combination hmiddle
  refine ⟨first, middle, last, hfirst, hlast, fun m' n' => ?_⟩
  rw [homogeneousValue, hfirst, hb, hc, hlast]
  ring

/-- The denominators of two roots together divide the first coefficient, and their numerators the
    last one. -/
theorem mul_dvd_of_homogeneousValue {m n m' n' : Int} (hcoprime : IsCoprime m n)
    (hcoprime' : IsCoprime m' n') (hm : m ≠ 0) (hn : n ≠ 0) (hne : n * m' - m * n' ≠ 0)
    (h : q.homogeneousValue m n = 0) (h' : q.homogeneousValue m' n' = 0) :
    m * m' ∣ q.d ∧ n * n' ∣ q.a := by
  obtain ⟨first, middle, last, hfirst, hlast, hfactor⟩ := exists_factor hcoprime hm hn h
  have hzero := (mul_eq_zero.1 ((hfactor m' n').symm.trans h')).resolve_left hne
  rw [hfirst, hlast]
  constructor
  · have hdvd : m' ∣ last * n' ^ 2 :=
      ⟨first * m' + middle * n', by linear_combination -hzero⟩
    exact mul_dvd_mul_left m (hcoprime'.pow_right.dvd_of_dvd_mul_right hdvd)
  · have hdvd : n' ∣ first * m' ^ 2 :=
      ⟨last * n' - middle * m', by linear_combination hzero⟩
    exact mul_dvd_mul_left n (hcoprime'.symm.pow_right.dvd_of_dvd_mul_right hdvd)

/-! ### Distances -/

section Roots

variable {x y : Rat}

theorem num_ne_zero_of_root (hd : p.integral.d ≠ 0) (h : p.valueAt x = 0) : x.num ≠ 0 := by
  have hdvd := (dvd_of_homogeneousValue (isCoprime_num_den x) (homogeneousValue_of_root h)).1
  intro hzero
  exact hd (zero_dvd_iff.1 (hzero ▸ hdvd))

/-- The cross product of two fractions. -/
theorem cast_cross (x y : Rat) :
    ((x.den * y.num - x.num * y.den : Int) : Rat) = (y - x) * (x.den * y.den) := by
  have hx : (x.num : Rat) = x * x.den := (Rat.mul_den_eq_num x).symm
  have hy : (y.num : Rat) = y * y.den := (Rat.mul_den_eq_num y).symm
  push_cast
  rw [hx, hy]
  ring

theorem cross_ne_zero (hxy : x ≠ y) : (x.den * y.num - x.num * y.den : Int) ≠ 0 := by
  have hdenx : (x.den : Rat) ≠ 0 := Nat.cast_ne_zero.2 x.den_ne_zero
  have hdeny : (y.den : Rat) ≠ 0 := Nat.cast_ne_zero.2 y.den_ne_zero
  rw [← Int.cast_ne_zero (α := Rat), cast_cross]
  exact mul_ne_zero (sub_ne_zero.2 hxy.symm) (mul_ne_zero hdenx hdeny)

/-- The denominators and the numerators of two roots are bounded by the first and the last
    coefficient. -/
theorem abs_le_of_roots (ha : p.integral.a ≠ 0) (hd : p.integral.d ≠ 0) (hxy : x ≠ y)
    (hx : p.valueAt x = 0) (hy : p.valueAt y = 0) :
    (x.den * y.den : Rat) ≤ |(p.integral.a : Rat)| ∧
      |x * y| * (x.den * y.den) ≤ |(p.integral.d : Rat)| := by
  obtain ⟨hnum, hden⟩ := mul_dvd_of_homogeneousValue (isCoprime_num_den x)
    (isCoprime_num_den y) (num_ne_zero_of_root hd hx) (Int.natCast_ne_zero.2 x.den_ne_zero)
    (cross_ne_zero hxy) (homogeneousValue_of_root hx) (homogeneousValue_of_root hy)
  constructor
  · have hle := Int.le_of_dvd (abs_pos.2 ha) ((dvd_abs _ _).2 hden)
    exact_mod_cast hle
  · have hle := Int.le_of_dvd (abs_pos.2 hd) ((abs_dvd_abs _ _).2 hnum)
    calc |x * y| * (x.den * y.den) = |(x * x.den) * (y * y.den)| := by
          rw [abs_mul, abs_mul, abs_mul, abs_mul, Nat.abs_cast, Nat.abs_cast]
          ring
      _ = ((|x.num * y.num| : Int) : Rat) := by
          rw [Rat.mul_den_eq_num, Rat.mul_den_eq_num]
          push_cast
          rfl
      _ ≤ |(p.integral.d : Rat)| := by exact_mod_cast hle

/-- Different rational roots of a cubic are apart in proportion to their size. -/
theorem abs_mul_le_sq_sub (ha : p.integral.a ≠ 0) (hd : p.integral.d ≠ 0) (hxy : x ≠ y)
    (hx : p.valueAt x = 0) (hy : p.valueAt y = 0) :
    |x * y| ≤ (y - x) ^ 2 * (|(p.integral.a : Rat)| * |(p.integral.d : Rat)|) := by
  obtain ⟨hden, hnum⟩ := abs_le_of_roots ha hd hxy hx hy
  have hone : (1 : Rat) ≤ ((y - x) * (x.den * y.den)) ^ 2 := by
    rw [← cast_cross, one_le_sq_iff_one_le_abs]
    exact_mod_cast Int.one_le_abs (cross_ne_zero hxy)
  calc |x * y| ≤ |x * y| * ((y - x) * (x.den * y.den)) ^ 2 :=
        le_mul_of_one_le_right (abs_nonneg _) hone
    _ = (y - x) ^ 2 * ((x.den * y.den) * (|x * y| * (x.den * y.den))) := by ring
    _ ≤ (y - x) ^ 2 * (|(p.integral.a : Rat)| * |(p.integral.d : Rat)|) := by gcongr

/-! ### Doubles of roots -/

open Binary64

/-- Numbers are told apart by the nearest doubles if they are apart in proportion to their size. -/
theorem nearestWord_lt_of_apart_of_pos (hy : IsModerate y) (hpos : 0 < y)
    (hapart : |x * y| ≤ (y - x) ^ 2 * 10 ^ 24) (hxy : x < y) : nearestWord x < nearestWord y := by
  rcases le_or_gt x 0 with hx | hx
  · have hhalf : nearestWord (y / 2) < nearestWord y :=
      nearestWord_lt_of_pos hy (half_pos hpos) (by linarith)
    exact (nearestWord_mono (hx.trans (half_pos hpos).le)).trans_lt hhalf
  · refine nearestWord_lt_of_pos hy hx ?_
    by_contra hclose
    have hclose : (y - x) * 2 ^ 52 ≤ y := not_lt.1 hclose
    have hsq : ((y - x) * 2 ^ 52) ^ 2 ≤ y ^ 2 :=
      pow_le_pow_left₀ (mul_nonneg (sub_nonneg.2 hxy.le) (by norm_num)) hclose 2
    have hdouble : y * y ≤ 2 * x * y := mul_le_mul_of_nonneg_right (by linarith) hpos.le
    have hgap : 0 < (y - x) ^ 2 := pow_pos (sub_pos.2 hxy) 2
    rw [abs_of_pos (mul_pos hx hpos)] at hapart
    linarith

theorem nearestWord_lt_of_apart (hx : IsModerate x) (hy : IsModerate y)
    (hapart : |x * y| ≤ (y - x) ^ 2 * 10 ^ 24) (hxy : x < y) : nearestWord x < nearestWord y := by
  rcases lt_or_ge 0 y with hpos | hneg
  · exact nearestWord_lt_of_apart_of_pos hy hpos hapart hxy
  · have hopposite : nearestWord (-y) < nearestWord (-x) := by
      refine nearestWord_lt_of_apart_of_pos (isModerate_neg.2 hx) (by linarith) ?_ (by linarith)
      have hproduct : -y * -x = x * y := by ring
      have hgap : -x - -y = y - x := by ring
      rwa [hproduct, hgap]
    rw [nearestWord_neg, nearestWord_neg] at hopposite
    omega

/-- The first and the last integer coefficient are not zero, and small enough for their divisors to
    be enumerated. -/
structure IsEnumerable (p : Cubic Rat) : Prop where
  first_ne_zero : p.integral.a ≠ 0
  last_ne_zero : p.integral.d ≠ 0
  first_le : |(p.integral.a : Rat)| ≤ 10 ^ 12
  last_le : |(p.integral.d : Rat)| ≤ 10 ^ 12

theorem abs_cast_le_of_divisors? {n : Int} {found : List Nat} (h : divisors? n = some found) :
    |(n : Rat)| ≤ 10 ^ 12 := by
  have hle : n.natAbs ≤ 10 ^ 12 := by
    unfold divisors? at h
    split_ifs at h with hbound
    exact not_lt.1 (not_or.1 hbound).2
  rw [← Int.cast_abs, ← Nat.cast_natAbs]
  exact_mod_cast hle

theorem isEnumerable_of_rationalRoot? {r : Rat} (h : p.rationalRoot? = some r) :
    p.IsEnumerable := by
  obtain ⟨numerators, hnumerators, hrest⟩ := Option.bind_eq_some_iff.1 h
  obtain ⟨denominators, hdenominators, -⟩ := Option.bind_eq_some_iff.1 hrest
  exact ⟨(divisors?_eq_some hdenominators).1, (divisors?_eq_some hnumerators).1,
    abs_cast_le_of_divisors? hdenominators, abs_cast_le_of_divisors? hnumerators⟩

/-- Rational roots are neither very small nor very large. -/
theorem IsEnumerable.isModerate (hp : p.IsEnumerable) (hx : p.valueAt x = 0) : IsModerate x := by
  obtain ⟨ha, hd, ha_le, hd_le⟩ := hp
  obtain ⟨hnum, hden⟩ :=
    dvd_of_homogeneousValue (isCoprime_num_den x) (homogeneousValue_of_root hx)
  have hdenpos : (0 : Rat) < x.den := Nat.cast_pos.2 x.den_pos
  have hvalue : |x| = |(x.num : Rat)| / x.den := by
    rw [← Rat.num_div_den x, abs_div, Nat.abs_cast, Rat.num_div_den x]
  have hnum_one : (1 : Rat) ≤ |(x.num : Rat)| := by
    exact_mod_cast Int.one_le_abs (num_ne_zero_of_root hd hx)
  have hnum_le : |(x.num : Rat)| ≤ 10 ^ 12 := by
    have hle := Int.le_of_dvd (abs_pos.2 hd) ((abs_dvd_abs _ _).2 hnum)
    refine le_trans ?_ hd_le
    exact_mod_cast hle
  have hden_one : (1 : Rat) ≤ x.den := by exact_mod_cast x.den_pos
  have hden_le : (x.den : Rat) ≤ 10 ^ 12 := by
    have hle := Int.le_of_dvd (abs_pos.2 ha) ((dvd_abs _ _).2 hden)
    refine le_trans ?_ ha_le
    exact_mod_cast hle
  have hlimit : (10 : Rat) ^ 12 ≤ 2 ^ (1000 : Int) := by
    refine le_trans ?_ (zpow_le_zpow_right₀ one_le_two (show (40 : Int) ≤ 1000 by decide))
    norm_num
  rw [IsModerate, hvalue]
  constructor
  · rw [le_div_iff₀ hdenpos]
    calc (2 : Rat) ^ (-1000 : Int) * x.den ≤ 2 ^ (-1000 : Int) * 2 ^ (1000 : Int) := by
          gcongr
          exact hden_le.trans hlimit
      _ = 1 := by rw [← zpow_add₀ two_ne_zero, neg_add_cancel, zpow_zero]
      _ ≤ |(x.num : Rat)| := hnum_one
  · rw [div_le_iff₀ hdenpos]
    calc |(x.num : Rat)| ≤ 2 ^ (1000 : Int) * 1 := by rw [mul_one]; exact hnum_le.trans hlimit
      _ ≤ 2 ^ (1000 : Int) * x.den := by gcongr

/-- Larger rational roots have larger words. -/
theorem IsEnumerable.nearestWord_lt (hp : p.IsEnumerable) (hx : p.valueAt x = 0)
    (hy : p.valueAt y = 0) (hxy : x < y) : nearestWord x < nearestWord y := by
  have hbound : |(p.integral.a : Rat)| * |(p.integral.d : Rat)| ≤ 10 ^ 12 * 10 ^ 12 :=
    mul_le_mul hp.first_le hp.last_le (abs_nonneg _) (by norm_num)
  have hapart := abs_mul_le_sq_sub hp.first_ne_zero hp.last_ne_zero hxy.ne hx hy
  refine nearestWord_lt_of_apart (hp.isModerate hx) (hp.isModerate hy) (hapart.trans ?_) hxy
  calc (y - x) ^ 2 * (|(p.integral.a : Rat)| * |(p.integral.d : Rat)|)
      ≤ (y - x) ^ 2 * (10 ^ 12 * 10 ^ 12) := by gcongr
    _ = (y - x) ^ 2 * 10 ^ 24 := by norm_num

end Roots

end Cubic

end EquationSolver
