import EquationSolver.Proofs.Polynomial.MultipleRoots
import EquationSolver.Proofs.Polynomial.RationalSolutions

/-!
# Cardano's formula

A cubic with a negative discriminant has one real root and a pair of complex ones.  Cardano's
formula builds them from a real cube root `C` that is not zero; which sign its inner square root
has does not matter otherwise.  The sign is changed where `C` is known to be zero.  With `b² = 3ac`
one of the two signs makes `C` zero, and it is known to be so only as long as the numbers under
the roots pass the size tests.
-/

namespace EquationSolver

/-! ### The formula -/

namespace Cubic

variable {p : Cubic Rat} {x y : ℝ}

/-- Two real numbers from which Cardano's formula builds the roots: a cube root and its
    counterpart. -/
structure IsCardanoPair (p : Cubic Rat) (x y : ℝ) : Prop where
  mul_eq : x * y = p.delta0
  cubes_add : x ^ 3 + y ^ 3 = p.delta1

/-- The real root. -/
noncomputable def realRoot (p : Cubic Rat) (x y : ℝ) : ℝ :=
  -(p.b + x + y) / (3 * p.a : Rat)

/-- The real part of the complex roots. -/
noncomputable def pairCenter (p : Cubic Rat) (x y : ℝ) : ℝ :=
  -p.b / (3 * p.a : Rat) + (x + y) / (6 * p.a : Rat)

/-- The imaginary part of the complex roots, up to its sign. -/
noncomputable def pairOffset (p : Cubic Rat) (x y : ℝ) : ℝ :=
  (1 / 2 : Rat) * (√(3 : Rat) * ((x - y) / (3 * p.a : Rat)))

theorem pairOffset_sq (p : Cubic Rat) (x y : ℝ) :
    pairOffset p x y ^ 2 = 3 * (x - y) ^ 2 / (36 * p.a ^ 2) := by
  have hthree : √((3 : Rat) : ℝ) ^ 2 = (3 : Rat) := Real.sq_sqrt (by norm_num)
  rw [pairOffset, mul_pow, mul_pow, hthree, div_pow]
  push_cast
  ring

/-- A root of the resolvent and its counterpart. -/
theorem IsCardanoPair.of_resolvent (hx : x ≠ 0)
    (h : x ^ 6 - p.delta1 * x ^ 3 + (p.delta0 : ℝ) ^ 3 = 0) : IsCardanoPair p x (p.delta0 / x) where
  mul_eq := mul_div_cancel₀ _ hx
  cubes_add := by
    field_simp
    linear_combination h

/-- The coefficients of a cubic from the roots of Cardano's formula. -/
theorem IsCardanoPair.coefficients (h : IsCardanoPair p x y) (ha : p.a ≠ 0) :
    (p.b : ℝ) = -p.a * (realRoot p x y + 2 * pairCenter p x y) ∧
      (p.c : ℝ) = p.a * (2 * realRoot p x y * pairCenter p x y +
        (pairCenter p x y ^ 2 + pairOffset p x y ^ 2)) ∧
      (p.d : ℝ) = -p.a * (realRoot p x y * (pairCenter p x y ^ 2 + pairOffset p x y ^ 2)) := by
  have ha' : (p.a : ℝ) ≠ 0 := Rat.cast_ne_zero.2 ha
  have hproduct : x * y = p.b ^ 2 - 3 * p.a * p.c := by
    rw [h.mul_eq, delta0]
    push_cast
    ring
  have hcubes : x ^ 3 + y ^ 3 = 2 * p.b ^ 3 - 9 * p.a * p.b * p.c + 27 * p.a ^ 2 * p.d := by
    rw [h.cubes_add, delta1]
    push_cast
    ring
  rw [pairOffset_sq, realRoot, pairCenter]
  push_cast
  refine ⟨?_, ?_, ?_⟩
  · field_simp
    ring
  · field_simp
    linear_combination 3888 * hproduct
  · field_simp
    linear_combination 3888 * p.b * hproduct - 1296 * hcubes

/-- Cardano's formula factors the cubic. -/
theorem IsCardanoPair.valueAt_eq (h : IsCardanoPair p x y) (ha : p.a ≠ 0) (w : ℂ) :
    p.valueAt w = p.a * (w - realRoot p x y) *
      (w - (pairCenter p x y - pairOffset p x y * Complex.I)) *
        (w - (pairCenter p x y + pairOffset p x y * Complex.I)) := by
  obtain ⟨hb, hc, hd⟩ := h.coefficients ha
  have hcast : p.valueAt w = p.a * w ^ 3 + (p.b : ℝ) * w ^ 2 + (p.c : ℝ) * w + (p.d : ℝ) := by
    simp only [valueAt, Complex.ofReal_ratCast]
  rw [hcast, hb, hc, hd]
  push_cast
  linear_combination (p.a * (w - realRoot p x y) * (pairOffset p x y : ℂ) ^ 2) * Complex.I_sq

/-- With a negative discriminant the complex roots are not real. -/
theorem IsCardanoPair.pairOffset_ne_zero (h : IsCardanoPair p x y) (ha : p.a ≠ 0)
    (hdelta : p.discriminant < 0) : pairOffset p x y ≠ 0 := by
  intro hzero
  have hsame : x = y := by
    have hsquare := p.pairOffset_sq x y
    rw [hzero] at hsquare
    simpa [ha, sub_eq_zero] using hsquare.symm
  have hinner : (4 * p.delta0 ^ 3 - p.delta1 ^ 2 : ℝ) = 0 := by
    rw [← h.mul_eq, ← h.cubes_add, hsame]
    ring
  have hinner' : 4 * p.delta0 ^ 3 - p.delta1 ^ 2 = 0 := by exact_mod_cast hinner
  rw [← discriminant_eq] at hinner'
  exact (mul_ne_zero (by positivity) hdelta.ne) hinner'

/-- The real root is the only one. -/
theorem IsCardanoPair.valueAt_real_iff (h : IsCardanoPair p x y) (ha : p.a ≠ 0)
    (hdelta : p.discriminant < 0) (v : ℝ) : p.valueAt v = 0 ↔ v = realRoot p x y := by
  have ha' : (p.a : ℝ) ≠ 0 := Rat.cast_ne_zero.2 ha
  obtain ⟨hb, hc, hd⟩ := h.coefficients ha
  have hfactor : p.valueAt v = p.a * (v - realRoot p x y) *
      ((v - pairCenter p x y) ^ 2 + pairOffset p x y ^ 2) := by
    rw [valueAt, hb, hc, hd]
    ring
  have hoffset := h.pairOffset_ne_zero ha hdelta
  have hpositive : (v - pairCenter p x y) ^ 2 + pairOffset p x y ^ 2 ≠ 0 := by positivity
  rw [hfactor, mul_eq_zero, or_iff_left hpositive, mul_eq_zero, or_iff_right ha', sub_eq_zero]

end Cubic

/-! ### The cube root that is built -/

namespace Roots

open Reduction (Settings)

variable {s : Settings} {p : Cubic Rat}

theorem cubicDelta0_denotes (hlimit : s.limits.maxExponentBits = 4096) (p : Cubic Rat) :
    Reading.complex.Denotes (cubicDelta0 s (p.map .number)).value (p.delta0 : ℝ) := by
  refine (polynomial_denotes (Reduction.drawsRoots_complex hlimit) ?_).congr ?_
  · simp [Cubic.map]
  · simp only [monomialValue, Cubic.map, Cubic.delta0, List.map_cons, List.map_nil,
      List.sum_cons, List.sum_nil, List.prod_cons, List.prod_nil, Reading.value_number]
    push_cast
    ring

/-- The term for `Δ₁` in Cardano's formula. -/
def cubicDelta1 (s : Settings) (p : Cubic Term) : Build Term :=
  polynomial s [(2, [(p.b, 3)]), (-9, [(p.a, 1), (p.b, 1), (p.c, 1)]), (27, [(p.a, 2), (p.d, 1)])]

theorem cubicDelta1_denotes (hlimit : s.limits.maxExponentBits = 4096) (p : Cubic Rat) :
    Reading.complex.Denotes (cubicDelta1 s (p.map .number)).value (p.delta1 : ℝ) := by
  refine (polynomial_denotes (Reduction.drawsRoots_complex hlimit) ?_).congr ?_
  · simp [Cubic.map]
  · simp only [monomialValue, Cubic.map, Cubic.delta1, List.map_cons, List.map_nil,
      List.sum_cons, List.sum_nil, List.prod_cons, List.prod_nil, Reading.value_number]
    push_cast
    ring

theorem cubeRootOfHalf_denotes (hlimit : s.limits.maxExponentBits = 4096) {t : Term} {x : ℝ}
    (ht : Reading.complex.Denotes t x) :
    Reading.complex.Denotes (cubeRootOfHalf s t).value (realCubeRoot (1 / 2 * x)) := by
  have hhalf := Reduction.mul_pair_denotes (Reduction.drawsRoots_complex hlimit)
    (.number (1 / 2)) ht
  have hreal : ((1 / 2 : Rat) : ℂ) * x = ((1 / 2 * x : ℝ) : ℂ) := by
    push_cast
    ring
  rw [hreal] at hhalf
  simpa [cubeRootOfHalf] using Reduction.cubeRoot_denotes hlimit hhalf

/-- The square of `Δ₁` less four times the cube of `Δ₀`, under the inner square root. -/
def innerRadicand (s : Settings) (delta0 delta1 : Term) : Build Term :=
  polynomial s [(1, [(delta1, 2)]), (-4, [(delta0, 3)])]

theorem innerRadicand_denotes (hlimit : s.limits.maxExponentBits = 4096) {delta0 delta1 : Term}
    {x y : ℝ} (h0 : Reading.complex.Denotes delta0 x) (h1 : Reading.complex.Denotes delta1 y) :
    Reading.complex.Denotes (innerRadicand s delta0 delta1).value
      ((y ^ 2 - 4 * x ^ 3 : ℝ) : ℂ) := by
  refine (polynomial_denotes (Reduction.drawsRoots_complex hlimit) ?_).congr ?_
  · simp [h0.hasValue, h1.hasValue]
  · simp only [monomialValue, List.map_cons, List.map_nil, List.sum_cons, List.sum_nil,
      List.prod_cons, List.prod_nil, h0.value_eq, h1.value_eq]
    push_cast
    ring

/-- The first choice for the cube root, with the inner square root added. -/
def firstCubeRoot (s : Settings) (delta0 delta1 : Term) : Term :=
  (cubeRootOfHalf s (Reduction.add [delta1,
    (sqrt s (innerRadicand s delta0 delta1).value).value]).value).value

theorem cardanoRoot_value (delta0 delta1 : Term) :
    (cardanoRoot s delta0 delta1).value =
      if (firstCubeRoot s delta0 delta1).nullity s = .yes then
        (cubeRootOfHalf s (sub s delta1
          (sqrt s (innerRadicand s delta0 delta1).value).value).value).value
      else firstCubeRoot s delta0 delta1 := by
  unfold cardanoRoot firstCubeRoot innerRadicand
  simp only [Build.value_bind]
  split_ifs <;> simp only [Build.value_bind, Build.value_pure]

/-- The cube root that is chosen is not zero, if the first choice is known to be zero where it
    is. -/
theorem cardanoRoot_denotes (hlimit : s.limits.maxExponentBits = 4096) {delta0 delta1 : Term}
    {x y : ℝ} (h0 : Reading.complex.Denotes delta0 x) (h1 : Reading.complex.Denotes delta1 y)
    (hinner : 0 < y ^ 2 - 4 * x ^ 3)
    (hnull : y + √(y ^ 2 - 4 * x ^ 3) = 0 → (firstCubeRoot s delta0 delta1).nullity s = .yes) :
    ∃ C : ℝ, Reading.complex.Denotes (cardanoRoot s delta0 delta1).value C ∧ C ≠ 0 ∧
      C ^ 6 - y * C ^ 3 + x ^ 3 = 0 := by
  have hroot := sqrt_denotes hlimit (innerRadicand_denotes hlimit h0 h1) hinner.le
  generalize hS : √(y ^ 2 - 4 * x ^ 3) = S at *
  have hsquare : S ^ 2 = y ^ 2 - 4 * x ^ 3 := by rw [← hS, Real.sq_sqrt hinner.le]
  have hpos : 0 < S := hS ▸ Real.sqrt_pos.2 hinner
  -- either sign of the inner square root gives a root of the resolvent
  have hresolvent {v : ℝ} (hv : v ^ 2 = y ^ 2 - 4 * x ^ 3) :
      realCubeRoot (1 / 2 * (y + v)) ^ 6 - y * realCubeRoot (1 / 2 * (y + v)) ^ 3 + x ^ 3 = 0 := by
    rw [show (6 : ℕ) = 3 * 2 from rfl, pow_mul, realCubeRoot_pow]
    linear_combination hv / 4
  have hzero_iff {v : ℝ} : realCubeRoot (1 / 2 * (y + v)) = 0 ↔ y + v = 0 := by
    rw [← pow_eq_zero_iff three_ne_zero, realCubeRoot_pow]
    exact mul_eq_zero_iff_left (by norm_num)
  have hplus := Reduction.add_pair_denotes h1 hroot
  rw [← Complex.ofReal_add] at hplus
  have hfirst : Reading.complex.Denotes (firstCubeRoot s delta0 delta1)
      (realCubeRoot (1 / 2 * (y + S))) := cubeRootOfHalf_denotes hlimit hplus
  rw [cardanoRoot_value]
  by_cases hyes : (firstCubeRoot s delta0 delta1).nullity s = .yes
  · rw [if_pos hyes]
    have hzero := hfirst.value_eq.symm.trans (Reading.value_of_nullity hyes hfirst.hasValue)
    rw [Complex.ofReal_eq_zero, hzero_iff] at hzero
    have hminus := sub_denotes (Reduction.drawsRoots_complex hlimit) h1 hroot
    rw [← Complex.ofReal_sub, sub_eq_add_neg] at hminus
    refine ⟨_, cubeRootOfHalf_denotes hlimit hminus, ?_, hresolvent (by rw [neg_sq, hsquare])⟩
    rw [ne_eq, hzero_iff]
    intro hboth
    linarith
  · rw [if_neg hyes]
    refine ⟨_, hfirst, ?_, hresolvent hsquare⟩
    rw [ne_eq, hzero_iff]
    exact fun hzero => hyes (hnull hzero)

/-! ### Recognising a null cube root -/

/-- The numbers that decide whether the first choice for the cube root is zero pass the size
    tests. -/
structure FitsCardano (s : Settings) (p : Cubic Rat) : Prop where
  middle : s.fits p.b 2 = true
  cube : s.fits p.b 3 = true
  leading : s.fits p.a 2 = true
  invariant : s.fits p.delta1 2 = true
  square : s.fits (p.delta1 ^ 2) 2 = true

theorem cubicDelta1_number (h : FitsCardano s p) :
    (cubicDelta1 s (p.map .number)).value = .number p.delta1 := by
  have hvalue := polynomial_numbers (s := s)
    [(2, [(p.b, 3)]), (-9, [(p.a, 1), (p.b, 1), (p.c, 1)]), (27, [(p.a, 2), (p.d, 1)])]
    (by simp [Integer.halfWordCount, Settings.Raises, h.cube, h.leading])
  refine hvalue.trans (congrArg Term.number ?_)
  simp [Cubic.delta1]
  ring

theorem cubeRootOfHalf_zero : (cubeRootOfHalf s (.number 0)).value = .number 0 := by
  have hden : (1 / 3 : Rat).den = 3 := by norm_num
  have hpower : (Reduction.pow s (.number 0) (.number (1 / 3))).value = .number 0 := by
    rw [Reduction.pow_number_of_fraction zero_ne_one (by rw [hden]; decide),
      Reduction.rationalPower, if_pos rfl, if_pos (by norm_num)]
    rfl
  have hhalved : (Reduction.mul s [.number (1 / 2), .number 0]).value = .number 0 := by
    simpa using Reduction.mul_numbers s [1 / 2, 0]
  have habs : (0 : Rat).abs = 0 := rfl
  have hplain : Reduction.poison? [.number 0] = none := rfl
  simp only [cubeRootOfHalf, Build.value_bind, Build.value_number, hhalved]
  simp only [Reduction.apply, hplain, Reduction.exactValue?, Reduction.exactCubeRoot?,
    Option.getD_some, Build.value_bind, Build.value_number, habs, hpower, lt_irrefl, if_false,
    Build.value_pure]

/-- With `b² = 3ac` the first choice for the cube root is known to be zero where it is. -/
theorem firstCubeRoot_of_null (hlimits : s.limits = {}) (h0 : p.delta0 = 0)
    (hneg : p.delta1 < 0) (h : FitsCardano s p) :
    firstCubeRoot s (cubicDelta0 s (p.map .number)).value (cubicDelta1 s (p.map .number)).value =
      .number 0 := by
  have hzero : s.fits 0 3 = true := by
    rw [Settings.fits, hlimits]
    decide +kernel
  have hinner : (innerRadicand s (.number 0) (.number p.delta1)).value =
      .number (p.delta1 ^ 2) := by
    have hvalue := polynomial_numbers (s := s) [(1, [(p.delta1, 2)]), (-4, [(0, 3)])]
      (by simp [Integer.halfWordCount, Settings.Raises, h.invariant, hzero])
    refine hvalue.trans (congrArg Term.number ?_)
    simp
  rw [cubicDelta0_number (.inr h.middle), cubicDelta1_number h, h0, firstCubeRoot, hinner,
    sqrt_sq hlimits hneg.ne h.square, add_numbers, abs_of_neg hneg, add_neg_cancel,
    cubeRootOfHalf_zero]

/-- The cube root of Cardano's formula for a cubic with a negative discriminant. -/
theorem exists_cardanoRoot (hlimits : s.limits = {}) (ha : p.a ≠ 0)
    (hdelta : p.discriminant < 0) (h : p.delta0 = 0 → p.delta1 < 0 → FitsCardano s p) :
    ∃ x : ℝ, x ≠ 0 ∧ p.IsCardanoPair x (p.delta0 / x) ∧ Reading.complex.Denotes (cardanoRoot s
      (cubicDelta0 s (p.map .number)).value (cubicDelta1 s (p.map .number)).value).value x := by
  have hlimit : s.limits.maxExponentBits = 4096 := by rw [hlimits]
  have hinner : 0 < p.delta1 ^ 2 - 4 * p.delta0 ^ 3 := by
    have hdiscriminant := p.discriminant_eq
    have hsquare : 0 < p.a ^ 2 := by positivity
    nlinarith [mul_neg_of_pos_of_neg hsquare hdelta]
  have hinner' : (0 : ℝ) < (p.delta1 : ℝ) ^ 2 - 4 * (p.delta0 : ℝ) ^ 3 := by exact_mod_cast hinner
  have hnull (hsum : p.delta1 + √((p.delta1 : ℝ) ^ 2 - 4 * (p.delta0 : ℝ) ^ 3) = 0) :
      (firstCubeRoot s (cubicDelta0 s (p.map .number)).value
        (cubicDelta1 s (p.map .number)).value).nullity s = .yes := by
    -- the first choice is zero only if `Δ₀` is, and then `Δ₁` is negative
    have hsqrt : √((p.delta1 : ℝ) ^ 2 - 4 * (p.delta0 : ℝ) ^ 3) = -p.delta1 := by linarith
    have hneg : p.delta1 < 0 := by
      have hpos := Real.sqrt_pos.2 hinner'
      have hneg' : (p.delta1 : ℝ) < 0 := by linarith
      exact_mod_cast hneg'
    have h0 : p.delta0 = 0 := by
      have hsquare := Real.sq_sqrt hinner'.le
      rw [hsqrt] at hsquare
      have hcube : (p.delta0 : ℝ) ^ 3 = 0 := by linarith
      exact_mod_cast pow_eq_zero_iff three_ne_zero |>.1 hcube
    rw [firstCubeRoot_of_null hlimits h0 hneg (h h0 hneg)]
    exact Term.nullity_number_eq_yes_iff.2 rfl
  obtain ⟨x, hx, hne, hresolvent⟩ := cardanoRoot_denotes hlimit (cubicDelta0_denotes hlimit p)
    (cubicDelta1_denotes hlimit p) hinner' hnull
  exact ⟨x, hne, .of_resolvent hne hresolvent, hx⟩

/-! ### The roots that are built -/

/-- What the complex roots are from their real part, from the cube root and its counterpart. -/
theorem cardanoOffset_denotes (hlimit : s.limits.maxExponentBits = 4096) (ha : p.a ≠ 0)
    {c ratio : Term} {x y : ℝ} (hc : Reading.complex.Denotes c x)
    (hratio : Reading.complex.Denotes ratio y) :
    Reading.complex.Denotes (Reduction.mul s [.number (1 / 2), (sqrt s (.number 3)).value,
      (div s (sub s c ratio).value (.number (3 * p.a))).value, .constant .i]).value
        (p.pairOffset x y * Complex.I) := by
  have hroots := Reduction.drawsRoots_complex hlimit
  have hthrice : ((3 * p.a : Rat) : ℂ) ≠ 0 := Rat.cast_ne_zero.2 (mul_ne_zero three_ne_zero ha)
  have hthree := sqrt_denotes (t := .number 3) hlimit
    ((Reading.Denotes.number 3).congr (Complex.ofReal_ratCast 3).symm) (by norm_num)
  have hgap := div_denotes hroots (sub_denotes hroots hc hratio) (.number (3 * p.a)) hthrice
  have hi : Reading.complex.Denotes (.constant .i) Complex.I := ⟨trivial, rfl⟩
  refine (Reduction.mul_denotes hroots ?_).congr ?_
  · simp [Reading.complex.hasValue_number, hthree.hasValue, hgap.hasValue, hi.hasValue]
  · simp only [List.map_cons, List.map_nil, List.prod_cons, List.prod_nil, Reading.value_number,
      hthree.value_eq, hgap.value_eq, hi.value_eq, Cubic.pairOffset]
    push_cast
    ring

/-- The pair of complex roots, from the cube root and its counterpart. -/
theorem cardanoPair_denotes (hlimit : s.limits.maxExponentBits = 4096) (ha : p.a ≠ 0)
    {c ratio : Term} {x y : ℝ} (hc : Reading.complex.Denotes c x)
    (hratio : Reading.complex.Denotes ratio y) :
    ∃ low high : Term,
      (cardanoPair s (p.map .number) (.number (3 * p.a)) c ratio).value = [low, high] ∧
      Reading.complex.Denotes low (p.pairCenter x y - p.pairOffset x y * Complex.I) ∧
      Reading.complex.Denotes high (p.pairCenter x y + p.pairOffset x y * Complex.I) := by
  have hroots := Reduction.drawsRoots_complex hlimit
  have hthrice : ((3 * p.a : Rat) : ℂ) ≠ 0 := Rat.cast_ne_zero.2 (mul_ne_zero three_ne_zero ha)
  have hsixfold : ((6 * p.a : Rat) : ℂ) ≠ 0 := Rat.cast_ne_zero.2 (mul_ne_zero (by norm_num) ha)
  have hsix : (monomial s 6 [((p.map Term.number).a, 1)]).value = .number (6 * p.a) :=
    monomial_number 6 p.a
  have hopposite : (neg s (p.map Term.number).b).value = .number (-p.b) := neg_number
  have hmiddle := div_denotes hroots (.number (-p.b)) (.number (3 * p.a)) hthrice
  have hspread := div_denotes hroots (Reduction.add_pair_denotes hc hratio)
    (.number (6 * p.a)) hsixfold
  have hcenter := (Reduction.add_pair_denotes hmiddle hspread).congr
    (w := (p.pairCenter x y : ℂ)) (by simp [Cubic.pairCenter])
  have hoffset := cardanoOffset_denotes hlimit ha hc hratio
  simp only [cardanoPair, Build.value_bind, Build.value_number, Build.value_make,
    Build.value_pure, hsix, hopposite]
  exact ⟨_, _, rfl, sub_denotes hroots hcenter hoffset,
    Reduction.add_pair_denotes hcenter hoffset⟩

/-- The term of the real root, from the cube root and its counterpart. -/
def cardanoFirst (s : Settings) (p : Cubic Rat) (c ratio : Term) : Term :=
  (div s (neg s (Reduction.add [.number p.b, c, ratio]).value).value (.number (3 * p.a))).value

theorem cardanoFirst_denotes (hlimit : s.limits.maxExponentBits = 4096) (ha : p.a ≠ 0)
    {c ratio : Term} {x y : ℝ} (hc : Reading.complex.Denotes c x)
    (hratio : Reading.complex.Denotes ratio y) :
    Reading.complex.Denotes (cardanoFirst s p c ratio) (p.realRoot x y : ℝ) := by
  have hroots := Reduction.drawsRoots_complex hlimit
  have hthrice : ((3 * p.a : Rat) : ℂ) ≠ 0 := Rat.cast_ne_zero.2 (mul_ne_zero three_ne_zero ha)
  have hterms : ∀ t ∈ [.number p.b, c, ratio], Reading.complex.HasValue t := by
    simp [Reading.complex.hasValue_number, hc.hasValue, hratio.hasValue]
  refine (div_denotes hroots (neg_denotes hroots (Reduction.add_denotes hterms))
    (.number (3 * p.a)) hthrice).congr ?_
  simp only [List.map_cons, List.map_nil, List.sum_cons, List.sum_nil, Reading.value_number,
    hc.value_eq, hratio.value_eq, Cubic.realRoot]
  push_cast
  ring

theorem cardano_value {c : Term} (hc : (cardanoRoot s (cubicDelta0 s (p.map .number)).value
      (cubicDelta1 s (p.map .number)).value).value = c) :
    (cardano s (p.map .number)).value =
      if s.complexFormat = .real then
        [cardanoFirst s p c (div s (cubicDelta0 s (p.map .number)).value c).value, .nonreal]
      else cardanoFirst s p c (div s (cubicDelta0 s (p.map .number)).value c).value ::
        (cardanoPair s (p.map .number) (.number (3 * p.a)) c
          (div s (cubicDelta0 s (p.map .number)).value c).value).value := by
  have hthree : (monomial s 3 [((p.map Term.number).a, 1)]).value = .number (3 * p.a) :=
    monomial_number 3 p.a
  unfold cubicDelta1 at hc
  unfold cardano
  simp only [Build.value_bind, hc, hthree]
  split <;> simp only [Build.value_bind, Build.value_pure, Build.value_make] <;> rfl

/-- The real root and the pair of complex roots, as they are built from the cube root. -/
theorem cardano_denotes (hlimit : s.limits.maxExponentBits = 4096) (ha : p.a ≠ 0) {x : ℝ}
    (hne : x ≠ 0) (hx : Reading.complex.Denotes (cardanoRoot s
      (cubicDelta0 s (p.map .number)).value (cubicDelta1 s (p.map .number)).value).value x) :
    ∃ first low high : Term,
      (cardano s (p.map .number)).value =
        (if s.complexFormat = .real then [first, .nonreal] else [first, low, high]) ∧
      Reading.complex.Denotes first (p.realRoot x (p.delta0 / x) : ℝ) ∧
      Reading.complex.Denotes low
        (p.pairCenter x (p.delta0 / x) - p.pairOffset x (p.delta0 / x) * Complex.I) ∧
      Reading.complex.Denotes high
        (p.pairCenter x (p.delta0 / x) + p.pairOffset x (p.delta0 / x) * Complex.I) := by
  have hvalue := cardano_value (s := s) (p := p) rfl
  generalize (cardanoRoot s (cubicDelta0 s (p.map .number)).value
    (cubicDelta1 s (p.map .number)).value).value = c at hx hvalue
  have hratio := div_denotes (Reduction.drawsRoots_complex hlimit) (cubicDelta0_denotes hlimit p)
    hx (Complex.ofReal_ne_zero.2 hne)
  rw [← Complex.ofReal_div] at hratio
  obtain ⟨low, high, hpair, hlow, hhigh⟩ := cardanoPair_denotes (p := p) hlimit ha hx hratio
  rw [hpair] at hvalue
  exact ⟨_, low, high, hvalue, cardanoFirst_denotes hlimit ha hx hratio, hlow, hhigh⟩

/-- Cardano's formula gives the roots of a cubic with a negative discriminant: in the real format
    the real one and a mark, in the others all three. -/
theorem cardano_solves (hlimits : s.limits = {}) (ha : p.a ≠ 0) (hdelta : p.discriminant < 0)
    (h : p.delta0 = 0 → p.delta1 < 0 → FitsCardano s p) :
    ∃ (x : ℝ) (y z : ℂ),
      (∀ v : ℝ, p.valueAt v = 0 ↔ v = x) ∧
      (∀ w : ℂ, p.valueAt w = p.a * (w - x) * (w - y) * (w - z)) ∧
      ∃ first low high : Term, Reading.complex.Denotes first x ∧
        Reading.complex.Denotes low y ∧ Reading.complex.Denotes high z ∧
        (cardano s (p.map .number)).value =
          if s.complexFormat = .real then [first, .nonreal] else [first, low, high] := by
  obtain ⟨c, hne, hpair, hc⟩ := exists_cardanoRoot hlimits ha hdelta h
  obtain ⟨first, low, high, hvalue, hfirst, hlow, hhigh⟩ :=
    cardano_denotes (by rw [hlimits]) ha hne hc
  exact ⟨p.realRoot c (p.delta0 / c), _, _, hpair.valueAt_real_iff ha hdelta,
    hpair.valueAt_eq ha, first, low, high, hfirst, hlow, hhigh, hvalue⟩

/-- The real cube root of two, whose cube root is built with the other sign. -/
theorem cardano_solves_cubeRoot :
    ∃ (x : ℝ) (y z : ℂ),
      (∀ v : ℝ, Cubic.valueAt ⟨1, 0, 0, -2⟩ v = 0 ↔ v = x) ∧
      (∀ w : ℂ, Cubic.valueAt ⟨1, 0, 0, -2⟩ w = (1 : Rat) * (w - x) * (w - y) * (w - z)) ∧
      ∃ first low high : Term, Reading.complex.Denotes first x ∧
        Reading.complex.Denotes low y ∧ Reading.complex.Denotes high z ∧
        (cardano {} (Cubic.map Term.number ⟨1, 0, 0, -2⟩)).value =
          if ({} : Settings).complexFormat = .real then [first, .nonreal]
          else [first, low, high] := by
  have hfits : FitsCardano {} ⟨1, 0, 0, -2⟩ :=
    ⟨by decide +kernel, by decide +kernel, by decide +kernel, by decide +kernel,
      by decide +kernel⟩
  exact cardano_solves (p := ⟨1, 0, 0, -2⟩) rfl one_ne_zero
    (by norm_num [Cubic.discriminant]) fun _ _ => hfits

end Roots

end EquationSolver
