import EquationSolver.Proofs.Polynomial.Quadratic
import EquationSolver.Proofs.Polynomial.RationalRoot

/-!
# Rational solutions

Quadratics and cubics all of whose roots are rational are solved in full.  The discriminant of
such a quadratic is the square of a number, whose root is drawn as a number; of such a cubic one
root is found first, and what is left after dividing by it is such a quadratic.
-/

namespace EquationSolver

namespace Roots

open Reduction (Settings)

variable {s : Settings} {a r t u v : Rat}

/-! ### The root of a square -/

/-- A natural number with a rational square root is a square. -/
theorem exists_sq_of_eq_sq {m : Nat} {x : Rat} (h : (m : Rat) = x ^ 2) : ∃ k : Nat, k ^ 2 = m := by
  obtain ⟨k, hk⟩ := Rat.isSquare_natCast_iff.1 ⟨x, h.trans (sq x)⟩
  exact ⟨k, (sq k).trans hk.symm⟩

/-- One has no powers but itself. -/
theorem pow_one_number {q : Rat} (hq : q ≠ 0) :
    (Reduction.pow s (.number 1) (.number q)).value = .number 1 := by
  have hplain : ∀ t ∈ [Term.number 1, .number q], Reduction.IsPlain t := by
    simp [Reduction.IsPlain]
  rw [Reduction.pow, Reduction.maxDepth_eq_succ, Reduction.powWithin, Reduction.powWith]
  simp [Reduction.poison?_eq_none hplain, Reduction.hasMatrix_eq_false hplain, Term.isZero,
    Term.isOne, hq]

/-- The root of the square of a number is the magnitude of the number. -/
theorem sqrt_sq (hlimits : s.limits = {}) {x : Rat} (hx : x ≠ 0)
    (hfits : s.fits (x ^ 2) 2 = true) : (sqrt s (.number (x ^ 2))).value = .number |x| := by
  have hhalf : (1 / 2 : Rat).num = 1 ∧ (1 / 2 : Rat).den = 2 := by norm_num
  have hpos : 0 < x ^ 2 := by positivity
  simp only [sqrt, Build.value_bind, Build.value_number]
  by_cases hone : x ^ 2 = 1
  · have hx' : |x| = 1 := (pow_eq_one_iff_of_nonneg (abs_nonneg x) two_ne_zero).1
      ((sq_abs x).trans hone)
    rw [hone, hx', pow_one_number (by norm_num)]
  · have hroot := Reduction.pow_isRootOf (s := s) (e := 1 / 2) hlimits hpos hone
      (by rw [hhalf.1]; decide) (by rw [hhalf.2]) (by rw [hhalf.2]; decide)
      (by rw [hhalf.1, hhalf.2]; exact hfits)
    rw [hhalf.1, hhalf.2, zpow_one] at hroot
    -- what is left inside a root would be a square itself
    have hleft {c : Rat} {m k : Nat} (h : Reduction.IsLoweredRoot (x ^ 2) 2 c m k) : False := by
      have hk : k = 2 := by
        have := Nat.le_of_dvd two_pos h.index_dvd
        have := h.two_le_index
        omega
      obtain rfl := hk
      have hm : (m : Rat) = (x / c) ^ 2 := by
        have hpow := h.pow_eq
        have hc := h.coefficient_pos.ne'
        rw [div_pow, eq_div_iff (pow_ne_zero 2 hc), ← hpow]
        ring
      obtain ⟨root, hroot⟩ := exists_sq_of_eq_sq hm
      exact h.ne_pow 2 le_rfl dvd_rfl root hroot
    generalize (Reduction.pow s (.number (x ^ 2)) (.number (1 / 2))).value = found at hroot ⊢
    cases hroot with
    | number hc hpow =>
      rw [sq_eq_sq₀ hc.le (abs_nonneg x) |>.1 (hpow.trans (sq_abs x).symm)]
    | root h => exact (hleft h).elim
    | multiple _ h => exact (hleft h).elim

/-! ### Quadratics -/

/-- The numbers of the quadratic formula for `a (x - u) (x - v)` pass the size tests. -/
structure FitsRoots (s : Settings) (a u v : Rat) : Prop where
  middle : s.fits (-(a * (u + v))) 2 = true
  discriminant : s.fits (discrim a (-(a * (u + v))) (a * u * v)) 2 = true
  leading : s.Inverts (2 * a)

theorem discrim_ofRoots : discrim a (-(a * (u + v))) (a * u * v) = (a * (u - v)) ^ 2 := by
  rw [discrim]
  ring

/-- The terms that are found for a quadratic with rational roots are these roots. -/
theorem mem_quadratic (hlimits : s.limits = {}) (ha : a ≠ 0) (h : FitsRoots s a u v) (root : Term) :
    root ∈ (quadratic s (.number a) (.number (-(a * (u + v)))) (.number (a * u * v))).value.2 ↔
      root ∈ [u, v].map Term.number := by
  obtain ⟨hmiddle, hdelta, hleading⟩ := h
  have h2a : 2 * a ≠ 0 := mul_ne_zero two_ne_zero ha
  rw [quadratic_value (.inr hmiddle), discrimRoot]
  rw [discrim_ofRoots] at hdelta ⊢
  by_cases huv : u = v
  · rw [if_pos (by rw [huv]; ring), div_numbers h2a hleading, huv]
    have hroot : -(-(a * (v + v))) / (2 * a) = v := by
      field_simp
      ring
    rw [hroot]
    simp
  · have hne : a * (u - v) ≠ 0 := mul_ne_zero ha (sub_ne_zero.2 huv)
    rw [if_neg (pow_ne_zero 2 hne), sqrt_sq hlimits hne hdelta]
    simp only [sub_numbers, add_numbers, div_numbers h2a hleading]
    rcases abs_choice (a * (u - v)) with habs | habs
    · have hlow : (-(-(a * (u + v))) - a * (u - v)) / (2 * a) = v := by field_simp; ring
      have hhigh : (-(-(a * (u + v))) + a * (u - v)) / (2 * a) = u := by field_simp; ring
      rw [habs, hlow, hhigh]
      simp [or_comm]
    · have hlow : (-(-(a * (u + v))) - -(a * (u - v))) / (2 * a) = u := by field_simp; ring
      have hhigh : (-(-(a * (u + v))) + -(a * (u - v))) / (2 * a) = v := by field_simp; ring
      rw [habs, hlow, hhigh]
      simp

/-- The roots that have been found are exact, and they are these numbers, each of them once. -/
def AreNumbers (found : PolynomialRoots) (numbers : List Rat) : Prop :=
  found.isApproximate = false ∧ found.roots.Perm (numbers.dedup.map Term.number)

theorem perm_numbers {roots : List Term} {numbers : List Rat}
    (h : ∀ root, root ∈ roots ↔ root ∈ numbers.map Term.number) :
    roots.dedup.Perm (numbers.dedup.map Term.number) := by
  have hnumbers : (numbers.dedup.map Term.number).Nodup :=
    (List.nodup_dedup numbers).map fun x y hxy => Term.number.inj hxy
  refine (List.perm_ext_iff_of_nodup (List.nodup_dedup roots) hnumbers).2 fun root => ?_
  simp only [List.mem_dedup, h root, List.mem_map]

/-! ### Cubics -/

/-- The coefficients of the quadratic that is left after dividing by a root. -/
def deflated (p : Cubic Rat) (root : Rat) : Rat × Rat :=
  (p.b + root * p.a, p.c + root * (p.b + root * p.a))

/-- The root that has been divided by and the roots of what is left are the roots of the cubic. -/
theorem mem_deflated (hlimits : s.limits = {}) (ha : a ≠ 0) {w root : Rat}
    (huv : FitsRoots s a u v) (huw : FitsRoots s a u w) (hvw : FitsRoots s a v w)
    (hroot : (Cubic.ofRoots a u v w).valueAt root = 0) (t : Term) :
    t ∈ Term.number root :: (quadratic s (.number a)
        (.number (deflated (Cubic.ofRoots a u v w) root).1)
        (.number (deflated (Cubic.ofRoots a u v w) root).2)).value.2 ↔
      t ∈ [u, v, w].map Term.number := by
  have hleft {x y z : Rat} (h : FitsRoots s a y z)
      (hb : (deflated (Cubic.ofRoots a u v w) x).1 = -(a * (y + z)))
      (hc : (deflated (Cubic.ofRoots a u v w) x).2 = a * y * z) :
      t ∈ Term.number x :: (quadratic s (.number a)
        (.number (deflated (Cubic.ofRoots a u v w) x).1)
        (.number (deflated (Cubic.ofRoots a u v w) x).2)).value.2 ↔
          t ∈ [x, y, z].map Term.number := by
    show _ ↔ t ∈ Term.number x :: [y, z].map Term.number
    rw [hb, hc, List.mem_cons, List.mem_cons, mem_quadratic hlimits ha h]
  simp only [Cubic.valueAt_ofRoots, Rat.cast_id] at hroot
  have hfactors : root = u ∨ root = v ∨ root = w := by
    simpa [ha, sub_eq_zero, or_assoc] using hroot
  rcases hfactors with rfl | rfl | rfl
  · exact hleft hvw (by simp only [deflated, Cubic.ofRoots]; ring)
      (by simp only [deflated, Cubic.ofRoots]; ring)
  · refine (hleft huw (by simp only [deflated, Cubic.ofRoots]; ring)
      (by simp only [deflated, Cubic.ofRoots]; ring)).trans ?_
    simp only [List.map_cons, List.mem_cons]
    tauto
  · refine (hleft huv (by simp only [deflated, Cubic.ofRoots]; ring)
      (by simp only [deflated, Cubic.ofRoots]; ring)).trans ?_
    simp only [List.map_cons, List.mem_cons]
    tauto

/-- A cubic with a null constant term is divided by `x`. -/
theorem ofCubic_of_null {p : Cubic Rat} (hd : p.d = 0) :
    (ofCubic s (p.map Term.number)).value = finish s (cubicDiscriminant s (p.map .number)).value
      false (.number 0 :: (quadratic s (.number p.a) (.number p.b) (.number p.c)).value.2) := by
  have hnull : (p.map Term.number).d.nullity s = .yes := Term.nullity_number_eq_yes_iff.2 hd
  simp only [ofCubic, Build.value_bind, if_pos hnull, Build.value_pure, Build.value_make,
    rootAndQuadratic]
  rfl

theorem exactCoefficients?_numbers (p : Cubic Rat) :
    exactCoefficients? (p.map Term.number) = some p :=
  rfl

/-- A cubic with a rational root that is found is divided by it. -/
theorem ofCubic_of_rationalRoot {p : Cubic Rat} (hd : p.d ≠ 0) {root : Rat}
    (h : p.rationalRoot? = some root) :
    (ofCubic s (p.map Term.number)).value = finish s (cubicDiscriminant s (p.map .number)).value
      false (.number root :: (quadratic s (.number p.a) (.number (deflated p root).1)
        (.number (deflated p root).2)).value.2) := by
  have hnull : (p.map Term.number).d.nullity s ≠ .yes :=
    fun h => hd (Term.nullity_number_eq_yes_iff.1 h)
  simp only [ofCubic, Build.value_bind, if_neg hnull, exactCoefficients?_numbers,
    Option.bind_some, h, Option.map_some, dividedRoots, rootAndQuadratic, Build.value_number,
    Build.value_pure]
  rfl

/-- The terms that are listed for a cubic with rational roots are these roots. -/
theorem ofCubic_rational (hlimits : s.limits = {}) (ha : a ≠ 0) {w : Rat}
    (huv : FitsRoots s a u v) (huw : FitsRoots s a u w) (hvw : FitsRoots s a v w)
    (hsmall : a * u * v * w ≠ 0 →
      (Cubic.ofRoots a u v w).integral.a.natAbs ≤ divisorEnumerationLimit ∧
        (Cubic.ofRoots a u v w).integral.d.natAbs ≤ divisorEnumerationLimit) :
    AreNumbers (ofCubic s ((Cubic.ofRoots a u v w).map Term.number)).value [u, v, w] := by
  by_cases hd : (Cubic.ofRoots a u v w).d = 0
  · have hroot : (Cubic.ofRoots a u v w).valueAt (0 : Rat) = 0 := by
      simp [Cubic.valueAt, hd]
    have hmem := mem_deflated hlimits ha huv huw hvw hroot
    simp only [deflated, zero_mul, add_zero] at hmem
    rw [ofCubic_of_null hd]
    exact ⟨rfl, (perm_finish _ _ _ _).trans (perm_numbers hmem)⟩
  · obtain ⟨hasmall, hdsmall⟩ := hsmall (neg_ne_zero.1 hd)
    have hroot : (Cubic.ofRoots a u v w).valueAt u = 0 := by
      simp [Cubic.valueAt_ofRoots]
    obtain ⟨root, hfound⟩ := Cubic.exists_rationalRoot? ha hd hasmall hdsmall hroot
    have hmem := mem_deflated hlimits ha huv huw hvw (Cubic.valueAt_of_rationalRoot? hfound)
    rw [ofCubic_of_rationalRoot hd hfound]
    exact ⟨rfl, (perm_finish _ _ _ _).trans (perm_numbers hmem)⟩

/-- Rational roots are recovered in full. -/
theorem recovers_rational_roots (hlimits : s.limits = {}) (ha : a ≠ 0) (huv : FitsRoots s a u v) :
    AreNumbers (ofQuadratic s (.number a) (.number (-(a * (u + v)))) (.number (a * u * v))).value
        [u, v] ∧
      ∀ w, FitsRoots s a u w → FitsRoots s a v w →
        (a * u * v * w ≠ 0 →
          (Cubic.ofRoots a u v w).integral.a.natAbs ≤ divisorEnumerationLimit ∧
            (Cubic.ofRoots a u v w).integral.d.natAbs ≤ divisorEnumerationLimit) →
          AreNumbers (ofCubic s ((Cubic.ofRoots a u v w).map Term.number)).value [u, v, w] := by
  constructor
  · obtain ⟨hexact, hperm⟩ :=
      perm_ofQuadratic s (.number a) (.number (-(a * (u + v)))) (.number (a * u * v))
    exact ⟨hexact, hperm.trans (perm_numbers (mem_quadratic hlimits ha huv))⟩
  · intro w huw hvw hsmall
    exact ofCubic_rational hlimits ha huv huw hvw hsmall

/-- The double root and the simple root of `6 (x - 1/2)² (x + 3)`. -/
theorem recovers_rational_roots_halves :
    AreNumbers (ofCubic {} ((Cubic.ofRoots 6 (1 / 2) (1 / 2) (-3)).map Term.number)).value
      [1 / 2, 1 / 2, -3] := by
  have hdouble : FitsRoots {} 6 (1 / 2) (1 / 2) :=
    ⟨by decide +kernel, by decide +kernel, by decide +kernel⟩
  have hsimple : FitsRoots {} 6 (1 / 2) (-3) :=
    ⟨by decide +kernel, by decide +kernel, by decide +kernel⟩
  exact (recovers_rational_roots rfl (by norm_num) hdouble).2 (-3) hsimple hsimple fun _ =>
    ⟨by decide +kernel, by decide +kernel⟩

end Roots

end EquationSolver
