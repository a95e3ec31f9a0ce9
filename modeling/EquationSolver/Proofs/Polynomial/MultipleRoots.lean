import EquationSolver.Proofs.Matrix.Rationals
import EquationSolver.Proofs.Polynomial.Arithmetic
import EquationSolver.Proofs.Polynomial.RationalRoot

/-!
# Multiple roots of cubics

The discriminant that is found for a cubic with exact coefficients has the value that it is to
have.  Where it is zero, the formulas for multiple roots give numbers that factor the cubic: a
triple root where `b² = 3ac`, and otherwise a double root and a simple one.
-/

namespace EquationSolver

/-! ### Invariants of a cubic -/

namespace Cubic

variable {p : Cubic Rat}

def discriminant (p : Cubic Rat) : Rat :=
  p.b ^ 2 * p.c ^ 2 - 4 * p.a * p.c ^ 3 - 4 * p.b ^ 3 * p.d - 27 * p.a ^ 2 * p.d ^ 2 +
    18 * p.a * p.b * p.c * p.d

def delta0 (p : Cubic Rat) : Rat :=
  p.b ^ 2 - 3 * p.a * p.c

def delta1 (p : Cubic Rat) : Rat :=
  2 * p.b ^ 3 - 9 * p.a * p.b * p.c + 27 * p.a ^ 2 * p.d

theorem discriminant_eq (p : Cubic Rat) :
    27 * p.a ^ 2 * p.discriminant = 4 * p.delta0 ^ 3 - p.delta1 ^ 2 := by
  rw [discriminant, delta0, delta1]
  ring

/-- A cubic whose invariants are both zero is a multiple of a cube. -/
theorem eq_ofRoots_of_triple (ha : p.a ≠ 0) (h0 : p.delta0 = 0) (hdelta : p.discriminant = 0) :
    p = ofRoots p.a (-p.b / (3 * p.a)) (-p.b / (3 * p.a)) (-p.b / (3 * p.a)) := by
  have h1 : p.delta1 = 0 := by
    have hdiscriminant := p.discriminant_eq
    rw [hdelta, h0] at hdiscriminant
    exact pow_eq_zero_iff two_ne_zero |>.1 (by linarith)
  obtain ⟨a, b, c, d⟩ := p
  simp only [delta0, delta1] at ha h0 h1 ⊢
  have hb : b = -(a * (-b / (3 * a) + -b / (3 * a) + -b / (3 * a))) := by
    field_simp
    ring
  have hc : c = a * (-b / (3 * a) * (-b / (3 * a)) + -b / (3 * a) * (-b / (3 * a)) +
      -b / (3 * a) * (-b / (3 * a))) := by
    field_simp
    linear_combination -3 * h0
  have hd : d = -(a * (-b / (3 * a)) * (-b / (3 * a)) * (-b / (3 * a))) := by
    field_simp
    linear_combination h1 - 3 * b * h0
  exact Cubic.mk.injEq .. ▸ ⟨rfl, hb, hc, hd⟩

/-- A cubic with a null discriminant that is no multiple of a cube has a double root and a simple
    one. -/
theorem eq_ofRoots_of_double (ha : p.a ≠ 0) (h0 : p.delta0 ≠ 0) (hdelta : p.discriminant = 0) :
    p = ofRoots p.a ((9 * p.a * p.d - p.b * p.c) / (2 * p.delta0))
      ((9 * p.a * p.d - p.b * p.c) / (2 * p.delta0))
      ((4 * p.a * p.b * p.c - 9 * p.a ^ 2 * p.d - p.b ^ 3) / (p.a * p.delta0)) := by
  obtain ⟨a, b, c, d⟩ := p
  simp only [discriminant] at hdelta
  have hdelta0 : delta0 ⟨a, b, c, d⟩ = b ^ 2 - 3 * a * c := rfl
  generalize delta0 ⟨a, b, c, d⟩ = δ at *
  simp only at ha ⊢
  have hb : b = -(a * ((9 * a * d - b * c) / (2 * δ) + (9 * a * d - b * c) / (2 * δ) +
      (4 * a * b * c - 9 * a ^ 2 * d - b ^ 3) / (a * δ))) := by
    field_simp
    rw [hdelta0]
    ring
  have hc : c = a * ((9 * a * d - b * c) / (2 * δ) * ((9 * a * d - b * c) / (2 * δ)) +
      (9 * a * d - b * c) / (2 * δ) * ((4 * a * b * c - 9 * a ^ 2 * d - b ^ 3) / (a * δ)) +
      (9 * a * d - b * c) / (2 * δ) * ((4 * a * b * c - 9 * a ^ 2 * d - b ^ 3) / (a * δ))) := by
    field_simp
    rw [hdelta0]
    linear_combination -9 * a * hdelta
  have hd : d = -(a * ((9 * a * d - b * c) / (2 * δ)) * ((9 * a * d - b * c) / (2 * δ)) *
      ((4 * a * b * c - 9 * a ^ 2 * d - b ^ 3) / (a * δ))) := by
    field_simp
    rw [hdelta0]
    linear_combination (27 * a ^ 2 * d - b ^ 3) * hdelta
  exact Cubic.mk.injEq .. ▸ ⟨rfl, hb, hc, hd⟩

end Cubic

namespace Roots

open Reduction (Settings)

variable {s : Settings} {p : Cubic Rat}

/-! ### The discriminant that is found -/

theorem delta_ofCubic (s : Settings) (x : Cubic Term) :
    (ofCubic s x).value.delta = (cubicDiscriminant s x).value := by
  unfold ofCubic
  simp only [Build.value_bind]
  split
  · rfl
  · split
    · rfl
    · split
      · rfl
      · rfl

/-- The discriminant of a cubic with exact coefficients has its value, however large they are. -/
theorem cubicDiscriminant_denotes (s : Settings) (p : Cubic Rat) (ρ : String → ℚ) :
    (Valuation.rational ρ).Denotes (cubicDiscriminant s (p.map .number)).value p.discriminant := by
  have hroots := (Reduction.drawsRoots_rational ρ s).reading
  refine .of_reading ((polynomial_denotes hroots ?_).congr ?_)
  · simp [Cubic.map]
  · simp only [monomialValue, Cubic.map, Cubic.discriminant, List.map_cons, List.map_nil,
      List.sum_cons, List.sum_nil, List.prod_cons, List.prod_nil, Reading.value_number]
    push_cast
    ring

/-! ### The formulas on numbers -/

/-- The numbers of the formulas for multiple roots pass the size tests. -/
structure FitsMultiple (s : Settings) (p : Cubic Rat) : Prop where
  middle : s.fits p.b 2 = true
  triple : p.delta0 = 0 → s.Inverts (3 * p.a)
  double : p.delta0 ≠ 0 → s.fits p.b 3 = true ∧ s.fits p.a 2 = true ∧
    s.Inverts (2 * p.delta0) ∧ s.Inverts (p.a * p.delta0)

theorem cubicDelta0_number (hb : s.Raises p.b 2) :
    (cubicDelta0 s (p.map .number)).value = .number p.delta0 := by
  have hvalue := polynomial_numbers (s := s) [(1, [(p.b, 2)]), (-3, [(p.a, 1), (p.c, 1)])]
    (by simp [hb, Integer.halfWordCount])
  refine hvalue.trans (congrArg Term.number ?_)
  simp [Cubic.delta0]
  ring

/-- The triple root. -/
theorem multipleRoots_of_triple (ha : p.a ≠ 0) (h : FitsMultiple s p) (h0 : p.delta0 = 0) :
    (multipleRoots s (p.map .number)).value = [.number (-p.b / (3 * p.a))] := by
  have hnull : (Term.number p.delta0).nullity s = .yes := Term.nullity_number_eq_yes_iff.2 h0
  have hthrice : (monomial s 3 [((p.map Term.number).a, 1)]).value = .number (3 * p.a) :=
    monomial_number 3 p.a
  have hopposite : (neg s (p.map Term.number).b).value = .number (-p.b) := neg_number
  simp only [multipleRoots, Build.value_bind, cubicDelta0_number (.inr h.middle), if_pos hnull,
    hthrice, hopposite, div_numbers (mul_ne_zero three_ne_zero ha) (h.triple h0), Build.value_pure]

/-- The double root and the simple root. -/
theorem multipleRoots_of_double (ha : p.a ≠ 0) (h : FitsMultiple s p) (h0 : p.delta0 ≠ 0) :
    (multipleRoots s (p.map .number)).value =
      [.number ((9 * p.a * p.d - p.b * p.c) / (2 * p.delta0)),
        .number ((4 * p.a * p.b * p.c - 9 * p.a ^ 2 * p.d - p.b ^ 3) / (p.a * p.delta0))] := by
  obtain ⟨hb, ha', hdouble, hsimple⟩ := h.double h0
  have hnull : (Term.number p.delta0).nullity s ≠ .yes :=
    fun hyes => h0 (Term.nullity_number_eq_yes_iff.1 hyes)
  have hdoubleTop : (polynomial s [(9, [((p.map Term.number).a, 1), ((p.map Term.number).d, 1)]),
      (-1, [((p.map Term.number).b, 1), ((p.map Term.number).c, 1)])]).value =
        .number (9 * p.a * p.d - p.b * p.c) := by
    have hvalue := polynomial_numbers (s := s)
      [(9, [(p.a, 1), (p.d, 1)]), (-1, [(p.b, 1), (p.c, 1)])]
      (by simp [Integer.halfWordCount])
    refine hvalue.trans (congrArg Term.number ?_)
    simp
    ring
  have hdoubleBottom : (monomial s 2 [(.number p.delta0, 1)]).value = .number (2 * p.delta0) :=
    monomial_number 2 p.delta0
  have hsimpleTop : (polynomial s [(4, [((p.map Term.number).a, 1), ((p.map Term.number).b, 1),
      ((p.map Term.number).c, 1)]), (-9, [((p.map Term.number).a, 2), ((p.map Term.number).d, 1)]),
      (-1, [((p.map Term.number).b, 3)])]).value =
        .number (4 * p.a * p.b * p.c - 9 * p.a ^ 2 * p.d - p.b ^ 3) := by
    have hvalue := polynomial_numbers (s := s)
      [(4, [(p.a, 1), (p.b, 1), (p.c, 1)]), (-9, [(p.a, 2), (p.d, 1)]), (-1, [(p.b, 3)])]
      (by simp [Integer.halfWordCount, Settings.Raises, hb, ha'])
    refine hvalue.trans (congrArg Term.number ?_)
    simp
    ring
  have hsimpleBottom : (Reduction.mul s [(p.map Term.number).a, .number p.delta0]).value =
      .number (p.a * p.delta0) := by
    simpa [Cubic.map] using Reduction.mul_numbers s [p.a, p.delta0]
  simp only [multipleRoots, Build.value_bind, cubicDelta0_number (.inr h.middle), if_neg hnull,
    hdoubleTop, hdoubleBottom, hsimpleTop, hsimpleBottom, Build.value_pure,
    div_numbers (mul_ne_zero two_ne_zero h0) hdouble, div_numbers (mul_ne_zero ha h0) hsimple]

/-! ### Factoring -/

/-- The discriminant of a cubic is found for all numbers, and where it is zero the formulas for
    multiple roots factor the cubic. -/
theorem multipleRoots_factor (K : Type*) [Field K] [CharZero K] (ha : p.a ≠ 0) :
    (∀ ρ, (Valuation.rational ρ).Denotes (ofCubic s (p.map .number)).value.delta
      p.discriminant) ∧
    (p.discriminant = 0 → FitsMultiple s p →
      (p.b ^ 2 = 3 * p.a * p.c → ∃ r : Rat,
        (multipleRoots s (p.map .number)).value = [.number r] ∧
          ∀ x : K, p.valueAt x = p.a * (x - r) ^ 3) ∧
      (p.b ^ 2 ≠ 3 * p.a * p.c → ∃ r t : Rat,
        (multipleRoots s (p.map .number)).value = [.number r, .number t] ∧
          ∀ x : K, p.valueAt x = p.a * (x - r) ^ 2 * (x - t))) := by
  refine ⟨fun ρ => ?_, fun hdelta hfits => ⟨fun h0 => ?_, fun h0 => ?_⟩⟩
  · rw [delta_ofCubic]
    exact cubicDiscriminant_denotes s p ρ
  · have h0 : p.delta0 = 0 := sub_eq_zero.2 h0
    refine ⟨_, multipleRoots_of_triple ha hfits h0, fun x => ?_⟩
    conv_lhs => rw [p.eq_ofRoots_of_triple ha h0 hdelta, Cubic.valueAt_ofRoots]
    ring
  · have h0 : p.delta0 ≠ 0 := sub_ne_zero.2 h0
    refine ⟨_, _, multipleRoots_of_double ha hfits h0, fun x => ?_⟩
    conv_lhs => rw [p.eq_ofRoots_of_double ha h0 hdelta, Cubic.valueAt_ofRoots]
    ring

/-- The double root and the simple root of `2x³ - 2x² - 2x + 2`. -/
theorem multipleRoots_factor_ones :
    ∃ r t : Rat, (multipleRoots {} (Cubic.map Term.number ⟨2, -2, -2, 2⟩)).value =
        [.number r, .number t] ∧
      ∀ x : ℚ, Cubic.valueAt ⟨2, -2, -2, 2⟩ x = 2 * (x - r) ^ 2 * (x - t) := by
  have hfits : FitsMultiple {} ⟨2, -2, -2, 2⟩ :=
    ⟨by decide +kernel, fun _ => by decide +kernel, fun _ =>
      ⟨by decide +kernel, by decide +kernel, by decide +kernel, by decide +kernel⟩⟩
  have hdelta : Cubic.discriminant ⟨2, -2, -2, 2⟩ = 0 := by norm_num [Cubic.discriminant]
  exact ((multipleRoots_factor ℚ (p := ⟨2, -2, -2, 2⟩) two_ne_zero).2 hdelta hfits).2 (by norm_num)

end Roots

end EquationSolver
