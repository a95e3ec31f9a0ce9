import EquationSolver.Proofs.Value.NegativePowers
import EquationSolver.Proofs.Value.Real
import EquationSolver.Reduction.Function
import Mathlib.Analysis.SpecialFunctions.Pow.Complex

/-!
# Complex values

Terms without symbols are read as complex numbers.  Roots are those of real numbers that are not
negative, and the cube root of a real number is the real one, whatever its sign; the imaginary
unit has its value.
-/

namespace EquationSolver

/-! ### Powers of complex numbers -/

open Rational in
/-- The powers of the complex numbers: those of zero have to be positive, and those of numbers
    other than the real ones that are not negative have to be integers. -/
noncomputable def PowerRule.complex : PowerRule ℂ where
  IsDefined v q := (v = 0 → 0 < q) ∧ (q.den ≠ 1 → ∃ x : ℝ, 0 ≤ x ∧ v = x)
  power v q := v ^ (q : ℂ)
  hasRoots := True
  hasRoots_of_isDefined _ _ := trivial
  isDefined_intCast := by
    intro v n
    simp
  power_intCast v n := by rw [Rat.cast_intCast, Complex.cpow_intCast]
  pos_of_isDefined_zero h := h.1 rfl
  power_zero := by
    rintro q ⟨hpos, -⟩
    exact Complex.zero_cpow (Rat.cast_ne_zero.2 (hpos rfl).ne')
  power_one _ := Complex.one_cpow _
  isDefined_add := by
    rintro v q r ⟨hq, hq'⟩ ⟨hr, hr'⟩
    refine ⟨fun hv => add_pos (hq hv) (hr hv), fun hden => ?_⟩
    by_cases hone : q.den = 1
    · exact hr' fun hone' => hden (den_add_eq_one hone hone')
    · exact hq' hone
  power_add := by
    rintro v q r ⟨hq, -⟩ ⟨hr, -⟩
    rcases eq_or_ne v 0 with rfl | hne
    · have hzero {q : Rat} (hpos : 0 < q) : (0 : ℂ) ^ (q : ℂ) = 0 :=
        Complex.zero_cpow (Rat.cast_ne_zero.2 hpos.ne')
      rw [hzero (hq rfl), zero_mul, hzero (add_pos (hq rfl) (hr rfl))]
    · rw [Rat.cast_add, Complex.cpow_add _ _ hne]
  isDefined_mul := by
    rintro v q n ⟨hq, hq'⟩ ⟨hn, -⟩
    refine ⟨?_, fun hden => hq' fun hone => hden (den_mul_intCast_eq_one n hone)⟩
    rintro rfl
    have hpower : (0 : ℂ) ^ (q : ℂ) = 0 := Complex.zero_cpow (Rat.cast_ne_zero.2 (hq rfl).ne')
    exact mul_pos (hq rfl) (hn hpower)
  power_mul := by
    rintro v q n - -
    rw [Rat.cast_mul, Rat.cast_intCast, Complex.cpow_mul_int]
  nonneg := by
    rintro a q ⟨-, h⟩ hden
    obtain ⟨x, hx, hax⟩ := h hden
    rw [← Complex.ofReal_ratCast, Complex.ofReal_inj] at hax
    exact_mod_cast hax ▸ hx
  isDefined_split := by
    rintro a q v ha hden ⟨hzero, hreal⟩
    have ha' : (0 : ℝ) < a := by exact_mod_cast ha
    have hne : (a : ℂ) ≠ 0 := Rat.cast_ne_zero.2 ha.ne'
    obtain ⟨x, hx, hax⟩ := hreal hden
    refine ⟨⟨fun h => absurd h hne, fun _ => ⟨a, ha'.le, (Complex.ofReal_ratCast a).symm⟩⟩, ?_, ?_⟩
    · intro hv
      exact hzero (by rw [hv, mul_zero])
    · refine fun _ => ⟨x / a, by positivity, ?_⟩
      rw [Complex.ofReal_div, Complex.ofReal_ratCast, ← hax, mul_div_cancel_left₀ _ hne]
  power_split := by
    rintro a q v ha hden ⟨-, hreal⟩
    have ha' : (0 : ℝ) < a := by exact_mod_cast ha
    have hne : (a : ℂ) ≠ 0 := Rat.cast_ne_zero.2 ha.ne'
    obtain ⟨x, hx, hax⟩ := hreal hden
    obtain rfl : v = ((x / a : ℝ) : ℂ) := by
      rw [Complex.ofReal_div, Complex.ofReal_ratCast, ← hax, mul_div_cancel_left₀ _ hne]
    rw [← Complex.ofReal_ratCast a]
    exact Complex.mul_cpow_ofReal_nonneg ha'.le (by positivity) _

/-! ### Real cube roots -/

/-- The cube root of a real number, with its sign. -/
noncomputable def realCubeRoot (x : ℝ) : ℝ :=
  if x < 0 then -(-x) ^ ((3 : ℕ) : ℝ)⁻¹ else x ^ ((3 : ℕ) : ℝ)⁻¹

@[simp] theorem realCubeRoot_pow (x : ℝ) : realCubeRoot x ^ 3 = x := by
  have hroot {y : ℝ} (hy : 0 ≤ y) : (y ^ ((3 : ℕ) : ℝ)⁻¹) ^ 3 = y :=
    Real.rpow_inv_natCast_pow hy three_ne_zero
  unfold realCubeRoot
  split
  case isTrue hneg => rw [Odd.neg_pow (by decide), hroot (by linarith), neg_neg]
  case isFalse hnonneg => exact hroot (not_lt.1 hnonneg)

/-! ### Complex values of terms -/

namespace ComplexValue

noncomputable def constant : Constant → ℂ
  | .pi => Real.pi
  | .e => Real.exp 1
  | .i => Complex.I

mutual

/-- The complex value of a term. -/
noncomputable def value : Term → ℂ
  | .number a => (a : ℂ)
  | .constant c => constant c
  | .sum terms => sumOfValues terms
  | .product factors => productOfValues factors
  | .power base (.number q) => value base ^ (q : ℂ)
  | .negation a => -value a
  | .quotient a b => value a / value b
  | .apply .cbrt a => realCubeRoot (value a).re
  | _ => 0

noncomputable def sumOfValues : List Term → ℂ
  | [] => 0
  | t :: ts => value t + sumOfValues ts

/-- The product of the complex values of a list. -/
noncomputable def productOfValues : List Term → ℂ
  | [] => 1
  | t :: ts => value t * productOfValues ts

end

mutual

/-- The term is built from numbers, constants and cube roots of real numbers, and each step of its
    evaluation is defined. -/
def HasValue : Term → Prop
  | .number _ | .constant _ => True
  | .sum terms => HaveValues terms
  | .product factors => HaveValues factors ∧ .number 0 ∉ factors
  | .power base (.number q) => HasValue base ∧ PowerRule.complex.IsDefined (value base) q
  | .negation a => HasValue a
  | .quotient a b => HasValue a ∧ HasValue b ∧ value b ≠ 0
  | .apply .cbrt a => HasValue a ∧ (value a).im = 0
  | _ => False

def HaveValues : List Term → Prop
  | [] => True
  | t :: ts => HasValue t ∧ HaveValues ts

end

theorem sumOfValues_eq (terms : List Term) : sumOfValues terms = (terms.map value).sum :=
  eq_sum_map rfl (fun _ _ => rfl) terms

theorem productOfValues_eq (factors : List Term) :
    productOfValues factors = (factors.map value).prod :=
  eq_prod_map rfl (fun _ _ => rfl) factors

theorem haveValues_iff {terms : List Term} : HaveValues terms ↔ ∀ t ∈ terms, HasValue t :=
  iff_forall_mem trivial (fun _ _ => Iff.rfl) terms

end ComplexValue

/-- What terms are as complex numbers. -/
noncomputable def Reading.complex : Reading ℂ where
  toPowerRule := .complex
  value := ComplexValue.value
  HasValue := ComplexValue.HasValue
  value_number _ := rfl
  hasValue_number _ := trivial
  value_sum := ComplexValue.sumOfValues_eq
  hasValue_sum := ComplexValue.haveValues_iff
  value_product := ComplexValue.productOfValues_eq
  hasValue_product :=
    and_congr ComplexValue.haveValues_iff ⟨fun h _ => h, fun h => h trivial⟩
  value_power _ _ := rfl
  hasValue_power := Iff.rfl
  exists_exponent := by
    intro base exponent h
    cases exponent with
    | number q => exact ⟨q, rfl⟩
    | _ => simp [ComplexValue.HasValue] at h
  i_mul_i _ := Complex.I_mul_I
  not_hasValue_decimal _ := id
  isPlain := by
    intro t h
    cases t <;> simp_all [ComplexValue.HasValue, Reduction.IsPlain]

theorem hasRealPowers_complex : Reading.complex.HasRealPowers Complex.ofRealHom := by
  intro a q ha
  have hpos : (0 : ℝ) < a := by exact_mod_cast ha
  constructor
  · refine ⟨fun h => absurd h (Rat.cast_ne_zero.2 ha.ne'), fun _ => ⟨a, hpos.le, ?_⟩⟩
    exact (Complex.ofReal_ratCast a).symm
  · show (a : ℂ) ^ (q : ℂ) = ((a : ℝ) ^ (q : ℝ) : ℝ)
    rw [Complex.ofReal_cpow hpos.le, Complex.ofReal_ratCast, Complex.ofReal_ratCast]

/-! ### Roots in standard form -/

namespace Reduction

variable {s : Settings} {t : Term} {x : ℝ}

/-- The roots of numbers are drawn as they are in the complex numbers. -/
theorem drawsRoots_complex (hlimit : s.limits.maxExponentBits = 4096) :
    Reading.complex.DrawsRoots s :=
  drawsRoots_of_realPowers hlimit hasRealPowers_complex

/-- A power of a real number that is positive. -/
theorem pow_denotes_rpow (hlimit : s.limits.maxExponentBits = 4096)
    (ht : Reading.complex.Denotes t x) (hx : 0 ≤ x) {q : Rat} (hq : 0 < q) :
    Reading.complex.Denotes (pow s t (.number q)).value ((x ^ (q : ℝ) : ℝ) : ℂ) := by
  have hpower : Reading.complex.HasValue (.power t (.number q)) :=
    Reading.complex.hasValue_power.2 ⟨ht.hasValue, fun _ => hq, fun _ => ⟨x, hx, ht.value_eq⟩⟩
  refine (pow_denotes (drawsRoots_complex hlimit) hpower).congr ?_
  rw [Reading.value_power, ht.value_eq]
  show (x : ℂ) ^ (q : ℂ) = _
  rw [Complex.ofReal_cpow hx, Complex.ofReal_ratCast]

/-- The cube root of a number is drawn from its magnitude. -/
theorem exactCubeRoot_denotes (hlimit : s.limits.maxExponentBits = 4096) (a : Rat) :
    ∃ root, exactCubeRoot? s (.number a) = some root ∧
      Reading.complex.Denotes root.value (realCubeRoot a) := by
  have hroot {b : Rat} (hb : 0 ≤ b) : Reading.complex.Denotes
      (pow s (.number b) (.number (1 / 3))).value (((b : ℝ) ^ ((3 : ℕ) : ℝ)⁻¹ : ℝ) : ℂ) := by
    have hnumber := (Reading.Denotes.number (R := .complex) b).congr
      (Complex.ofReal_ratCast b).symm
    have hthird : ((1 / 3 : Rat) : ℝ) = ((3 : ℕ) : ℝ)⁻¹ := by norm_num
    exact hthird ▸ pow_denotes_rpow hlimit hnumber (by exact_mod_cast hb) (by norm_num)
  refine ⟨_, rfl, ?_⟩
  simp only [Build.value_bind, Build.value_number]
  unfold realCubeRoot
  by_cases hneg : a < 0
  · have hmagnitude := hroot (b := a.abs) (by rw [abs_eq_neg hneg]; linarith)
    rw [abs_eq_neg hneg] at hmagnitude
    rw [if_pos hneg, if_pos (by exact_mod_cast hneg), abs_eq_neg hneg]
    simp only [Build.value_bind, Build.value_number]
    refine (mul_denotes (drawsRoots_complex hlimit) ?_).congr ?_
    · intro t ht
      rcases List.mem_pair.1 ht with rfl | rfl
      · exact Reading.complex.hasValue_number _
      · exact hmagnitude.hasValue
    · rw [List.map_cons, List.map_singleton, List.prod_pair, hmagnitude.value_eq]
      simp
  · have habs : a.abs = a := by simp [Rat.abs, not_lt.1 hneg]
    rw [if_neg hneg, if_neg (by exact_mod_cast hneg), habs]
    exact hroot (not_lt.1 hneg)

/-- The cube root of a real number is the real one. -/
theorem cubeRoot_denotes (hlimit : s.limits.maxExponentBits = 4096)
    (ht : Reading.complex.Denotes t x) :
    Reading.complex.Denotes (apply s .cbrt t).value (realCubeRoot x) := by
  obtain ⟨hvalue, heq⟩ := ht
  have hplain : ∀ u ∈ [t], IsPlain u := by
    simpa using Reading.complex.isPlain hvalue
  have happlied : Reading.complex.Denotes (.apply .cbrt t) (realCubeRoot x) := by
    refine ⟨⟨hvalue, ?_⟩, ?_⟩
    · exact (congrArg Complex.im heq).trans (Complex.ofReal_im x)
    · show ((realCubeRoot (Reading.complex.value t).re : ℝ) : ℂ) = _
      rw [heq, Complex.ofReal_re]
  unfold apply
  rw [poison?_eq_none hplain]
  cases t with
  | number a =>
    obtain ⟨root, hroot, hdenotes⟩ := exactCubeRoot_denotes hlimit a
    have hx : x = a := by
      rw [Reading.value_number, ← Complex.ofReal_ratCast, Complex.ofReal_inj] at heq
      exact heq.symm
    rw [hx]
    simpa [exactValue?, hroot] using hdenotes
  | decimal bits => exact absurd hvalue (Reading.complex.not_hasValue_decimal bits)
  | matrix rows columns entries => exact (hplain _ (List.mem_singleton_self _)).elim
  | _ => exact happlied

end Reduction

end EquationSolver
