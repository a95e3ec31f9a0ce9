import EquationSolver.Proofs.Reduction.Roots
import Mathlib.Analysis.SpecialFunctions.Pow.Real

/-!
# Powers of negative numbers

Terms of numbers, the imaginary unit and powers are read as complex numbers the way they are
evaluated: a power is its principal value, but in the real format a negative number has the real
root for every odd index.

Read so, a power of a negative rational keeps its value where it is left as it is, and where a
root is drawn.  Where a root is to be drawn that fails the size test, it does not: the sign or the
power of the imaginary unit is drawn, but what is left is the power of the negative number again,
so that the sign counts twice.
-/

namespace EquationSolver

open Term

namespace Reduction

/-! ### Readings -/

/-- The real power of the magnitude of a rational. -/
noncomputable def magnitudePower (b e : Rat) : ℝ :=
  |(b : ℝ)| ^ (e : ℝ)

/-- The value of a power of rationals: the real root for negative numbers in the real format, and
    the principal value otherwise.  Zero has positive powers only. -/
noncomputable def powerValue? (format : ComplexFormat) (b e : Rat) : Option ℂ :=
  if b = 0 then
    if 0 < e then some 0 else none
  else if b < 0 ∧ format = .real then
    if e.den % 2 = 1 then some ((-1) ^ e.num * magnitudePower b e : ℂ) else none
  else some ((b : ℂ) ^ (e : ℂ))

noncomputable def factorValue? (format : ComplexFormat) : Term → Option ℂ
  | .number a => some a
  | .constant .i => some Complex.I
  | .power (.number b) (.number e) => powerValue? format b e
  | _ => none

noncomputable def productValue? (format : ComplexFormat) (factors : List Term) : Option ℂ :=
  (factors.mapM (factorValue? format)).map List.prod

/-- The value of a term of numbers, the imaginary unit and powers of numbers. -/
noncomputable def rootValue? (format : ComplexFormat) (t : Term) : Option ℂ :=
  productValue? format (flatFactors t)

variable {format : ComplexFormat} {s : Settings} {b c e : Rat} {factors : List Term} {t : Term}
  {v : ℂ}

theorem productValue?_cons (t : Term) (factors : List Term) :
    productValue? format (t :: factors) =
      Option.map₂ (· * ·) (factorValue? format t) (productValue? format factors) := by
  unfold productValue?
  rw [List.mapM_cons]
  cases factorValue? format t <;> cases factors.mapM (factorValue? format) <;> simp

theorem productValue?_append (first second : List Term) :
    productValue? format (first ++ second) =
      Option.map₂ (· * ·) (productValue? format first) (productValue? format second) := by
  unfold productValue?
  rw [List.mapM_append]
  cases first.mapM (factorValue? format) <;>
    cases second.mapM (factorValue? format) <;> simp

theorem productValue?_numbers (numbers : List Rat) :
    productValue? format (numbers.map Term.number) = some (numbers.prod : ℂ) := by
  induction numbers with
  | nil => simp [productValue?]
  | cons a rest ih =>
    rw [List.map_cons, productValue?_cons, ih, List.prod_cons]
    simp [factorValue?]

/-- The value of a number times factors is the number times the value of the factors. -/
theorem rootValue?_scaled (h : AreFlat factors) (c : Rat) :
    rootValue? format (scaled c factors) = (productValue? format factors).map ((c : ℂ) * ·) := by
  obtain ⟨numbers, hprod, hflat⟩ := h.flatFactors_scaled c
  rw [rootValue?, hflat, productValue?_append, productValue?_numbers, ← hprod]
  cases productValue? format factors <;> simp

theorem powerValue?_of_pos (hb : 0 < b) :
    powerValue? format b e = some (magnitudePower b e : ℂ) := by
  have hb' : (0 : ℝ) < b := by exact_mod_cast hb
  rw [powerValue?, if_neg hb.ne', if_neg fun h => hb.not_gt h.1, magnitudePower, abs_of_pos hb',
    Complex.ofReal_cpow hb'.le, Complex.ofReal_ratCast, Complex.ofReal_ratCast]

/-- In the real format an odd root of a negative number is the real one. -/
theorem powerValue?_of_odd (hb : b < 0) (hodd : e.den % 2 = 1) :
    powerValue? .real b e = some ((-1) ^ e.num * magnitudePower b e : ℂ) := by
  rw [powerValue?, if_neg hb.ne, if_pos ⟨hb, rfl⟩, if_pos hodd]

theorem exp_pi_mul_half (n : Int) :
    Complex.exp (Real.pi * Complex.I * ((n : ℂ) / 2)) = Complex.I ^ n := by
  rw [show (Real.pi * Complex.I * ((n : ℂ) / 2)) = n * (Real.pi / 2 * Complex.I) by ring,
    Complex.exp_int_mul, Complex.exp_pi_div_two_mul_I]

/-- The principal value of a half-integral power of a negative number is a power of the imaginary
    unit times the power of the magnitude. -/
theorem powerValue?_of_half (hb : b < 0) (hhalf : e.den = 2) (hformat : format ≠ .real) :
    powerValue? format b e = some (Complex.I ^ e.num * magnitudePower b e : ℂ) := by
  have hb' : (b : ℝ) ≤ 0 := by exact_mod_cast hb.le
  have he : (e : ℂ) = (e.num : ℂ) / 2 := by
    rw [Rat.cast_def, hhalf]
    norm_num
  have hturn : Complex.exp (Real.pi * Complex.I * (e : ℂ)) = Complex.I ^ e.num := by
    rw [he, exp_pi_mul_half]
  rw [powerValue?, if_neg hb.ne, if_neg fun h => hformat h.2, ← Complex.ofReal_ratCast b,
    Complex.ofReal_cpow_of_nonpos hb', hturn, magnitudePower, abs_of_nonpos hb',
    Complex.ofReal_cpow (by linarith), Complex.ofReal_neg, Complex.ofReal_ratCast e, mul_comm]

/-! ### Drawn roots -/

/-- The real power is the positive number whose power with the denominator of the exponent is the
    power with the numerator. -/
theorem eq_magnitudePower (hb : 0 < b) {x : ℝ} (hx : 0 ≤ x) (h : x ^ e.den = (b : ℝ) ^ e.num) :
    x = magnitudePower b e := by
  have hb' : (0 : ℝ) < b := by exact_mod_cast hb
  have hpower : magnitudePower b e ^ e.den = (b : ℝ) ^ e.num := by
    have hexponent : (e : ℝ) * (e.den : ℝ) = (e.num : ℝ) := by exact_mod_cast Rat.mul_den_eq_num e
    rw [magnitudePower, abs_of_pos hb', ← Real.rpow_natCast, ← Real.rpow_mul hb'.le, hexponent,
      Real.rpow_intCast]
  have hnonneg : 0 ≤ magnitudePower b e := Real.rpow_nonneg (abs_nonneg _) _
  exact (pow_left_inj₀ hx hnonneg e.den_ne_zero).1 (h.trans hpower.symm)

/-- The factors of a root without its number: none, or a power of numbers. -/
inductive IsRootBody : List Term → Prop
  | number : IsRootBody []
  | power (b e : Rat) : IsRootBody [.power (.number b) (.number e)]

theorem IsRootBody.areStandard (h : IsRootBody factors) : AreStandard factors := by
  cases h with
  | number => exact areStandard_nil
  | power b e => exact areStandard_singleton trivial rfl nofun

theorem IsRootBody.leavesAlone (h : IsRootBody factors) : LeavesAlone s factors := by
  intro _ hany
  cases h <;> cases hany

theorem magnitudePower_root_pow (m : Nat) {k : Nat} (hk : k ≠ 0) (g : Nat) :
    magnitudePower m (1 / k) ^ (k * g) = (m : ℝ) ^ g := by
  have hroot : magnitudePower m (1 / k) = (m : ℝ) ^ ((k : ℝ)⁻¹) := by
    rw [magnitudePower, Rat.cast_natCast, abs_of_nonneg (Nat.cast_nonneg m)]
    push_cast
    rw [one_div]
  rw [pow_mul, hroot, Real.rpow_inv_natCast_pow (Nat.cast_nonneg m) hk]

/-- A root in lowest form is the real power. -/
theorem IsLoweredRoot.value_eq {m k : Nat} (hb : 0 < b)
    (h : IsLoweredRoot (b ^ e.num) e.den c m k) :
    (c : ℝ) * magnitudePower m (1 / k) = magnitudePower b e := by
  have hc : (0 : ℝ) < c := by exact_mod_cast h.coefficient_pos
  have hroot : 0 ≤ magnitudePower m (1 / k) := Real.rpow_nonneg (abs_nonneg _) _
  have hk : k ≠ 0 := by
    have := h.two_le_index
    omega
  refine eq_magnitudePower hb (mul_nonneg hc.le hroot) ?_
  have hindex : e.den = k * (e.den / k) := (Nat.mul_div_cancel' h.index_dvd).symm
  calc ((c : ℝ) * magnitudePower m (1 / k)) ^ e.den
      = (c : ℝ) ^ e.den * magnitudePower m (1 / k) ^ (k * (e.den / k)) := by
        rw [mul_pow, ← hindex]
    _ = (c : ℝ) ^ e.den * (m : ℝ) ^ (e.den / k) := by rw [magnitudePower_root_pow m hk]
    _ = (b : ℝ) ^ e.num := by exact_mod_cast h.pow_eq

theorem productValue?_root {m : Nat} (hm : 0 < m) (k : Nat) :
    productValue? format [rootTerm m k] = some (magnitudePower m (1 / k) : ℂ) := by
  have hm' : (0 : Rat) < m := by exact_mod_cast hm
  rw [productValue?_cons, rootTerm, factorValue?, powerValue?_of_pos hm']
  simp [productValue?]

/-- A root in lowest form is a number times the factors of a root, and the real power. -/
theorem IsRootOf.eq_scaled (format : ComplexFormat) (hb : 0 < b)
    (h : IsRootOf (b ^ e.num) e.den t) :
    ∃ c factors, c ≠ 0 ∧ IsRootBody factors ∧ t = scaled c factors ∧
      rootValue? format t = some (magnitudePower b e : ℂ) := by
  cases h with
  | @number c hpos hpow =>
    have hc : (0 : ℝ) < c := by exact_mod_cast hpos
    have hvalue : (c : ℝ) = magnitudePower b e :=
      eq_magnitudePower hb hc.le (by exact_mod_cast hpow)
    refine ⟨c, [], hpos.ne', .number, rfl, ?_⟩
    rw [show Term.number c = scaled c [] from rfl, rootValue?_scaled areFlat_nil, ← hvalue]
    simp [productValue?]
  | @root m k h =>
    have hm := h.two_le_radicand
    have hvalue := h.value_eq hb
    rw [Rat.cast_one, one_mul] at hvalue
    have hbody : IsRootBody [rootTerm m k] := .power _ _
    refine ⟨1, [rootTerm m k], one_ne_zero, hbody, rfl, ?_⟩
    rw [show rootTerm m k = scaled 1 [rootTerm m k] from rfl,
      rootValue?_scaled hbody.areStandard.toAreFlat, productValue?_root (by omega), hvalue]
    simp
  | @multiple c m k hone h =>
    have hm := h.two_le_radicand
    have hvalue := h.value_eq hb
    have hbody : IsRootBody [rootTerm m k] := .power _ _
    have hscaled : Term.product [.number c, rootTerm m k] = scaled c [rootTerm m k] :=
      (if_neg hone).symm
    refine ⟨c, [rootTerm m k], h.coefficient_pos.ne', hbody, hscaled, ?_⟩
    rw [hscaled, rootValue?_scaled hbody.areStandard.toAreFlat, productValue?_root (by omega),
      ← hvalue]
    simp

/-- The term is a number that is not zero times the factors of a root, with this value. -/
def IsScaledRoot (format : ComplexFormat) (v : ℂ) (t : Term) : Prop :=
  ∃ c factors, c ≠ 0 ∧ IsRootBody factors ∧ t = scaled c factors ∧ rootValue? format t = some v

theorem isScaledRoot_power (h : powerValue? format b e = some v) :
    IsScaledRoot format v (.power (.number b) (.number e)) := by
  refine ⟨1, _, one_ne_zero, .power b e, rfl, ?_⟩
  refine (rootValue?_scaled (IsRootBody.power b e).areStandard.toAreFlat 1).trans ?_
  rw [productValue?_cons, factorValue?, h]
  simp [productValue?]

/-! ### Drawing the sign -/

theorem mulWithin_minusOne (h : IsScaledRoot format v t) (depth : Nat) :
    rootValue? format (mulWithin s (depth + 1) [.number (-1), t]).value = some (-v) := by
  obtain ⟨c, factors, hc, hbody, rfl, hvalue⟩ := h
  have hstandard := hbody.areStandard
  rw [(hstandard.mul_number hbody.leavesAlone (mul_ne_zero (by decide) hc) depth).1]
  rw [rootValue?_scaled hstandard.toAreFlat] at hvalue ⊢
  obtain ⟨w, hw, rfl⟩ := Option.map_eq_some_iff.1 hvalue
  rw [hw]
  simp

/-- A product with something that has no value has no value. -/
theorem mulWithin_undefined (hflat : AreFlat factors) (a : Rat) (depth : Nat) :
    (mulWithin s (depth + 1) [scaled a factors, .undefined]).value = .undefined := by
  have hundefined : AreFlat [.undefined] := ⟨by simp [Term.isNumeric], by simp⟩
  have habsorb : absorb .one [scaled a factors, .undefined] = _ := hflat.absorb_pair hundefined a 1
  have hpoison : poison? (factors ++ [.undefined]) = some .undefined :=
    if_pos (by simp)
  rw [mulWithin, mulWith, habsorb]
  simp only [hpoison, Build.value_make]

theorem sortBy_imaginary (h : IsRootBody factors) :
    sortBy Term.compare (.constant .i :: factors) = factors ++ [.constant .i] := by
  cases h with
  | number => rfl
  | power b e =>
    simp [sortBy, insertAll, insertDescending, Term.compare, maxInsertionLength]

theorem areFlat_imaginary : AreFlat [.constant .i] :=
  ⟨by simp [Term.isNumeric], by simp⟩

theorem mulWithin_imaginary {a : Rat} (ha : a ≠ 0) (h : IsScaledRoot format v t) (depth : Nat) :
    rootValue? format (mulWithin s (depth + 1) [scaled a [.constant .i], t]).value =
      some (a * Complex.I * v) := by
  obtain ⟨c, factors, hc, hbody, rfl, hvalue⟩ := h
  have hstandard := hbody.areStandard
  have hflat : AreFlat (.constant .i :: factors) :=
    { not_numeric := List.forall_mem_cons.2 ⟨rfl, hstandard.not_numeric⟩
      not_product := List.forall_mem_cons.2 ⟨nofun, hstandard.not_product⟩ }
  have hflat' : AreFlat (factors ++ [.constant .i]) :=
    { not_numeric := List.forall_mem_append.2 ⟨hstandard.not_numeric, areFlat_imaginary.not_numeric⟩
      not_product := List.forall_mem_append.2
        ⟨hstandard.not_product, areFlat_imaginary.not_product⟩ }
  have hplain : ∀ t ∈ Term.constant .i :: factors, IsPlain t :=
    List.forall_mem_cons.2 ⟨trivial, hstandard.plain⟩
  have hbases : (Term.constant .i :: factors).Pairwise
      fun t u => (asPower t).1 ≠ (asPower u).1 := by
    cases hbody <;> simp [asPower]
  have hleaves : LeavesAlone s (.constant .i :: factors) := by
    intro _ hany
    cases hbody <;> cases hany
  have hzero : (Coefficient.exact (a * c)).isZero = false := decide_eq_false (mul_ne_zero ha hc)
  have habsorb : absorb .one [scaled a [.constant .i], scaled c factors] =
      (.exact (a * c), .constant .i :: factors) :=
    areFlat_imaginary.absorb_pair hstandard.toAreFlat a c
  rw [mulWithin, hflat.mulWith_eq hplain hbases hleaves hzero _ _ habsorb, scaledBy_exact,
    sortBy_imaginary hbody, rootValue?_scaled hflat', productValue?_append]
  rw [rootValue?_scaled hstandard.toAreFlat] at hvalue
  obtain ⟨w, hw, rfl⟩ := Option.map_eq_some_iff.1 hvalue
  rw [hw, productValue?_cons, factorValue?]
  simp [productValue?]
  ring

theorem imaginaryPower_of_odd {p : Int} (hodd : p % 2 = 1) (depth : Nat) :
    ∃ a : Rat, a ≠ 0 ∧ (a : ℂ) * Complex.I = Complex.I ^ p ∧
      (imaginaryPower (mulWithin s (depth + 1)) p).value = scaled a [.constant .i] := by
  have hpower : Complex.I ^ p = Complex.I ^ (p % 4) := imaginary_zpow Complex.I_mul_I p
  obtain hone | hthree : p % 4 = 1 ∨ p % 4 = 3 := by omega
  · refine ⟨1, one_ne_zero, by rw [hpower, hone]; simp, ?_⟩
    rw [imaginaryPower, if_neg (by omega), if_pos hone]
    rfl
  · refine ⟨-1, by decide, ?_, ?_⟩
    · rw [hpower, hthree, show (3 : Int) = ((3 : Nat) : Int) from rfl, zpow_natCast,
        Complex.I_pow_three]
      simp
    · have hstandard : AreStandard [.constant .i] := areStandard_singleton trivial rfl nofun
      have hleaves : LeavesAlone s [.constant .i] := nofun
      have hminus : (-1 : Rat) * 1 ≠ 0 := by norm_num
      have hproduct := (hstandard.mul_number hleaves hminus depth).1
      rw [imaginaryPower, if_neg (by omega), if_neg (by omega), if_neg (by omega)]
      rw [mul_one] at hproduct
      exact hproduct

/-- A power of the imaginary unit with an odd exponent is the unit or its opposite. -/
theorem powWithin_imaginary {p : Int} (hodd : p % 2 = 1) (depth : Nat) :
    ∃ a : Rat, a ≠ 0 ∧ (a : ℂ) * Complex.I = Complex.I ^ p ∧
      (powWithin s (depth + 2) (.constant .i) (.number p)).value = scaled a [.constant .i] := by
  have hplain : ∀ t ∈ [Term.constant .i, .number (p : Rat)], IsPlain t := by
    intro t ht
    rcases List.mem_pair.1 ht with rfl | rfl <;> trivial
  have hzero : (Term.number (p : Rat)).isZero = false :=
    decide_eq_false (Int.cast_ne_zero.2 (by omega))
  have himaginary : (Term.constant .i).isOne = false := rfl
  rw [powWithin]
  unfold powWith
  simp only [poison?_eq_none hplain, hasMatrix_eq_false hplain, hzero, himaginary,
    Bool.false_eq_true, if_false, Bool.or_false]
  split
  case isTrue hone =>
    obtain rfl : p = 1 := by exact_mod_cast of_decide_eq_true hone
    exact ⟨1, one_ne_zero, by simp, rfl⟩
  case isFalse =>
    obtain ⟨a, ha, hvalue, hpower⟩ := imaginaryPower_of_odd (s := s) hodd depth
    refine ⟨a, ha, hvalue, ?_⟩
    rw [← hpower]
    simp only [Term.isNumeric, exactPower, Rational.toInt?_intCast, Bool.false_eq_true, if_false]

/-! ### Powers of negative rationals -/

/-- The root over the denominator of the exponent is to be drawn: neither part of the exponent is
    too large. -/
def IsDrawable (s : Settings) (e : Rat) : Prop :=
  Integer.toInt64Range? e.num ≠ none ∧
    ¬ (s.limits.maxRootIndex < e.den ∨ Integer.halfWordCount ≤ e.den)

instance : Decidable (IsDrawable s e) :=
  inferInstanceAs (Decidable (_ ∧ _))

/-- What a power of a negative rational is read as, where `u` is drawn for the sign: `u` times the
    power of the magnitude, with two exceptions.  A root that fails the size test is left as a
    power of the negative number, which still has the sign, so that `u` counts twice.  A root that
    passes it under a large limit, but whose whole power cannot be computed, has no value. -/
noncomputable def negativeValue? (s : Settings) (b e : Rat) (u : ℂ) : Option ℂ :=
  if ¬ IsDrawable s e then some (u * magnitudePower b e)
  else if s.fits b.abs ((e.num / (e.den : Int)).natAbs + e.den) = false then
    some (u * (u * magnitudePower b e))
  else if Integer.halfWordCount ≤ (e.num / (e.den : Int)).natAbs then none
  else some (u * magnitudePower b e)

theorem abs_eq_neg (hb : b < 0) : b.abs = -b := by
  simp [Rat.abs, hb.not_ge]

theorem magnitudePower_abs (hb : b < 0) : magnitudePower b.abs e = magnitudePower b e := by
  rw [abs_eq_neg hb, magnitudePower, magnitudePower, Rat.cast_neg, abs_neg]

/-- A root whose whole power cannot be computed is not drawn. -/
theorem radical_of_whole {p : Int} {q : Nat} (hfits : s.fits b ((p / (q : Int)).natAbs + q) = true)
    (hwhole : Integer.halfWordCount ≤ (p / (q : Int)).natAbs) (unreduced : Build Term) :
    (radical s b p q unreduced).value = .undefined := by
  have hpower : Rational.integerPower? b (p / (q : Int)) = none := if_pos hwhole
  unfold radical
  simp only [hfits, hpower, Bool.not_true, Bool.false_eq_true, if_false, Build.value_make]

/-- The root of the magnitude, and then the sign drawn: what `turn` does with a term that has a
    value is to multiply it by `u`. -/
theorem rootValue?_turned {u : ℂ} (turn : Term → Build Term) (hb : b < 0) (hden : 2 ≤ e.den)
    (hdraws : IsDrawable s e) (hvalue : powerValue? format b e = some (u * magnitudePower b e))
    (hturn : ∀ v t, IsScaledRoot format v t → rootValue? format (turn t).value = some (u * v))
    (hundefined : (turn .undefined).value = .undefined) :
    rootValue? format (turn (radical s b.abs e.num e.den
      (Build.make (.power (.number b) (.number e)))).value).value = negativeValue? s b e u := by
  have hpos : 0 < b.abs := by
    rw [abs_eq_neg hb]
    exact neg_pos.2 hb
  rw [negativeValue?, if_neg (not_not.2 hdraws)]
  split_ifs with hfits hwhole
  · rw [radical_of_large hfits]
    exact hturn _ _ (isScaledRoot_power hvalue)
  · rw [radical_of_whole (by simpa using hfits) hwhole, hundefined]
    rfl
  · have hroot := radical_isRootOf hpos hden (by simpa using hfits) (not_le.1 hwhole)
      (Build.make (.power (.number b) (.number e)))
    obtain ⟨c, factors, hc, hbody, hscaled, hroot⟩ := hroot.eq_scaled format hpos
    rw [magnitudePower_abs hb] at hroot
    exact hturn _ _ ⟨c, factors, hc, hbody, hscaled, hroot⟩

theorem negativePower_real {p : Int} {q : Nat} (hformat : s.complexFormat = .real)
    (hodd : q % 2 = 1) (pow : Term → Term → Build Term) (mul : List Term → Build Term)
    (unreduced : Build Term) :
    (negativePower s pow mul b p q unreduced).value =
      (if p % 2 = 0 then pure (radical s b.abs p q unreduced).value
        else mul [.number (-1), (radical s b.abs p q unreduced).value]).value := by
  rw [negativePower, if_pos hodd, if_pos hformat]
  split_ifs with heven <;> simp

theorem negativePower_complex {p : Int} {q : Nat} (hformat : s.complexFormat ≠ .real)
    (hq : q = 2) (pow : Term → Term → Build Term) (mul : List Term → Build Term)
    (unreduced : Build Term) :
    (negativePower s pow mul b p q unreduced).value =
      (mul [(pow (.constant .i) (.number p)).value,
        (radical s b.abs p q unreduced).value]).value := by
  rw [negativePower, if_neg (by omega), if_neg hformat, if_pos hq]
  simp

theorem pow_of_neg (hb : b < 0) (hden : e.den ≠ 1) :
    pow s (.number b) (.number e) =
      if IsDrawable s e then
        negativePower s (powWithin s 999999) (mulWithin s 999999) b e.num e.den
          (Build.make (.power (.number b) (.number e)))
      else Build.make (.power (.number b) (.number e)) := by
  have hone : b ≠ 1 := by
    rintro rfl
    exact absurd hb (by decide)
  rw [pow_number_of_fraction hone hden, rationalPower]
  simp only [if_neg hb.ne, toInt64Range?_of_fraction hden, if_pos hb]
  cases hnum : Integer.toInt64Range? e.num with
  | none => exact (if_neg fun h => h.1 hnum).symm
  | some p =>
    obtain rfl : e.num = p := by
      unfold Integer.toInt64Range? at hnum
      split_ifs at hnum
      exact Option.some.inj hnum
    have hdrawable : IsDrawable s e ↔
        ¬ (s.limits.maxRootIndex < e.den ∨ Integer.halfWordCount ≤ e.den) :=
      and_iff_right (by rw [hnum]; exact Option.some_ne_none _)
    simp only [hdrawable, ite_not]

/-- A power that is left as it is has the value that it should have. -/
theorem rootValue?_left {u : ℂ} (hvalue : powerValue? format b e = some (u * magnitudePower b e))
    (hdrawable : ¬ IsDrawable s e) :
    rootValue? format (.power (.number b) (.number e)) = negativeValue? s b e u := by
  obtain ⟨c, factors, -, -, -, hroot⟩ := isScaledRoot_power hvalue
  rw [hroot, negativeValue?, if_pos hdrawable]

/-- A power of a negative rational with an odd denominator in the real format is read with `-1` for
    its sign, and one with denominator two in a complex format with the imaginary unit. -/
theorem negative_pow_value (s : Settings) {b e : Rat} (hb : b < 0) :
    (s.complexFormat = .real → e.den ≠ 1 → e.den % 2 = 1 →
      rootValue? .real (pow s (.number b) (.number e)).value =
        negativeValue? s b e ((-1) ^ e.num)) ∧
      (s.complexFormat ≠ .real → e.den = 2 →
        rootValue? s.complexFormat (pow s (.number b) (.number e)).value =
          negativeValue? s b e (Complex.I ^ e.num)) := by
  have hdepth : 999999 = 999997 + 2 := rfl
  constructor
  · intro hformat hden hodd
    have hvalue := powerValue?_of_odd hb hodd
    rw [pow_of_neg hb hden]
    split_ifs with hdrawable
    · rw [negativePower_real hformat hodd, hdepth]
      refine rootValue?_turned (fun t => if e.num % 2 = 0 then pure t
        else mulWithin s (999997 + 2) [.number (-1), t]) hb (by omega) hdrawable hvalue ?_ ?_
      · intro v t ht
        split_ifs with heven
        · obtain ⟨c, factors, -, -, -, hroot⟩ := ht
          rw [Build.value_pure, hroot, Even.neg_one_zpow (Int.even_iff.2 heven), one_mul]
        · rw [mulWithin_minusOne ht, Odd.neg_one_zpow (Int.odd_iff.2 (by omega)), neg_one_mul]
      · split_ifs
        · rfl
        · exact mulWithin_undefined areFlat_nil _ _
    · exact rootValue?_left hvalue hdrawable
  · intro hformat hden
    have hvalue := powerValue?_of_half hb hden hformat
    have hodd : e.num % 2 = 1 := by
      have hcoprime := e.reduced
      rw [hden] at hcoprime
      have := Nat.coprime_two_right.1 hcoprime
      have hmod := Nat.odd_iff.1 this
      omega
    rw [pow_of_neg hb (by omega)]
    split_ifs with hdrawable
    · obtain ⟨a, ha, hunit, hpower⟩ := powWithin_imaginary (s := s) hodd 999997
      rw [negativePower_complex hformat hden, hdepth, hpower]
      refine rootValue?_turned (fun t => mulWithin s (999997 + 2) [scaled a [.constant .i], t]) hb
        (by omega) hdrawable hvalue ?_ ?_
      · intro v t ht
        rw [mulWithin_imaginary ha ht, hunit]
      · exact mulWithin_undefined areFlat_imaginary _ _
    · exact rootValue?_left hvalue hdrawable

/-- A root that is too large loses its sign. -/
theorem negative_pow_value_minusTwo :
    rootValue? .real (pow {} (.number (-2)) (.number (20003 / 3))).value =
      some (magnitudePower (-2) (20003 / 3) : ℂ) := by
  have hnum : (20003 / 3 : Rat).num = 20003 := by decide +kernel
  have hden : (20003 / 3 : Rat).den = 3 := by decide +kernel
  have hdrawable : IsDrawable {} (20003 / 3) := by decide +kernel
  have hfits : Settings.fits {} (Rat.abs (-2))
      (((20003 / 3 : Rat).num / ((20003 / 3 : Rat).den : Int)).natAbs + (20003 / 3 : Rat).den) =
        false := by
    decide +kernel
  rw [(negative_pow_value {} (by decide)).1 rfl (by rw [hden]; decide) (by rw [hden]),
    negativeValue?, if_neg (not_not.2 hdrawable), if_pos hfits, hnum]
  norm_num

end Reduction

end EquationSolver
