import EquationSolver.Proofs.Value.Assignment
import EquationSolver.Proofs.Value.Complex

/-!
# Principal values

A text like `2*e^(0.5*i)` denotes a complex number, although its exponent is no rational one.  The
principal value of a term takes every power to be the principal power; zero has powers with
exponents of positive real part only.  On numbers and the imaginary unit under sums, products and
powers with integer exponents it is the value that the complex numbers give as a field.
-/

namespace EquationSolver

namespace Term

/-! ### Principal values of terms -/

namespace Principal

mutual

noncomputable def value : Term → ℂ
  | .number a => a
  | .constant c => ComplexValue.constant c
  | .sum terms => sumOfValues terms
  | .product factors => productOfValues factors
  | .power base exponent => value base ^ value exponent
  | .negation a => -value a
  | .quotient a b => value a / value b
  | _ => 0

noncomputable def sumOfValues : List Term → ℂ
  | [] => 0
  | t :: ts => value t + sumOfValues ts

noncomputable def productOfValues : List Term → ℂ
  | [] => 1
  | t :: ts => value t * productOfValues ts

end

mutual

/-- The term is built from exact numbers and constants, and each step of its evaluation is
    defined. -/
def HasValue : Term → Prop
  | .number _ | .constant _ => True
  | .sum terms => HaveValues terms
  | .product factors => HaveValues factors
  | .power base exponent =>
    HasValue base ∧ HasValue exponent ∧ (value base = 0 → 0 < (value exponent).re)
  | .negation a => HasValue a
  | .quotient a b => HasValue a ∧ HasValue b ∧ value b ≠ 0
  | _ => False

def HaveValues : List Term → Prop
  | [] => True
  | t :: ts => HasValue t ∧ HaveValues ts

end

/-- The term has a principal value, which is `v`. -/
structure Denotes (t : Term) (v : ℂ) : Prop where
  hasValue : HasValue t
  value_eq : value t = v

theorem Denotes.unique {t : Term} {v w : ℂ} (hv : Denotes t v) (hw : Denotes t w) : v = w :=
  hv.value_eq.symm.trans hw.value_eq

/-! ### Values of each kind of term -/

theorem sumOfValues_eq (terms : List Term) : sumOfValues terms = (terms.map value).sum :=
  eq_sum_map rfl (fun _ _ => rfl) terms

theorem productOfValues_eq (factors : List Term) :
    productOfValues factors = (factors.map value).prod :=
  eq_prod_map rfl (fun _ _ => rfl) factors

theorem haveValues_iff {terms : List Term} : HaveValues terms ↔ ∀ t ∈ terms, HasValue t :=
  iff_forall_mem trivial (fun _ _ => Iff.rfl) terms

theorem denotes_number (a : Rat) : Denotes (.number a) a :=
  ⟨trivial, rfl⟩

theorem denotes_i : Denotes (.constant .i) Complex.I :=
  ⟨trivial, rfl⟩

theorem denotes_e : Denotes (.constant .e) (Real.exp 1) :=
  ⟨trivial, rfl⟩

section Operations

variable {t u : Term} {v w : ℂ}

theorem Denotes.negation (h : Denotes t v) : Denotes (.negation t) (-v) :=
  ⟨h.hasValue, congrArg _ h.value_eq⟩

theorem Denotes.sum (ht : Denotes t v) (hu : Denotes u w) : Denotes (.sum [t, u]) (v + w) := by
  refine ⟨⟨ht.hasValue, hu.hasValue, trivial⟩, ?_⟩
  rw [value, sumOfValues_eq, List.map_cons, List.map_singleton, List.sum_pair, ht.value_eq,
    hu.value_eq]

theorem Denotes.product (ht : Denotes t v) (hu : Denotes u w) :
    Denotes (.product [t, u]) (v * w) := by
  refine ⟨⟨ht.hasValue, hu.hasValue, trivial⟩, ?_⟩
  rw [value, productOfValues_eq, List.map_cons, List.map_singleton, List.prod_pair, ht.value_eq,
    hu.value_eq]

/-- A power of Euler's number, as the exponential function has it. -/
theorem Denotes.exp (h : Denotes t v) : Denotes (.power (.constant .e) t) (Complex.exp v) := by
  have hne : ((Real.exp 1 : ℝ) : ℂ) ≠ 0 := Complex.ofReal_ne_zero.2 (Real.exp_ne_zero 1)
  refine ⟨⟨denotes_e.hasValue, h.hasValue, fun hzero => absurd hzero hne⟩, ?_⟩
  rw [value, denotes_e.value_eq, h.value_eq, Complex.cpow_def_of_ne_zero hne, ← Complex.ofReal_log
    (Real.exp_pos 1).le, Real.log_exp, Complex.ofReal_one, one_mul]

end Operations

end Principal

/-! ### Numbers and the imaginary unit -/

/-- Numbers and the imaginary unit under sums, products and powers with integer exponents. -/
inductive IsGaussian : Term → Prop
  | number (a : Rat) : IsGaussian (.number a)
  | i : IsGaussian (.constant .i)
  | sum {terms : List Term} (h : ∀ t ∈ terms, IsGaussian t) : IsGaussian (.sum terms)
  | product {factors : List Term} (h : ∀ t ∈ factors, IsGaussian t) : IsGaussian (.product factors)
  | power {base : Term} (n : Int) (h : IsGaussian base) : IsGaussian (.power base (.number n))

end Term

/-- The complex numbers, with zero for every symbol. -/
noncomputable def Assignment.complex : Assignment ℂ where
  symbol _ := 0
  pi := Real.pi
  e := Real.exp 1
  i := Complex.I
  i_mul_i := Complex.I_mul_I

namespace Term

namespace IsGaussian

variable {t : Term} {v : ℂ}

theorem principal_value (h : t.IsGaussian) : Principal.value t = t.value .complex := by
  induction h with
  | number | i => rfl
  | sum _ ih =>
    rw [Principal.value, Principal.sumOfValues_eq, value_sum, List.map_congr_left ih]
  | product _ ih =>
    rw [Principal.value, Principal.productOfValues_eq, value_product, List.map_congr_left ih]
  | power n _ ih =>
    rw [Principal.value, ih, value_power, Principal.value, Rat.cast_intCast, Complex.cpow_intCast]

theorem principal_hasValue_iff (h : t.IsGaussian) :
    Principal.HasValue t ↔ t.HasValue .complex := by
  induction h with
  | number | i => exact Iff.rfl
  | sum _ ih =>
    rw [Principal.HasValue, Principal.haveValues_iff, hasValue_sum]
    exact forall₂_congr ih
  | product _ ih =>
    rw [Principal.HasValue, Principal.haveValues_iff, hasValue_product]
    exact forall₂_congr ih
  | power n h ih =>
    rw [Principal.HasValue, hasValue_power, ih, h.principal_value]
    simp [Principal.HasValue, Principal.value]

/-- The principal value is the one that the complex numbers give as a field. -/
theorem principal_denotes_iff (h : t.IsGaussian) :
    Principal.Denotes t v ↔ t.Denotes .complex v :=
  ⟨fun hv => ⟨h.principal_hasValue_iff.1 hv.hasValue, h.principal_value.symm.trans hv.value_eq⟩,
    fun hv => ⟨h.principal_hasValue_iff.2 hv.hasValue, h.principal_value.trans hv.value_eq⟩⟩

end IsGaussian

end Term

end EquationSolver
