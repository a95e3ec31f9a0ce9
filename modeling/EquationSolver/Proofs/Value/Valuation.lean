import EquationSolver.Proofs.Reduction.Operands
import EquationSolver.Proofs.Value.Basic
import Mathlib.Algebra.Field.Basic
import Mathlib.Data.Rat.Cast.CharZero

/-!
# Valuations and readings

A valuation reads terms as elements of a field: it says what symbols and constants stand for,
and which powers with rational exponents are defined and what they are.  Two valuations matter:
integer powers in any field, and roots of real numbers.

`value` is total; `HasValue` says where it may be read.  Where there are roots, a product with
the number zero among its factors has no value.  No product in standard form has one, and a root
of such a product could not be split into the roots of its factors: the others may be negative.

What sums, products and powers in standard form keep does not depend on how the terms inside them
get their values.  A reading says which terms have values in a field and what they are; of the
values it only asks that numbers, sums, products and powers are read as the field has them.  A
valuation is a reading in which functions have no values.
-/

namespace EquationSolver

/-- What powers with rational exponents are in a field, and where they are defined. -/
structure PowerRule (K : Type*) [Field K] where
  IsDefined : K → Rat → Prop
  power : K → Rat → K
  /-- Powers with exponents that are no integers may be defined. -/
  hasRoots : Prop
  hasRoots_of_isDefined {v : K} {q : Rat} : IsDefined v q → q.den ≠ 1 → hasRoots
  isDefined_intCast {v : K} {n : Int} : IsDefined v n ↔ (v = 0 → 0 < n)
  power_intCast (v : K) (n : Int) : power v n = v ^ n
  pos_of_isDefined_zero {q : Rat} : IsDefined 0 q → 0 < q
  power_zero {q : Rat} : IsDefined 0 q → power 0 q = 0
  power_one {q : Rat} : IsDefined 1 q → power 1 q = 1
  /-- Powers of one base are multiplied by adding their exponents. -/
  isDefined_add {v : K} {q r : Rat} : IsDefined v q → IsDefined v r → IsDefined v (q + r)
  power_add {v : K} {q r : Rat} : IsDefined v q → IsDefined v r →
    power v (q + r) = power v q * power v r
  /-- An integer power of a power multiplies the exponents. -/
  isDefined_mul {v : K} {q : Rat} {n : Int} : IsDefined v q → IsDefined (power v q) n →
    IsDefined v (q * n)
  power_mul {v : K} {q : Rat} {n : Int} : IsDefined v q → IsDefined (power v q) n →
    power v (q * n) = power v q ^ n
  /-- A root of a number is one of a number that is not negative. -/
  nonneg {a q : Rat} : IsDefined (a : K) q → q.den ≠ 1 → 0 ≤ a
  /-- A positive number is drawn out of a root. -/
  isDefined_split {a q : Rat} {v : K} : 0 < a → q.den ≠ 1 → IsDefined (a * v) q →
    IsDefined (a : K) q ∧ IsDefined v q
  power_split {a q : Rat} {v : K} : 0 < a → q.den ≠ 1 → IsDefined (a * v) q →
    power (a * v) q = power a q * power v q

/-- What terms stand for in a field. -/
structure Valuation (K : Type*) [Field K] extends PowerRule K where
  symbol : String → K
  constant : Constant → K
  HasConstant : Constant → Prop
  i_mul_i : HasConstant .i → constant .i * constant .i = -1

namespace Valuation

variable {K : Type*} [Field K] (V : Valuation K)

mutual

/-- The value of a term. -/
def value : Term → K
  | .number a => (a : K)
  | .constant c => V.constant c
  | .symbol name => V.symbol name
  | .sum terms => sumOfValues terms
  | .product factors => productOfValues factors
  | .power base (.number q) => V.power (value base) q
  | .negation a => -value a
  | .quotient a b => value a / value b
  | _ => 0

def sumOfValues : List Term → K
  | [] => 0
  | t :: ts => value t + sumOfValues ts

/-- The product of the values of a list. -/
def productOfValues : List Term → K
  | [] => 1
  | t :: ts => value t * productOfValues ts

end

mutual

/-- The term is built from numbers, symbols and constants, and each step of its evaluation is
    defined. -/
def HasValue : Term → Prop
  | .number _ | .symbol _ => True
  | .constant c => V.HasConstant c
  | .sum terms => HaveValues terms
  | .product factors => HaveValues factors ∧ (V.hasRoots → .number 0 ∉ factors)
  | .power base (.number q) => HasValue base ∧ V.IsDefined (V.value base) q
  | .negation a => HasValue a
  | .quotient a b => HasValue a ∧ HasValue b ∧ V.value b ≠ 0
  | _ => False

def HaveValues : List Term → Prop
  | [] => True
  | t :: ts => HasValue t ∧ HaveValues ts

end

/-- The term has a value, which is `v`. -/
structure Denotes (t : Term) (v : K) : Prop where
  hasValue : V.HasValue t
  value_eq : V.value t = v

variable {V}

/-! ### Values of lists -/

theorem sumOfValues_eq (terms : List Term) : V.sumOfValues terms = (terms.map V.value).sum :=
  eq_sum_map rfl (fun _ _ => rfl) terms

theorem productOfValues_eq (factors : List Term) :
    V.productOfValues factors = (factors.map V.value).prod :=
  eq_prod_map rfl (fun _ _ => rfl) factors

theorem haveValues_iff {terms : List Term} :
    V.HaveValues terms ↔ ∀ t ∈ terms, V.HasValue t :=
  iff_forall_mem trivial (fun _ _ => Iff.rfl) terms

/-! ### Values of each kind of term -/

@[simp] theorem value_number (a : Rat) : V.value (.number a) = (a : K) :=
  rfl

@[simp] theorem hasValue_number (a : Rat) : V.HasValue (.number a) :=
  trivial

@[simp] theorem value_sum (terms : List Term) :
    V.value (.sum terms) = (terms.map V.value).sum :=
  sumOfValues_eq terms

@[simp] theorem hasValue_sum {terms : List Term} :
    V.HasValue (.sum terms) ↔ ∀ t ∈ terms, V.HasValue t :=
  haveValues_iff

@[simp] theorem value_product (factors : List Term) :
    V.value (.product factors) = (factors.map V.value).prod :=
  productOfValues_eq factors

@[simp] theorem hasValue_product {factors : List Term} :
    V.HasValue (.product factors) ↔
      (∀ t ∈ factors, V.HasValue t) ∧ (V.hasRoots → .number 0 ∉ factors) :=
  and_congr_left' haveValues_iff

@[simp] theorem value_power (base : Term) (q : Rat) :
    V.value (.power base (.number q)) = V.power (V.value base) q :=
  rfl

@[simp] theorem hasValue_power {base : Term} {q : Rat} :
    V.HasValue (.power base (.number q)) ↔
      V.HasValue base ∧ V.IsDefined (V.value base) q :=
  Iff.rfl

/-- The exponent of a power with a value is a number. -/
theorem HasValue.exponent_eq {base exponent : Term} (h : V.HasValue (.power base exponent)) :
    ∃ q : Rat, exponent = .number q ∧ V.HasValue base ∧ V.IsDefined (V.value base) q := by
  cases exponent with
  | number q => exact ⟨q, rfl, hasValue_power.1 h⟩
  | _ => simp [HasValue] at h

theorem isPlain_of_hasValue {t : Term} (h : V.HasValue t) : Reduction.IsPlain t := by
  cases t <;> simp_all [HasValue, Reduction.IsPlain]

namespace Denotes

theorem number (a : Rat) : V.Denotes (.number a) (a : K) :=
  ⟨hasValue_number a, value_number a⟩

theorem of_hasValue {t : Term} (h : V.HasValue t) : V.Denotes t (V.value t) :=
  ⟨h, rfl⟩

theorem congr {t : Term} {v w : K} (h : V.Denotes t v) (hvw : v = w) : V.Denotes t w :=
  hvw ▸ h

/-- The opposite of a term, as products are reduced. -/
theorem opposite {t : Term} {v : K} (h : V.Denotes t v) (hne : t ≠ .number 0) :
    V.Denotes (.product [.number (-1), t]) (-v) := by
  constructor
  · simp [h.hasValue, hne.symm]
  · simp [h.value_eq]

end Denotes

end Valuation

/-! ### Readings -/

/-- Terms read as elements of a field.  As for valuations, a product with the number zero among its
    factors has no value where there are roots. -/
structure Reading (K : Type*) [Field K] extends PowerRule K where
  value : Term → K
  HasValue : Term → Prop
  value_number (a : Rat) : value (.number a) = a
  hasValue_number (a : Rat) : HasValue (.number a)
  value_sum (terms : List Term) : value (.sum terms) = (terms.map value).sum
  hasValue_sum {terms : List Term} : HasValue (.sum terms) ↔ ∀ t ∈ terms, HasValue t
  value_product (factors : List Term) : value (.product factors) = (factors.map value).prod
  hasValue_product {factors : List Term} : HasValue (.product factors) ↔
    (∀ t ∈ factors, HasValue t) ∧ (hasRoots → .number 0 ∉ factors)
  value_power (base : Term) (q : Rat) : value (.power base (.number q)) = power (value base) q
  hasValue_power {base : Term} {q : Rat} : HasValue (.power base (.number q)) ↔
    HasValue base ∧ IsDefined (value base) q
  exists_exponent {base exponent : Term} : HasValue (.power base exponent) →
    ∃ q : Rat, exponent = .number q
  i_mul_i : HasValue (.constant .i) → value (.constant .i) * value (.constant .i) = -1
  not_hasValue_decimal (bits : UInt64) : ¬ HasValue (.decimal bits)
  isPlain {t : Term} : HasValue t → Reduction.IsPlain t

namespace Reading

attribute [simp] value_number hasValue_number value_sum hasValue_sum value_product hasValue_product
  value_power hasValue_power

variable {K : Type*} [Field K] {R : Reading K}

/-- The term has a value, which is `v`. -/
structure Denotes (R : Reading K) (t : Term) (v : K) : Prop where
  hasValue : R.HasValue t
  value_eq : R.value t = v

/-! ### Powers -/

/-- The exponent of a power with a value is a number. -/
theorem HasValue.exponent_eq {base exponent : Term} (h : R.HasValue (.power base exponent)) :
    ∃ q : Rat, exponent = .number q ∧ R.HasValue base ∧ R.IsDefined (R.value base) q := by
  obtain ⟨q, rfl⟩ := R.exists_exponent h
  exact ⟨q, rfl, R.hasValue_power.1 h⟩

theorem isDefined_one (v : K) : R.IsDefined v 1 := by
  have h : R.IsDefined v ((1 : Int) : Rat) := R.isDefined_intCast.2 fun _ => Int.one_pos
  rwa [Int.cast_one] at h

theorem power_exponent_one (v : K) : R.power v 1 = v := by
  have h := R.power_intCast v 1
  rwa [Int.cast_one, zpow_one] at h

theorem power_exponent_zero {v : K} (h : R.IsDefined v 0) : v ≠ 0 ∧ R.power v 0 = 1 := by
  have hzero := R.power_intCast v 0
  rw [Int.cast_zero, zpow_zero] at hzero
  refine ⟨?_, hzero⟩
  rintro rfl
  exact absurd (R.pos_of_isDefined_zero h) (lt_irrefl 0)

@[simp] theorem value_power_one (base : Term) : R.value (.power base .one) = R.value base := by
  rw [Term.one, value_power, power_exponent_one]

@[simp] theorem hasValue_power_one {base : Term} :
    R.HasValue (.power base .one) ↔ R.HasValue base := by
  rw [Term.one, hasValue_power]
  exact and_iff_left (isDefined_one _)

/-! ### Terms with values -/

namespace Denotes

theorem number (a : Rat) : R.Denotes (.number a) (a : K) :=
  ⟨R.hasValue_number a, R.value_number a⟩

theorem of_hasValue {t : Term} (h : R.HasValue t) : R.Denotes t (R.value t) :=
  ⟨h, rfl⟩

theorem congr {t : Term} {v w : K} (h : R.Denotes t v) (hvw : v = w) : R.Denotes t w :=
  hvw ▸ h

/-- A term has one value only. -/
theorem unique {t : Term} {v w : K} (h : R.Denotes t v) (h' : R.Denotes t w) : v = w :=
  h.value_eq.symm.trans h'.value_eq

/-- Terms with different values are different. -/
theorem ne {t u : Term} {v w : K} (h : R.Denotes t v) (h' : R.Denotes u w) (hvw : v ≠ w) :
    t ≠ u := by
  rintro rfl
  exact hvw (h.unique h')

theorem sumOf {terms : List Term} (h : ∀ t ∈ terms, R.HasValue t) :
    R.Denotes (Term.sumOf terms) (terms.map R.value).sum := by
  match terms, h with
  | [], _ => exact ⟨by simp [Term.sumOf, Term.zero], by simp [Term.sumOf, Term.zero]⟩
  | [t], h => exact ⟨by simpa [Term.sumOf] using h, by simp [Term.sumOf]⟩
  | t :: u :: rest, h =>
    exact ⟨by simpa only [Term.sumOf, hasValue_sum] using h, by simp [Term.sumOf]⟩

theorem productOf {factors : List Term} (h : ∀ t ∈ factors, R.HasValue t)
    (hzero : R.hasRoots → .number 0 ∉ factors) :
    R.Denotes (Term.productOf factors) (factors.map R.value).prod := by
  match factors, h with
  | [], _ => exact ⟨by simp [Term.productOf, Term.one], by simp [Term.productOf, Term.one]⟩
  | [t], h => exact ⟨by simpa [Term.productOf] using h, by simp [Term.productOf]⟩
  | t :: u :: rest, h =>
    refine ⟨?_, by simp [Term.productOf]⟩
    show R.HasValue (.product (t :: u :: rest))
    exact R.hasValue_product.2 ⟨h, hzero⟩

end Denotes

end Reading

/-! ### Valuations -/

namespace Valuation

variable {K : Type*} [Field K] {V : Valuation K} {t : Term} {v : K}

/-- What a valuation makes of terms. -/
def reading (V : Valuation K) : Reading K where
  toPowerRule := V.toPowerRule
  value := V.value
  HasValue := V.HasValue
  value_number := value_number
  hasValue_number := hasValue_number
  value_sum := value_sum
  hasValue_sum := hasValue_sum
  value_product := value_product
  hasValue_product := hasValue_product
  value_power := value_power
  hasValue_power := hasValue_power
  exists_exponent h := (h.exponent_eq).imp fun _ h => h.1
  i_mul_i h := by
    rw [value]
    exact V.i_mul_i (by simpa [HasValue] using h)
  not_hasValue_decimal bits := by simp [HasValue]
  isPlain := isPlain_of_hasValue

theorem Denotes.reading (h : V.Denotes t v) : V.reading.Denotes t v :=
  ⟨h.hasValue, h.value_eq⟩

theorem Denotes.of_reading (h : V.reading.Denotes t v) : V.Denotes t v :=
  ⟨h.hasValue, h.value_eq⟩

theorem Denotes.sumOf {terms : List Term} (h : ∀ t ∈ terms, V.HasValue t) :
    V.Denotes (Term.sumOf terms) (terms.map V.value).sum :=
  .of_reading (.sumOf h)

end Valuation

end EquationSolver
