import EquationSolver.Reduction.Sum
import Mathlib.Algebra.BigOperators.Group.List.Basic
import Mathlib.Algebra.Field.Basic
import Mathlib.Data.Rat.Cast.CharZero

/-!
# Exact values of terms

The rational part of the language, numbers, symbols and constants under sums, products,
negations, quotients and powers with integer exponents, has values in any field with a
square root of minus one.  `value` is total and follows the conventions of the field where
nothing is defined; `HasValue` says where it may be read: no division by zero, and no power
of zero with an exponent that is zero or negative.
-/

namespace EquationSolver

/-! ### Functions that go through a list -/

section Lists

variable {α M : Type*}

theorem eq_sum_map [AddMonoid M] {f : α → M} {g : List α → M} (hnil : g [] = 0)
    (hcons : ∀ a as, g (a :: as) = f a + g as) (as : List α) : g as = (as.map f).sum := by
  induction as with
  | nil => exact hnil
  | cons a as ih => rw [hcons, ih, List.map_cons, List.sum_cons]

theorem eq_prod_map [Monoid M] {f : α → M} {g : List α → M} (hnil : g [] = 1)
    (hcons : ∀ a as, g (a :: as) = f a * g as) (as : List α) : g as = (as.map f).prod := by
  induction as with
  | nil => exact hnil
  | cons a as ih => rw [hcons, ih, List.map_cons, List.prod_cons]

theorem iff_forall_mem {p : α → Prop} {q : List α → Prop} (hnil : q [])
    (hcons : ∀ a as, q (a :: as) ↔ p a ∧ q as) (as : List α) : q as ↔ ∀ a ∈ as, p a := by
  induction as with
  | nil => simp [hnil]
  | cons a as ih => rw [hcons, ih, List.forall_mem_cons]

end Lists

/-! ### Values of terms -/

/-- What the symbols and the constants stand for in a ring. -/
structure Assignment (K : Type*) [Ring K] where
  symbol : String → K
  pi : K
  e : K
  i : K
  i_mul_i : i * i = -1

/-- The element that a constant stands for. -/
def Assignment.constant {K : Type*} [Ring K] (ρ : Assignment K) : Constant → K
  | .pi => ρ.pi
  | .e => ρ.e
  | .i => ρ.i

namespace Term

/-- The integer that a number is when it stands as an exponent. -/
def integerLiteral? : Term → Option Int
  | .number a => Rational.toInt? a
  | _ => none

theorem integerLiteral?_eq_some {t : Term} {n : Int} :
    integerLiteral? t = some n ↔ t = .number (n : Rat) := by
  constructor
  · intro h
    cases t with
    | number a =>
      simp only [integerLiteral?, Rational.toInt?, Option.ite_none_right_eq_some,
        Option.some.injEq] at h
      rw [← h.2, Rat.coe_int_num_of_den_eq_one h.1]
    | _ => simp [integerLiteral?] at h
  · rintro rfl
    simp [integerLiteral?, Rational.toInt?]

@[simp] theorem integerLiteral?_intCast (n : Int) :
    integerLiteral? (.number (n : Rat)) = some n :=
  integerLiteral?_eq_some.2 rfl

variable {K : Type*} [Field K]

mutual

/-- The value of a term under an assignment. -/
def value (ρ : Assignment K) : Term → K
  | .number a => (a : K)
  | .constant c => ρ.constant c
  | .symbol name => ρ.symbol name
  | .sum terms => sumOfValues ρ terms
  | .product factors => productOfValues ρ factors
  | .power base exponent =>
    match integerLiteral? exponent with
    | some n => value ρ base ^ n
    | none => 0
  | .negation a => -value ρ a
  | .quotient a b => value ρ a / value ρ b
  | _ => 0

def sumOfValues (ρ : Assignment K) : List Term → K
  | [] => 0
  | t :: ts => value ρ t + sumOfValues ρ ts

/-- The product of the values of a list. -/
def productOfValues (ρ : Assignment K) : List Term → K
  | [] => 1
  | t :: ts => value ρ t * productOfValues ρ ts

end

mutual

/-- The term is built from numbers, symbols and constants, and no step of its evaluation
    divides by zero or raises zero to a power that is not positive. -/
def HasValue (ρ : Assignment K) : Term → Prop
  | .number _ | .constant _ | .symbol _ => True
  | .sum terms => HaveValues ρ terms
  | .product factors => HaveValues ρ factors
  | .power base exponent =>
    HasValue ρ base ∧ ∃ n, integerLiteral? exponent = some n ∧ (value ρ base = 0 → 0 < n)
  | .negation a => HasValue ρ a
  | .quotient a b => HasValue ρ a ∧ HasValue ρ b ∧ value ρ b ≠ 0
  | _ => False

def HaveValues (ρ : Assignment K) : List Term → Prop
  | [] => True
  | t :: ts => HasValue ρ t ∧ HaveValues ρ ts

end

/-- The term has a value, which is `v`. -/
structure Denotes (ρ : Assignment K) (t : Term) (v : K) : Prop where
  hasValue : HasValue ρ t
  value_eq : value ρ t = v

variable {ρ : Assignment K}

/-! ### Values of lists -/

theorem sumOfValues_eq (terms : List Term) :
    sumOfValues ρ terms = (terms.map (value ρ)).sum :=
  eq_sum_map rfl (fun _ _ => rfl) terms

theorem productOfValues_eq (factors : List Term) :
    productOfValues ρ factors = (factors.map (value ρ)).prod :=
  eq_prod_map rfl (fun _ _ => rfl) factors

theorem haveValues_iff {terms : List Term} :
    HaveValues ρ terms ↔ ∀ t ∈ terms, HasValue ρ t :=
  iff_forall_mem trivial (fun _ _ => Iff.rfl) terms

/-! ### Values of each kind of term -/

@[simp] theorem value_number (a : Rat) : value ρ (.number a) = (a : K) :=
  rfl

@[simp] theorem hasValue_number (a : Rat) : HasValue ρ (.number a) :=
  trivial

@[simp] theorem value_sum (terms : List Term) :
    value ρ (.sum terms) = (terms.map (value ρ)).sum :=
  sumOfValues_eq terms

@[simp] theorem hasValue_sum {terms : List Term} :
    HasValue ρ (.sum terms) ↔ ∀ t ∈ terms, HasValue ρ t :=
  haveValues_iff

@[simp] theorem value_product (factors : List Term) :
    value ρ (.product factors) = (factors.map (value ρ)).prod :=
  productOfValues_eq factors

@[simp] theorem hasValue_product {factors : List Term} :
    HasValue ρ (.product factors) ↔ ∀ t ∈ factors, HasValue ρ t :=
  haveValues_iff

@[simp] theorem value_power (base : Term) (n : Int) :
    value ρ (.power base (.number (n : Rat))) = value ρ base ^ n := by
  rw [value, integerLiteral?_intCast]

@[simp] theorem hasValue_power {base : Term} {n : Int} :
    HasValue ρ (.power base (.number (n : Rat))) ↔
      HasValue ρ base ∧ (value ρ base = 0 → 0 < n) := by
  simp [HasValue]

namespace Denotes

theorem number (a : Rat) : Denotes ρ (.number a) (a : K) :=
  ⟨hasValue_number a, value_number a⟩

theorem of_hasValue {t : Term} (h : HasValue ρ t) : Denotes ρ t (value ρ t) :=
  ⟨h, rfl⟩

theorem congr {t : Term} {v w : K} (h : Denotes ρ t v) (hvw : v = w) : Denotes ρ t w :=
  hvw ▸ h

end Denotes

end Term

end EquationSolver
