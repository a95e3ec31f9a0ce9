import EquationSolver.Search.Scanner
import Mathlib

/-!
# Searches without rounding

What the searches compute on numbers whose operations are exact: the rationals, and the rationals
together with one more for the value of a function where it has none.  That one is no result of an
operation on rationals but division by zero, and nothing compares with it, so that a test which
comes out true has been made on rationals.
-/

namespace EquationSolver

namespace SearchNumber

variable {α : Type} [SearchNumber α]

def IsRational (x : α) : Prop :=
  ∃ a : ℚ, x = ofRat a

/-- Operations on rationals are exact.  What is compared is rational, and so is what enters into a
    rational result. -/
class IsExact (α : Type) [SearchNumber α] : Prop where
  add_ofRat (a b : ℚ) : (ofRat a + ofRat b : α) = ofRat (a + b)
  sub_ofRat (a b : ℚ) : (ofRat a - ofRat b : α) = ofRat (a - b)
  mul_ofRat (a b : ℚ) : (ofRat a * ofRat b : α) = ofRat (a * b)
  div_ofRat (a : ℚ) {b : ℚ} : b ≠ 0 → (ofRat a / ofRat b : α) = ofRat (a / b)
  neg_ofRat (a : ℚ) : (-ofRat a : α) = ofRat (-a)
  abs_ofRat (a : ℚ) : abs (ofRat a : α) = ofRat |a|
  withSign_ofRat (a b : ℚ) : withSign (ofRat a : α) (ofRat b) = ofRat (if b < 0 then -|a| else |a|)
  less_ofRat (a b : ℚ) : less (ofRat a : α) (ofRat b) = decide (a < b)
  same_ofRat (a b : ℚ) : same (ofRat a : α) (ofRat b) = decide (a = b)
  isRational_of_less {x y : α} : less x y = true → IsRational x ∧ IsRational y
  isRational_of_neg {x : α} : IsRational (-x) → IsRational x
  isRational_of_abs {x : α} : IsRational (abs x) → IsRational x
  isRational_of_sub {x y : α} : IsRational (x - y) → IsRational x ∧ IsRational y
  isRational_of_mul {x y : α} : IsRational (x * y) → IsRational x ∧ IsRational y

export IsExact (add_ofRat sub_ofRat mul_ofRat div_ofRat neg_ofRat abs_ofRat withSign_ofRat
  less_ofRat same_ofRat isRational_of_less isRational_of_neg isRational_of_abs
  isRational_of_sub isRational_of_mul)

attribute [simp] add_ofRat sub_ofRat mul_ofRat neg_ofRat abs_ofRat withSign_ofRat less_ofRat
  same_ofRat

theorem isRational_of_smaller {x y : α} (h : IsRational (smaller x y)) :
    IsRational x ∨ IsRational y := by
  unfold smaller at h
  split at h
  · exact .inr h
  · exact .inl h

section Tests

variable [IsExact α] {x y : α} {a b : ℚ}

@[simp] theorem atMost_ofRat : atMost (ofRat a : α) (ofRat b) = decide (a ≤ b) := by
  simp [atMost, le_iff_lt_or_eq]

@[simp] theorem isNumber_ofRat : isNumber (ofRat a : α) = true := by
  simp [isNumber]

@[simp] theorem isZero_ofRat : isZero (ofRat a : α) = decide (a = 0) := by
  simp [isZero]

@[simp] theorem isPositive_ofRat : isPositive (ofRat a : α) = decide (0 < a) := by
  simp [isPositive]

@[simp] theorem smaller_ofRat : smaller (ofRat a : α) (ofRat b) = ofRat (min a b) := by
  rcases lt_or_ge b a with h | h
  · simp [smaller, h, h.le]
  · simp [smaller, h, not_lt.2 h]

@[simp] theorem larger_ofRat : larger (ofRat a : α) (ofRat b) = ofRat (max a b) := by
  rcases lt_or_ge a b with h | h
  · simp [larger, h, h.le]
  · simp [larger, h, not_lt.2 h]

theorem ofRat_injective : Function.Injective (ofRat : ℚ → α) := by
  intro a b h
  have hsame : same (ofRat a : α) (ofRat b) = true := by
    rw [h, same_ofRat]
    exact decide_eq_true rfl
  simpa using hsame

/-- What is less than the smaller of two numbers is less than the first, if that is rational. -/
theorem less_of_less_smaller (h : less x (smaller (ofRat a) y) = true) :
    less x (ofRat a) = true := by
  unfold smaller at h
  split at h
  case isTrue hsmaller =>
    -- the second is rational, too, and smaller still
    obtain ⟨⟨b, rfl⟩, c, rfl⟩ := isRational_of_less h
    simp only [less_ofRat, isNumber_ofRat, Bool.not_true, Bool.or_false, decide_eq_true_eq] at *
    exact h.trans hsmaller
  case isFalse => exact h

end Tests

/-! ### Rationals -/

theorem ratAbs_eq (a : ℚ) : a.abs = |a| := by
  rcases le_total 0 a with h | h
  · rw [Rat.abs_of_nonneg h, abs_of_nonneg h]
  · rw [Rat.abs_of_nonpos h, abs_of_nonpos h]

instance : IsExact ℚ where
  add_ofRat _ _ := rfl
  sub_ofRat _ _ := rfl
  mul_ofRat _ _ := rfl
  div_ofRat _ _ _ := rfl
  neg_ofRat _ := rfl
  abs_ofRat := ratAbs_eq
  withSign_ofRat a b := by
    rw [← ratAbs_eq]
    rfl
  less_ofRat _ _ := rfl
  same_ofRat _ _ := rfl
  isRational_of_less _ := ⟨⟨_, rfl⟩, ⟨_, rfl⟩⟩
  isRational_of_neg _ := ⟨_, rfl⟩
  isRational_of_abs _ := ⟨_, rfl⟩
  isRational_of_sub _ := ⟨⟨_, rfl⟩, ⟨_, rfl⟩⟩
  isRational_of_mul _ := ⟨⟨_, rfl⟩, ⟨_, rfl⟩⟩

end SearchNumber

/-! ### Rationals and undefined values -/

/-- A rational, or what a function has for a value where it is undefined. -/
inductive PartialRat where
  | rational (a : ℚ)
  | undefined
deriving DecidableEq

namespace PartialRat

def map (f : ℚ → ℚ) : PartialRat → PartialRat
  | rational a => rational (f a)
  | undefined => undefined

def map₂ (f : ℚ → ℚ → ℚ) : PartialRat → PartialRat → PartialRat
  | rational a, rational b => rational (f a b)
  | _, _ => undefined

def compare (p : ℚ → ℚ → Bool) : PartialRat → PartialRat → Bool
  | rational a, rational b => p a b
  | _, _ => false

def divide : PartialRat → PartialRat → PartialRat
  | _, rational 0 => undefined
  | x, y => map₂ (· / ·) x y

instance : SearchNumber PartialRat where
  ofRat := rational
  add := map₂ (· + ·)
  sub := map₂ (· - ·)
  mul := map₂ (· * ·)
  div := divide
  neg := map (- ·)
  less := compare fun a b => a < b
  same := compare fun a b => a = b
  abs := map SearchNumber.abs
  withSign := map₂ SearchNumber.withSign
  isFinite
    | rational _ => true
    | undefined => false

open SearchNumber

theorem isRational_of_map {f : ℚ → ℚ} {x : PartialRat} (h : IsRational (map f x)) :
    IsRational x := by
  cases x with
  | rational a => exact ⟨a, rfl⟩
  | undefined => exact nomatch h.choose_spec

theorem isRational_of_map₂ {f : ℚ → ℚ → ℚ} {x y : PartialRat} (h : IsRational (map₂ f x y)) :
    IsRational x ∧ IsRational y := by
  cases x with
  | rational a =>
    cases y with
    | rational b => exact ⟨⟨a, rfl⟩, ⟨b, rfl⟩⟩
    | undefined => exact nomatch h.choose_spec
  | undefined => exact nomatch h.choose_spec

theorem isRational_of_compare {p : ℚ → ℚ → Bool} {x y : PartialRat} (h : compare p x y = true) :
    IsRational x ∧ IsRational y := by
  cases x with
  | rational a =>
    cases y with
    | rational b => exact ⟨⟨a, rfl⟩, ⟨b, rfl⟩⟩
    | undefined => cases h
  | undefined => cases h

instance : IsExact PartialRat where
  add_ofRat _ _ := rfl
  sub_ofRat _ _ := rfl
  mul_ofRat _ _ := rfl
  div_ofRat a b hb := by
    show divide (rational a) (rational b) = rational (a / b)
    unfold divide
    split
    case h_1 heq => exact absurd (rational.inj heq) hb
    case h_2 => rfl
  neg_ofRat _ := rfl
  abs_ofRat a := congrArg rational (abs_ofRat a)
  withSign_ofRat a b := congrArg rational (withSign_ofRat a b)
  less_ofRat _ _ := rfl
  same_ofRat _ _ := rfl
  isRational_of_less := isRational_of_compare
  isRational_of_neg := isRational_of_map
  isRational_of_abs := isRational_of_map
  isRational_of_sub := isRational_of_map₂
  isRational_of_mul := isRational_of_map₂

end PartialRat

end EquationSolver
