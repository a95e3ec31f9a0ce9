import EquationSolver.Polynomial.Roots
import EquationSolver.Proofs.Matrix.Numbers
import EquationSolver.Proofs.Reduction.Roots

/-!
# Arithmetic of coefficients

The roots of a polynomial are put together from its coefficients by opposites, differences,
quotients and sums of monomials.  Each of these has the value that it is to have where its
operands have values, and on numbers that pass the size tests each of them is a number.
-/

namespace EquationSolver

/-! ### Powers of numbers -/

namespace Reduction

variable {s : Settings} {a : Rat}

/-- The size limit of exact powers lets a number be raised to a power; the first power always
    is. -/
def Settings.Raises (s : Settings) (a : Rat) (n : Nat) : Prop :=
  n = 1 ∨ s.fits a n = true

@[simp] theorem Settings.raises_one : s.Raises a 1 :=
  .inl rfl

/-- A number is raised to an integer power if the size test admits it. -/
theorem pow_number_intCast {n : Int} (hn : n ≠ 0) (hn' : n.natAbs < Integer.halfWordCount)
    (ha : a = 0 → 0 < n) (h : a = 1 ∨ n = 1 ∨ s.fits a n.natAbs = true) :
    (pow s (.number a) (.number n)).value = .number (a ^ n) := by
  have hplain : ∀ t ∈ [Term.number a, .number (n : Rat)], IsPlain t := by simp [IsPlain]
  have hzero : (Term.number (n : Rat)).isZero = false := decide_eq_false (by exact_mod_cast hn)
  rw [pow, maxDepth_eq_succ, powWithin, powWith]
  simp only [poison?_eq_none hplain, hasMatrix_eq_false hplain, hzero, Bool.false_eq_true, if_false]
  split
  case isTrue hone =>
    have hone : n = 1 ∨ a = 1 := by simpa [Term.isOne] using hone
    rcases hone with rfl | rfl <;> simp
  case isFalse hone =>
    have hone : n ≠ 1 ∧ a ≠ 1 := by simpa [Term.isOne] using hone
    have hfits : s.fits a n.natAbs = true := (h.resolve_left hone.2).resolve_left hone.1
    have hrange : Rational.toInt64Range? (n : Rat) = some n := by
      have hword : Integer.halfWordCount = 4294967296 := rfl
      have hmin : Integer.minSigned = -0x8000000000000000 := rfl
      have hmax : Integer.maxSigned = 0x7FFFFFFFFFFFFFFF := rfl
      rw [Rational.toInt64Range?, Rational.toInt?_intCast, Option.bind_some,
        Integer.toInt64Range?, if_pos (by omega)]
    simp only [rationalPower]
    by_cases hbase : a = 0
    · have hpos := ha hbase
      rw [if_pos hbase, if_pos (by exact_mod_cast hpos), hbase, zero_zpow n hn]
      rfl
    · rw [if_neg hbase, hrange]
      dsimp only
      rw [hfits, integerPower?_of_lt hbase hn']
      rfl

/-- A number is raised to a natural power if the size test admits it. -/
theorem pow_number_natCast {n : Nat} (hn : 0 < n) (hn' : n < Integer.halfWordCount)
    (h : s.Raises a n) : (pow s (.number a) (.number (n : Rat))).value = .number (a ^ n) := by
  have hpower := pow_number_intCast (s := s) (a := a) (n := n) (by omega) (by simpa using hn')
    (fun _ => by exact_mod_cast hn) (.inr (h.imp (by rintro rfl; rfl) (by simp)))
  simpa using hpower

theorem inverse_number (ha : a ≠ 0) (h : s.Inverts a) :
    (pow s (.number a) (.number (-1))).value = .number a⁻¹ := by
  have hpower := pow_number_intCast (s := s) (a := a) (n := -1) (by decide)
    (by simp [Integer.halfWordCount])
    (fun hzero => absurd hzero ha) (h.imp_right fun hfits => .inr (by simpa using hfits))
  simpa using hpower

end Reduction

namespace Roots

open Reduction (Settings)

variable {s : Settings}

/-! ### On numbers -/

section Numbers

variable {a b : Rat}

@[simp] theorem neg_number : (neg s (.number a)).value = .number (-a) := by
  have hproduct := Reduction.mul_numbers s [-1, a]
  simpa [neg] using hproduct

@[simp] theorem add_numbers : (Reduction.add [.number a, .number b]).value = .number (a + b) := by
  simpa using Reduction.add_numbers [a, b]

@[simp] theorem sub_numbers : (sub s (.number a) (.number b)).value = .number (a - b) := by
  simp [sub, sub_eq_add_neg]

theorem div_numbers (hb : b ≠ 0) (h : s.Inverts b) :
    (div s (.number a) (.number b)).value = .number (a / b) := by
  have hproduct := Reduction.mul_numbers s [a, b⁻¹]
  simpa [div, Reduction.inverse_number hb h, div_eq_mul_inv] using hproduct

end Numbers

/-- Powers of numbers as they stand in a monomial. -/
def numberPowers (powers : List (Rat × Nat)) : List (Term × Nat) :=
  powers.map fun power => (.number power.1, power.2)

/-- The powers in a monomial pass the size test; their exponents are positive and small. -/
def AreRaised (s : Settings) (powers : List (Rat × Nat)) : Prop :=
  ∀ power ∈ powers, 0 < power.2 ∧ power.2 < Integer.halfWordCount ∧ s.Raises power.1 power.2

@[simp] theorem areRaised_nil : AreRaised s [] :=
  fun _ h => absurd h List.not_mem_nil

@[simp] theorem areRaised_cons {power : Rat × Nat} {powers : List (Rat × Nat)} :
    AreRaised s (power :: powers) ↔
      (0 < power.2 ∧ power.2 < Integer.halfWordCount ∧ s.Raises power.1 power.2) ∧
        AreRaised s powers :=
  List.forall_mem_cons

theorem monomial_numbers (powers : List (Rat × Nat)) (h : AreRaised s powers) (k : Int) :
    (monomial s k (numberPowers powers)).value =
      .number ((k : Rat) * (powers.map fun power => power.1 ^ power.2).prod) := by
  have hpowers : powers.map (fun power =>
      (Reduction.pow s (.number power.1) (.number (power.2 : Rat))).value) =
        (powers.map fun power => power.1 ^ power.2).map Term.number := by
    rw [List.map_map]
    refine List.map_congr_left fun power hpower => ?_
    obtain ⟨hpos, hsmall, hraised⟩ := h power hpower
    exact Reduction.pow_number_natCast hpos hsmall hraised
  have hproduct := Reduction.mul_numbers s
    ((k : Rat) :: powers.map fun power => power.1 ^ power.2)
  rw [List.map_cons, ← hpowers] at hproduct
  simpa [monomial, numberPowers, Function.comp_def] using hproduct

/-- A multiple of a number needs no size test. -/
theorem monomial_number (k : Int) (a : Rat) :
    (monomial s k [(.number a, 1)]).value = .number (k * a) := by
  have hmonomial := monomial_numbers (s := s) [(a, 1)] (by simp [Integer.halfWordCount]) k
  simpa [numberPowers] using hmonomial

theorem polynomial_numbers (monomials : List (Int × List (Rat × Nat)))
    (h : ∀ m ∈ monomials, AreRaised s m.2) :
    (polynomial s (monomials.map fun m => (m.1, numberPowers m.2))).value =
      .number (monomials.map fun m =>
        (m.1 : Rat) * (m.2.map fun power => power.1 ^ power.2).prod).sum := by
  have hmonomials : monomials.map (fun m => (monomial s m.1 (numberPowers m.2)).value) =
      (monomials.map fun m =>
        (m.1 : Rat) * (m.2.map fun power => power.1 ^ power.2).prod).map Term.number := by
    rw [List.map_map]
    exact List.map_congr_left fun m hm => monomial_numbers m.2 (h m hm) m.1
  have hsum := Reduction.add_numbers (monomials.map fun m =>
    (m.1 : Rat) * (m.2.map fun power => power.1 ^ power.2).prod)
  rw [← hmonomials] at hsum
  simpa [polynomial, Function.comp_def] using hsum

/-! ### On terms with values -/

section Values

variable {K : Type*} [Field K] [CharZero K] {R : Reading K} {t u : Term} {v w : K}

theorem neg_denotes (hroots : R.DrawsRoots s) (ht : R.Denotes t v) :
    R.Denotes (neg s t).value (-v) := by
  have hproduct := Reduction.mul_pair_denotes hroots (.number (-1)) ht
  rw [Rat.cast_neg, Rat.cast_one, neg_one_mul] at hproduct
  simpa [neg] using hproduct

theorem sub_denotes (hroots : R.DrawsRoots s) (ht : R.Denotes t v) (hu : R.Denotes u w) :
    R.Denotes (sub s t u).value (v - w) := by
  have hsum := Reduction.add_pair_denotes ht (neg_denotes hroots hu)
  rw [← sub_eq_add_neg] at hsum
  simpa [sub] using hsum

theorem div_denotes (hroots : R.DrawsRoots s) (ht : R.Denotes t v) (hu : R.Denotes u w)
    (hw : w ≠ 0) : R.Denotes (div s t u).value (v / w) := by
  obtain ⟨hu, rfl⟩ := hu
  have hproduct := Reduction.mul_pair_denotes hroots ht (Reduction.inverse_denotes hroots hu hw)
  rw [← div_eq_mul_inv] at hproduct
  simpa [div] using hproduct

theorem pow_natCast_denotes (hroots : R.DrawsRoots s) (ht : R.HasValue t) {n : Nat} (hn : 0 < n) :
    R.Denotes (Reduction.pow s t (.number (n : Rat))).value (R.value t ^ n) := by
  have hdefined : R.IsDefined (R.value t) ((n : Int) : Rat) :=
    R.isDefined_intCast.2 fun _ => by exact_mod_cast hn
  have hpower := Reduction.pow_denotes hroots (R.hasValue_power.2 ⟨ht, hdefined⟩)
  rw [Reading.value_power, R.power_intCast, zpow_natCast] at hpower
  simpa using hpower

/-- The terms in a monomial have values, and its exponents are positive. -/
def HavePowers (R : Reading K) (powers : List (Term × Nat)) : Prop :=
  ∀ power ∈ powers, R.HasValue power.1 ∧ 0 < power.2

omit [CharZero K] in
@[simp] theorem havePowers_nil : HavePowers R [] :=
  fun _ h => absurd h List.not_mem_nil

omit [CharZero K] in
@[simp] theorem havePowers_cons {power : Term × Nat} {powers : List (Term × Nat)} :
    HavePowers R (power :: powers) ↔
      (R.HasValue power.1 ∧ 0 < power.2) ∧ HavePowers R powers :=
  List.forall_mem_cons

def monomialValue (R : Reading K) (m : Int × List (Term × Nat)) : K :=
  (m.1 : K) * (m.2.map fun power => R.value power.1 ^ power.2).prod

theorem monomial_denotes (hroots : R.DrawsRoots s) {powers : List (Term × Nat)}
    (h : HavePowers R powers) (k : Int) :
    R.Denotes (monomial s k powers).value (monomialValue R (k, powers)) := by
  have hpower : ∀ power ∈ powers, R.Denotes
      (Reduction.pow s power.1 (.number (power.2 : Rat))).value (R.value power.1 ^ power.2) :=
    fun power hmem => pow_natCast_denotes hroots (h power hmem).1 (h power hmem).2
  have hfactors : ∀ t ∈ Term.number (k : Rat) :: powers.map (fun power =>
      (Reduction.pow s power.1 (.number (power.2 : Rat))).value), R.HasValue t := by
    refine List.forall_mem_cons.2 ⟨R.hasValue_number _, ?_⟩
    exact List.forall_mem_map.2 fun power hmem => (hpower power hmem).hasValue
  simp only [monomial, Build.value_bind, Build.value_number, Build.value_each]
  refine (Reduction.mul_denotes hroots hfactors).congr ?_
  rw [List.map_cons, List.prod_cons, Reading.value_number, Rat.cast_intCast, List.map_map]
  exact congrArg (_ * List.prod ·) (List.map_congr_left fun power hmem =>
    (hpower power hmem).value_eq)

theorem polynomial_denotes (hroots : R.DrawsRoots s) {monomials : List (Int × List (Term × Nat))}
    (h : ∀ m ∈ monomials, HavePowers R m.2) :
    R.Denotes (polynomial s monomials).value (monomials.map (monomialValue R)).sum := by
  have hmonomial : ∀ m ∈ monomials,
      R.Denotes (monomial s m.1 m.2).value (monomialValue R m) :=
    fun m hm => monomial_denotes hroots (h m hm) m.1
  simp only [polynomial, Build.value_bind, Build.value_each]
  refine (Reduction.add_denotes ?_).congr ?_
  · exact List.forall_mem_map.2 fun m hm => (hmonomial m hm).hasValue
  · rw [List.map_map]
    exact congrArg List.sum (List.map_congr_left fun m hm => (hmonomial m hm).value_eq)

end Values

end Roots

end EquationSolver
