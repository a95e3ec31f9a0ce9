import EquationSolver.Proofs.Reduction.Memory
import EquationSolver.Proofs.Value.Assignment
import EquationSolver.Proofs.Value.Power
import Mathlib.Algebra.QuadraticAlgebra.Basic

/-!
# Reduction preserves exact values

An expression that has a value under an assignment is reduced to one that has the same
value, whatever the target, the formats and the limits are.  The induction follows the
expression: its parts are reduced first, and the parts that come out have the values of
those that went in, so that the laws of sums, products and powers apply to them.
-/

namespace EquationSolver

/-! ### Gaussian rationals -/

open scoped QuadraticAlgebra

/-- The Gaussian rationals. -/
abbrev GaussianRat := QuadraticAlgebra Rat (-1) 0

instance GaussianRat.fact_sq_ne : Fact (∀ r : Rat, r ^ 2 ≠ -1 + 0 * r) :=
  ⟨fun r => by nlinarith [sq_nonneg r]⟩

/-- The assignment of one Gaussian rational to every symbol, with rational values for the
    circle constant and the base of the logarithm. -/
def GaussianRat.assign (x : GaussianRat) : Assignment GaussianRat where
  symbol _ := x
  pi := 3
  e := 1 / 2
  i := ⟨0, 1⟩
  i_mul_i := by ext <;> simp

namespace Reduction

section Valuation

open EquationSolver.Valuation

variable {K : Type*} [Field K] {V : Valuation K} {s : Settings}

mutual

/-- The parts are reduced before they are put together, and keep their values. -/
theorem denotes_reduceKept [CharZero K] (hroots : DrawsRoots V s) : ∀ t : Term, V.HasValue t →
    V.Denotes (reduceKept s t).value (V.value t)
  | .number a, _ => by
    rw [reduceKept_number]
    exact .of_hasValue (hasValue_number a)
  | .constant c, h => by
    rw [reduceKept_constant]
    exact .of_hasValue h
  | .symbol name, h => by
    rw [reduceKept_symbol]
    exact .of_hasValue h
  | .sum terms, h => by
    obtain ⟨hreduced, hvalues⟩ := denote_reduceKeptAll hroots terms (hasValue_sum.1 h)
    rw [reduceKept, Build.value_bind, value_sum, ← hvalues]
    exact Valuation.add_denotes hreduced
  | .product factors, h => by
    obtain ⟨hreduced, hvalues⟩ := denote_reduceKeptAll hroots factors (hasValue_product.1 h).1
    rw [reduceKept, Build.value_bind, value_product, ← hvalues]
    exact Valuation.mul_denotes hroots hreduced
  | .power base exponent, h => by
    obtain ⟨q, rfl, hbase, hdefined⟩ := h.exponent_eq
    obtain ⟨hreduced, hvalue⟩ := denotes_reduceKept hroots base hbase
    have hexponent : (reduceKept s (.number q)).value = .number q := by
      rw [reduceKept_number, Build.value_pure]
    rw [reduceKept, Build.value_bind, Build.value_bind, hexponent]
    have hpower : V.HasValue (.power (reduceKept s base).value (.number q)) := by
      rw [hasValue_power, hvalue]
      exact ⟨hreduced, hdefined⟩
    refine (Valuation.pow_denotes hroots hpower).congr ?_
    rw [value_power, value_power, hvalue]
  | .negation a, h => by
    have ha : V.HasValue a := by simpa [HasValue] using h
    obtain ⟨hreduced, hvalue⟩ := denotes_reduceKept hroots a ha
    have hfactors : ∀ t ∈ [Term.number (-1), (reduceKept s a).value], V.HasValue t := by
      simpa using hreduced
    rw [reduceKept, Build.value_bind, Build.value_bind, Build.value_number]
    refine (Valuation.mul_denotes hroots hfactors).congr ?_
    simp [hvalue, value]
  | .quotient a b, h => by
    obtain ⟨ha, hb, hne⟩ : V.HasValue a ∧ V.HasValue b ∧ V.value b ≠ 0 := by
      simpa [HasValue] using h
    obtain ⟨hreduced, hvalue⟩ := denotes_reduceKept hroots a ha
    obtain ⟨hreduced', hvalue'⟩ := denotes_reduceKept hroots b hb
    -- the inverse of the denominator has a value because the denominator is not zero
    obtain ⟨hinverse, hinverse_eq⟩ :=
      Valuation.inverse_denotes hroots hreduced' (hvalue'.symm ▸ hne)
    rw [hvalue'] at hinverse_eq
    rw [reduceKept]
    simp only [Build.value_bind, Build.value_number]
    have hfactors : ∀ t ∈ [(reduceKept s a).value,
        (pow s (reduceKept s b).value (.number (-1))).value], V.HasValue t := by
      intro t ht
      rcases List.mem_pair.1 ht with rfl | rfl
      · exact hreduced
      · exact hinverse
    refine (Valuation.mul_denotes hroots hfactors).congr ?_
    simp [hvalue, hinverse_eq, value, div_eq_mul_inv]
  | .decimal _, h | .undefined, h | .nonreal, h | .apply _ _, h | .matrix _ _ _, h => by
    simp [HasValue] at h

theorem denote_reduceKeptAll [CharZero K] (hroots : DrawsRoots V s) : ∀ terms : List Term,
    (∀ t ∈ terms, V.HasValue t) →
      (∀ t ∈ (reduceKeptAll s terms).value, V.HasValue t) ∧
        (reduceKeptAll s terms).value.map V.value = terms.map V.value
  | [], _ => by
    rw [reduceKeptAll]
    simp
  | t :: ts, h => by
    obtain ⟨ht, hts⟩ := List.forall_mem_cons.1 h
    obtain ⟨hreduced, hvalue⟩ := denotes_reduceKept hroots t ht
    obtain ⟨hreduced', hvalues⟩ := denote_reduceKeptAll hroots ts hts
    rw [reduceKeptAll]
    simp only [Build.value_bind, Build.value_pure, List.map_cons, hvalue, hvalues]
    exact ⟨List.forall_mem_cons.2 ⟨hreduced, hreduced'⟩, trivial⟩

end

end Valuation

open Term

variable {K : Type*} [Field K] {ρ : Assignment K} {s : Settings}

/-- Integer powers leave no roots to draw. -/
theorem drawsRoots_valuation (ρ : Assignment K) (s : Settings) : DrawsRoots ρ.valuation s :=
  fun _ _ _ hden hdefined => (ρ.valuation.hasRoots_of_isDefined hdefined hden).elim

theorem reduceKept_denotes [CharZero K] (t : Term) (h : HasValue ρ t) :
    (reduceKept s t).value.Denotes ρ (value ρ t) :=
  Assignment.denotes_of_valuation
    (denotes_reduceKept (drawsRoots_valuation ρ s) t) h

theorem powWithin_denotes [CharZero K] (depth : Nat) {base exponent : Term}
    (h : HasValue ρ (.power base exponent)) :
    (powWithin s depth base exponent).value.Denotes ρ (value ρ (.power base exponent)) :=
  Assignment.denotes_of_valuation (fun h => Valuation.Denotes.of_reading
    ((keeps_mulWithin_powWithin (drawsRoots_valuation ρ s).reading depth).2 base exponent h)) h

/-- Reduction preserves exact values: with the symbols kept, the reduced form of an
    expression that has a value under an assignment has that value, too. -/
theorem reduce_denotes [CharZero K] (h : s.symbols = .keepAll) (definitions : Definitions) {t : Term} {v : K}
    (ht : t.Denotes ρ v) : (reduce s definitions t).value.Denotes ρ v := by
  obtain ⟨hvalue, -⟩ := reduce_keepAll h definitions t
  rw [hvalue]
  exact (reduceKept_denotes t ht.hasValue).congr ht.value_eq

/-- The square of x + i over x − 2, with 2 + i for x. -/
theorem reduce_denotes_gaussian :
    Term.Denotes (GaussianRat.assign ⟨2, 1⟩) (.quotient
      (.power (.sum [.symbol "x", .constant .i]) (.number 2))
      (.sum [.symbol "x", .negation (.number 2)])) 8 ∧
    (reduce { symbols := .keepAll } [] (.quotient
      (.power (.sum [.symbol "x", .constant .i]) (.number 2))
      (.sum [.symbol "x", .negation (.number 2)]))).value.Denotes
        (GaussianRat.assign ⟨2, 1⟩) 8 := by
  have htwo : integerLiteral? (.number 2) = some 2 := integerLiteral?_intCast 2
  have hnumerator : value (GaussianRat.assign ⟨2, 1⟩)
      (.power (.sum [.symbol "x", .constant .i]) (.number 2)) = ⟨0, 8⟩ := by
    ext <;> simp [value, htwo, GaussianRat.assign, Assignment.constant, sumOfValues,
      zpow_ofNat, sq] <;> norm_num
  have hdenominator : value (GaussianRat.assign ⟨2, 1⟩)
      (.sum [.symbol "x", .negation (.number 2)]) = ⟨0, 1⟩ := by
    ext <;> simp [value, sumOfValues, GaussianRat.assign]
  have hne : (⟨0, 1⟩ : GaussianRat) ≠ 0 := by
    intro h
    simpa using congrArg QuadraticAlgebra.im h
  have ht : Term.Denotes (GaussianRat.assign ⟨2, 1⟩) (.quotient
      (.power (.sum [.symbol "x", .constant .i]) (.number 2))
      (.sum [.symbol "x", .negation (.number 2)])) 8 := by
    constructor
    · rw [HasValue, hdenominator]
      refine ⟨⟨?_, 2, htwo, fun _ => by decide⟩, ?_, hne⟩ <;> simp [HasValue, HaveValues]
    · rw [value, hnumerator, hdenominator, div_eq_iff hne]
      ext <;> simp
  exact ⟨ht, reduce_denotes rfl [] ht⟩

end Reduction

end EquationSolver
