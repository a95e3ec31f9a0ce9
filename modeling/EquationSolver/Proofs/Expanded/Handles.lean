import EquationSolver.Proofs.Expanded.Reduction
import EquationSolver.Proofs.Pool.Reduction

/-!
# Handles decide identities of polynomials

Two polynomials of a pool are the same exactly if their reduced forms have the same handle,
as long as nothing is left unexpanded on the way.  A power of a number whose exponent is
beyond the signed 64-bit range is left as it is whatever the limits are, so that limits are
not the only reason why something is left.
-/

namespace EquationSolver

open Term

namespace Reduction

variable {s : Settings}

theorem isExpanded_reduce (h : s.symbols = .keepAll) (definitions : Definitions) (t : Term) :
    (reduce s definitions t).IsExpanded ↔ (reduceKept s t).IsExpanded := by
  obtain ⟨-, htrace⟩ := reduce_keepAll h definitions t
  simp only [Build.IsExpanded, htrace]

/-! ### Beyond the range of exponents -/

theorem rationalPower_beyond_range {s : Settings} {pow : Term → Term → Build Term}
    {mul : List Term → Build Term} {a : Rat} (ha : a ≠ 0) {n : Int} (hn : Integer.maxSigned < n)
    (unreduced : Build Term) :
    rationalPower s pow mul a (n : Rat) unreduced = unreduced := by
  have hrange : Rational.toInt64Range? (n : Rat) = none := by
    rw [Rational.toInt64Range?, Rational.toInt?_intCast, Option.bind_some, Integer.toInt64Range?,
      if_neg (by omega)]
  simp only [rationalPower, if_neg ha, hrange, Rational.toInt64Range?_num_of_none hrange]

/-- Whatever the limits are, a power of a number is left as it is when its exponent is beyond
    the signed 64-bit range. -/
theorem reduceKept_beyond_range (s : Settings) {a : Rat} (ha : a ≠ 0) (hone : a ≠ 1) {n : Int}
    (hn : Integer.maxSigned < n) :
    (reduceKept s (.power (.number a) (.number (n : Rat)))).value =
      .power (.number a) (.number (n : Rat)) := by
  have hplain := isPlain_operands (isPlain_number a) (n : Rat)
  have hpos : 1 < n := lt_trans (by decide) hn
  have hzero : (Term.number (n : Rat)).isZero = false := by
    simp only [Term.isZero, decide_eq_false_iff_not, Int.cast_eq_zero]
    omega
  have hexponent : (Term.number (n : Rat)).isOne = false := by
    simp only [Term.isOne, decide_eq_false_iff_not, Int.cast_eq_one]
    omega
  have hbase : (Term.number a).isOne = false := by simpa [Term.isOne] using hone
  rw [reduceKept, reduceKept_number, reduceKept_number, Build.value_bind, Build.value_bind,
    Build.value_pure, Build.value_pure, pow, maxDepth_eq, powWithin, powWith]
  simp only [poison?_eq_none hplain, hasMatrix_eq_false hplain, hzero, hexponent, hbase,
    Bool.false_eq_true, if_false, Bool.or_false, rationalPower_beyond_range ha hn,
    Build.value_make]

end Reduction

namespace Context

open Reduction (Settings reduceKept reduceKept_number reduceKept_eq_iff reduceKept_beyond_range
  reduce_keepAll isExpanded_reduce)

/-- The reduction of a term leaves no product and no power unexpanded. -/
def ReducesExpanded (context : Context) (s : Settings) (t : Term) : Prop :=
  (Reduction.reduce s context.definedTerms t).IsExpanded

theorem reduce_value {s : Settings} (h : s.symbols = .keepAll) (context : Context) (t : Term) :
    (context.reduce s t).1 = (reduceKept s t).value :=
  (reduce_keepAll h context.definedTerms t).1

/-- Reduction decides whether two polynomials are the same: reduced one after the other, with
    the symbols kept and products multiplied out, they have one handle exactly if they are the
    same polynomial, provided that no product and no power is left unexpanded. -/
theorem reduce_handle_eq_iff {context : Context} (hpool : context.pool.IsSound)
    {s : Settings} (hsymbols : s.symbols = .keepAll) (hexpands : s.expands = true) {t u : Term}
    (ht : t ∈ context.pool.terms) (hu : u ∈ context.pool.terms) (htp : t.IsPolynomial)
    (hup : u.IsPolynomial) (hexpanded : context.ReducesExpanded s t)
    (hexpanded' : (context.reduce s t).2.ReducesExpanded s u) :
    ((context.reduce s t).2.reduce s u).2.pool.handleOf (context.reduce s t).1 =
        ((context.reduce s t).2.reduce s u).2.pool.handleOf ((context.reduce s t).2.reduce s u).1 ↔
      t.toPolynomial = u.toPolynomial := by
  obtain ⟨hsound, hkeeps, hfirst⟩ := isSound_reduce hpool s ht
  obtain ⟨hsound', hkeeps', hsecond⟩ := isSound_reduce hsound s (hkeeps u hu)
  rw [hsound'.handleOf_inj (hkeeps' _ hfirst) hsecond, reduce_value hsymbols,
    reduce_value hsymbols]
  exact reduceKept_eq_iff hexpands htp hup ((isExpanded_reduce hsymbols _ t).1 hexpanded)
    ((isExpanded_reduce hsymbols _ u).1 hexpanded')

/-- The square of x + 1 and x² + 2x + 1, which is not in ascending order, with their parts. -/
def binomialSquares : List Term :=
  [.symbol "x", .number 1, .sum [.symbol "x", .number 1], .number 2,
    .power (.sum [.symbol "x", .number 1]) (.number 2), .product [.number 2, .symbol "x"],
    .power (.symbol "x") (.number 2),
    .sum [.number 1, .product [.number 2, .symbol "x"], .power (.symbol "x") (.number 2)]]

theorem reduce_handle_eq_binomialSquares :
    let context : Context := { pool := ({} : Pool).internAll binomialSquares }
    let s : Settings := { symbols := .keepAll }
    let t : Term := .power (.sum [.symbol "x", .number 1]) (.number 2)
    let u : Term :=
      .sum [.number 1, .product [.number 2, .symbol "x"], .power (.symbol "x") (.number 2)]
    context.pool.IsSound ∧ s.expands = true ∧ t ∈ context.pool.terms ∧ u ∈ context.pool.terms ∧
      t.IsPolynomial ∧ u.IsPolynomial ∧ context.ReducesExpanded s t ∧
      (context.reduce s t).2.ReducesExpanded s u ∧
      ((context.reduce s t).2.reduce s u).2.pool.handleOf (context.reduce s t).1 =
        ((context.reduce s t).2.reduce s u).2.pool.handleOf
          ((context.reduce s t).2.reduce s u).1 := by
  intro context s t u
  obtain ⟨hpool, hmem⟩ : context.pool.IsSound ∧ ∀ t, t ∈ context.pool.terms ↔ t ∈ binomialSquares :=
    Pool.isSound_internAll (by decide)
  have ht : t ∈ context.pool.terms := (hmem t).2 (by decide)
  have hu : u ∈ context.pool.terms := (hmem u).2 (by decide)
  have htwo : Term.number 2 = .number ((2 : Nat) : Rat) := by norm_num
  have htp : t.IsPolynomial := by
    simp only [t, IsPolynomial, ArePolynomials]
    exact ⟨by simp, 2, by decide, htwo⟩
  have hup : u.IsPolynomial := by
    simp only [u, IsPolynomial, ArePolynomials, true_and, and_true]
    exact ⟨2, by decide, htwo⟩
  have hexpanded : context.ReducesExpanded s t :=
    (isExpanded_reduce rfl _ t).2 (by unfold Build.IsExpanded; decide +kernel)
  have hexpanded' : (context.reduce s t).2.ReducesExpanded s u :=
    (isExpanded_reduce rfl _ u).2 (by unfold Build.IsExpanded; decide +kernel)
  have hsame : t.toPolynomial = u.toPolynomial := by
    have hliteral : integerLiteral? (.number 2) = some 2 := integerLiteral?_intCast 2
    simp only [t, u, toPolynomial, toPolynomials, hliteral, List.sum_cons, List.sum_nil,
      List.prod_cons, List.prod_nil, map_ofNat, map_one, Int.reduceToNat]
    ring
  exact ⟨hpool, rfl, ht, hu, htp, hup, hexpanded, hexpanded',
    (reduce_handle_eq_iff hpool rfl rfl ht hu htp hup hexpanded hexpanded').2 hsame⟩

/-- Minus one to the power 2⁶³ and one, with their parts. -/
def evenPowers : List Term :=
  [.number (-1), .number 9223372036854775808,
    .power (.number (-1)) (.number 9223372036854775808), .number 1]

/-- Limits are not the only reason why a power is left: two terms that are the same constant
    polynomial have different handles after reduction, although no limit keeps the power from
    being computed. -/
theorem reduce_handle_ne_evenPowers :
    let context : Context := { pool := ({} : Pool).internAll evenPowers }
    let s : Settings := { symbols := .keepAll }
    let t : Term := .power (.number (-1)) (.number 9223372036854775808)
    let u : Term := .number 1
    t.IsPolynomial ∧ u.IsPolynomial ∧ t.toPolynomial = 1 ∧ u.toPolynomial = 1 ∧
      (∀ limits, (Reduction.reduce { s with limits } [] t).value = t) ∧
      ((context.reduce s t).2.reduce s u).2.pool.handleOf (context.reduce s t).1 ≠
        ((context.reduce s t).2.reduce s u).2.pool.handleOf
          ((context.reduce s t).2.reduce s u).1 := by
  intro context s t u
  have hcast : Term.number 9223372036854775808 = .number ((9223372036854775808 : Nat) : Rat) := by
    norm_num
  have htp : t.IsPolynomial := by
    simp only [t, IsPolynomial, true_and]
    exact ⟨9223372036854775808, by decide, hcast⟩
  have hup : u.IsPolynomial := by simp [u, IsPolynomial]
  have hone : t.toPolynomial = 1 := by
    simp only [t, hcast, toPolynomial_power, toPolynomial_number]
    rw [map_neg, map_one, Even.neg_one_pow (by decide)]
  have hone' : u.toPolynomial = 1 := by simp [u]
  have hleft : ∀ s : Settings, (reduceKept s t).value = t := by
    intro s
    have hrange : Integer.maxSigned < 9223372036854775808 := by decide
    simpa using reduceKept_beyond_range s (a := -1) (by decide) (by decide) hrange
  refine ⟨htp, hup, hone, hone', fun limits => ?_, ?_⟩
  · rw [(reduce_keepAll rfl [] t).1]
    exact hleft _
  · obtain ⟨hpool, hmem⟩ : context.pool.IsSound ∧ ∀ t, t ∈ context.pool.terms ↔ t ∈ evenPowers :=
      Pool.isSound_internAll (by decide)
    have ht : t ∈ context.pool.terms := (hmem t).2 (by decide)
    have hu : u ∈ context.pool.terms := (hmem u).2 (by decide)
    obtain ⟨hsound, hkeeps, hfirst⟩ := isSound_reduce hpool s ht
    obtain ⟨hsound', hkeeps', hsecond⟩ := isSound_reduce hsound s (hkeeps u hu)
    rw [Ne, hsound'.handleOf_inj (hkeeps' _ hfirst) hsecond, reduce_value rfl, reduce_value rfl,
      hleft, reduceKept_number]
    intro heq
    exact nomatch heq

end Context

end EquationSolver
