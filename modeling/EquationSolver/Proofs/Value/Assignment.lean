import EquationSolver.Proofs.Value.Basic
import EquationSolver.Proofs.Value.Valuation

/-!
# Assignments as valuations

An assignment gives terms their values in any field, with powers for integer exponents only.
-/

namespace EquationSolver

/-- Powers with integer exponents; those of zero have to be positive. -/
def PowerRule.integers (K : Type*) [Field K] : PowerRule K where
  IsDefined v q := ∃ n : Int, q = n ∧ (v = 0 → 0 < n)
  power v q := if q.den = 1 then v ^ q.num else 0
  hasRoots := False
  hasRoots_of_isDefined := by
    rintro v _ ⟨n, rfl, -⟩ hden
    exact hden (Rat.den_intCast n)
  isDefined_intCast := by
    intro v n
    refine ⟨?_, fun h => ⟨n, rfl, h⟩⟩
    rintro ⟨m, hm, hpos⟩
    rwa [Int.cast_injective hm]
  power_intCast := by simp
  pos_of_isDefined_zero := by
    rintro _ ⟨n, rfl, hpos⟩
    exact_mod_cast hpos rfl
  power_zero := by
    rintro _ ⟨n, rfl, hpos⟩
    simpa using zero_zpow n (hpos rfl).ne'
  power_one := by
    rintro _ ⟨n, rfl, -⟩
    simp
  isDefined_add := by
    rintro v _ _ ⟨m, rfl, hm⟩ ⟨n, rfl, hn⟩
    exact ⟨m + n, by push_cast; rfl, fun hv => Int.add_pos (hm hv) (hn hv)⟩
  power_add := by
    rintro v _ _ ⟨m, rfl, hm⟩ ⟨n, rfl, hn⟩
    rw [← Int.cast_add]
    simp only [Rat.den_intCast, Rat.num_intCast, if_true]
    by_cases hv : v = 0
    · rw [hv, zero_zpow m (hm hv).ne', zero_mul,
        zero_zpow (m + n) (Int.add_pos (hm hv) (hn hv)).ne']
    · exact zpow_add₀ hv m n
  isDefined_mul := by
    rintro v _ n ⟨m, rfl, hm⟩ ⟨k, hk, hn⟩
    obtain rfl := Int.cast_injective hk
    refine ⟨m * n, by push_cast; rfl, fun hv => Int.mul_pos (hm hv) (hn ?_)⟩
    simpa [hv] using zero_zpow m (hm hv).ne'
  power_mul := by
    rintro v _ n ⟨m, rfl, hm⟩ -
    rw [← Int.cast_mul]
    simp only [Rat.den_intCast, Rat.num_intCast, if_true, zpow_mul]
  nonneg := by
    rintro a _ ⟨n, rfl, -⟩ hden
    exact absurd (Rat.den_intCast n) hden
  isDefined_split := by
    rintro a _ v - hden ⟨n, rfl, -⟩
    exact absurd (Rat.den_intCast n) hden
  power_split := by
    rintro a _ v - hden ⟨n, rfl, -⟩
    exact absurd (Rat.den_intCast n) hden

namespace Assignment

variable {K : Type*} [Field K]

/-- What an assignment makes of terms. -/
def valuation (ρ : Assignment K) : Valuation K where
  toPowerRule := .integers K
  symbol := ρ.symbol
  constant := ρ.constant
  HasConstant _ := True
  i_mul_i _ := ρ.i_mul_i

variable {ρ : Assignment K}

theorem value_power (base exponent : Term) (h : ρ.valuation.value base = base.value ρ) :
    ρ.valuation.value (.power base exponent) = (Term.power base exponent).value ρ := by
  cases exponent with
  | number q =>
    rw [Valuation.value_power, h, Term.value, Term.integerLiteral?, Rational.toInt?]
    show (if q.den = 1 then base.value ρ ^ q.num else 0) = _
    by_cases hden : q.den = 1
    · rw [if_pos hden, if_pos hden]
    · rw [if_neg hden, if_neg hden]
  | _ => simp [Term.value, Valuation.value, Term.integerLiteral?]

mutual

theorem value_valuation : ∀ t : Term, ρ.valuation.value t = t.value ρ
  | .number a => by simp
  | .constant c => by simp [Term.value, Valuation.value, valuation]
  | .symbol name => by simp [Term.value, Valuation.value, valuation]
  | .sum terms => by
    rw [Valuation.value_sum, Term.value_sum, map_value_valuation terms]
  | .product factors => by
    rw [Valuation.value_product, Term.value_product, map_value_valuation factors]
  | .power base exponent => value_power base exponent (value_valuation base)
  | .negation a => by rw [Valuation.value, Term.value, value_valuation a]
  | .quotient a b => by rw [Valuation.value, Term.value, value_valuation a, value_valuation b]
  | .decimal _ | .undefined | .nonreal | .apply _ _ | .matrix _ _ _ => by
    simp [Term.value, Valuation.value]

theorem map_value_valuation : ∀ terms : List Term,
    terms.map ρ.valuation.value = terms.map (Term.value ρ)
  | [] => rfl
  | t :: ts => by
    rw [List.map_cons, List.map_cons, value_valuation t, map_value_valuation ts]

end

mutual

theorem hasValue_valuation : ∀ t : Term, ρ.valuation.HasValue t ↔ t.HasValue ρ
  | .number a => by simp
  | .constant c => by simp [Term.HasValue, Valuation.HasValue, valuation]
  | .symbol name => by simp [Term.HasValue, Valuation.HasValue]
  | .sum terms => by
    rw [Valuation.hasValue_sum, Term.hasValue_sum, forall_hasValue_valuation terms]
  | .product factors => by
    rw [Valuation.hasValue_product, Term.hasValue_product, forall_hasValue_valuation factors]
    exact and_iff_left False.elim
  | .power base exponent => by
    cases exponent with
    | number q =>
      rw [Valuation.hasValue_power, hasValue_valuation base, value_valuation base, Term.HasValue]
      refine and_congr_right fun _ => exists_congr fun n => and_congr_left fun _ => ?_
      rw [Term.integerLiteral?_eq_some, Term.number.injEq]
    | _ => simp [Term.HasValue, Valuation.HasValue, Term.integerLiteral?]
  | .negation a => by rw [Valuation.HasValue, Term.HasValue, hasValue_valuation a]
  | .quotient a b => by
    rw [Valuation.HasValue, Term.HasValue, hasValue_valuation a, hasValue_valuation b,
      value_valuation b]
  | .decimal _ | .undefined | .nonreal | .apply _ _ | .matrix _ _ _ => by
    simp [Term.HasValue, Valuation.HasValue]

theorem forall_hasValue_valuation : ∀ terms : List Term,
    (∀ t ∈ terms, ρ.valuation.HasValue t) ↔ ∀ t ∈ terms, t.HasValue ρ
  | [] => by simp
  | t :: ts => by
    rw [List.forall_mem_cons, List.forall_mem_cons, hasValue_valuation t,
      forall_hasValue_valuation ts]

end

/-- What keeps the value of a term in the valuation keeps its value under the assignment. -/
theorem denotes_of_valuation {t u : Term}
    (h : ρ.valuation.HasValue t → ρ.valuation.Denotes u (ρ.valuation.value t))
    (ht : t.HasValue ρ) : u.Denotes ρ (t.value ρ) := by
  obtain ⟨hvalue, heq⟩ := h ((hasValue_valuation t).2 ht)
  exact ⟨(hasValue_valuation u).1 hvalue,
    (value_valuation u).symm.trans (heq.trans (value_valuation t))⟩

end Assignment

end EquationSolver
