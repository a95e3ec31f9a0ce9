import EquationSolver.Proofs.Sorting
import EquationSolver.Term.Order
import Mathlib.Data.List.Basic
import Mathlib.Data.Rat.Cast.CharZero
import Mathlib.Algebra.Order.Ring.Rat

/-!
# Monomials

A reduced monomial is a coefficient with symbols and their exponents in ascending order of
the symbols.  The order of factors and the order of the terms of a sum, which are defined for
all terms, are total orders of such data: by symbol and exponent, and by degree and factors.
-/

namespace EquationSolver

/-- The symbols of a monomial, each with its exponent. -/
abbrev Exponents := List (String × Nat)

namespace Term

/-- A power of a symbol; the first power is the symbol. -/
def symbolPower (p : String × Nat) : Term :=
  if p.2 = 1 then .symbol p.1 else .power (.symbol p.1) (.number (p.2 : Rat))

/-- The term of a coefficient and a product of powers of symbols. -/
def monomial (c : Rat) (b : Exponents) : Term :=
  if b = [] then .number c
  else if c = 1 then productOf (b.map symbolPower)
  else .product (.number c :: b.map symbolPower)

/-! ### Parts of a monomial -/

theorem isNumeric_symbolPower (p : String × Nat) : (symbolPower p).isNumeric = false := by
  unfold symbolPower
  split <;> rfl

theorem symbolPower_ne_product (p : String × Nat) (factors : List Term) :
    symbolPower p ≠ .product factors := by
  unfold symbolPower
  split <;> simp

theorem symbolPower_injective {p q : String × Nat} (h : symbolPower p = symbolPower q) :
    p = q := by
  unfold symbolPower at h
  split at h
  case isTrue hp =>
    split at h
    case isTrue hq =>
      rw [Term.symbol.injEq] at h
      exact Prod.ext h (by rw [hp, hq])
    case isFalse hq => cases h
  case isFalse hp =>
    split at h
    case isTrue hq => cases h
    case isFalse hq =>
      simp only [Term.power.injEq, Term.symbol.injEq, Term.number.injEq, Nat.cast_inj] at h
      exact Prod.ext h.1 h.2

/-- A monomial is a number, a power of a symbol, or a product of these. -/
theorem monomial_cases (c : Rat) (b : Exponents) :
    monomial c b = .number c ∨ (∃ p ∈ b, monomial c b = symbolPower p) ∨
      ∃ factors, monomial c b = .product factors ∧
        ∀ t ∈ factors, t = .number c ∨ ∃ p ∈ b, t = symbolPower p := by
  have hpowers : ∀ t ∈ b.map symbolPower, ∃ p ∈ b, t = symbolPower p := by
    intro t ht
    obtain ⟨p, hp, rfl⟩ := List.mem_map.1 ht
    exact ⟨p, hp, rfl⟩
  unfold monomial
  split
  case isTrue => exact .inl rfl
  case isFalse hne =>
    split
    case isTrue =>
      match b, hne, hpowers with
      | [p], _, _ => exact .inr (.inl ⟨p, by simp, rfl⟩)
      | p :: q :: rest, _, hpowers =>
        exact .inr (.inr ⟨_, rfl, fun t ht => .inr (hpowers t ht)⟩)
    case isFalse =>
      refine .inr (.inr ⟨_, rfl, fun t ht => ?_⟩)
      exact (List.mem_cons.1 ht).imp_right (hpowers t)

theorem isNumeric_monomial (c : Rat) (b : Exponents) :
    (monomial c b).isNumeric = b.isEmpty := by
  match b with
  | [] => rfl
  | [p] =>
    unfold monomial
    split
    case isTrue h => cases h
    case isFalse =>
      split
      · exact isNumeric_symbolPower p
      · rfl
  | p :: q :: b =>
    unfold monomial
    split
    case isTrue h => cases h
    case isFalse => split <;> rfl

theorem body_monomial (c : Rat) (b : Exponents) :
    (monomial c b).body = b.map symbolPower := by
  have hfilter : (b.map symbolPower).filter (fun f => !f.isNumeric) = b.map symbolPower := by
    refine List.filter_eq_self.2 fun t ht => ?_
    obtain ⟨p, -, rfl⟩ := List.mem_map.1 ht
    simp [isNumeric_symbolPower]
  unfold monomial
  split
  case isTrue h => rw [h]; rfl
  case isFalse hne =>
    split
    case isTrue =>
      match b, hne with
      | [p], _ =>
        have hp := isNumeric_symbolPower p
        have hproduct := symbolPower_ne_product p
        simp only [List.map_cons, List.map_nil, productOf]
        cases h : symbolPower p <;> simp_all [body, isNumeric]
      | p :: q :: b, _ => exact hfilter
    case isFalse => simpa [body, isNumeric] using hfilter

theorem degree_symbolPower_bounds (p : String × Nat) :
    Integer.minSigned ≤ (symbolPower p).degree ∧ (symbolPower p).degree ≤ Integer.maxSigned := by
  unfold symbolPower
  split
  case isTrue => exact ⟨by rw [degree]; decide, by rw [degree]; decide⟩
  case isFalse =>
    rw [degree]
    split
    case h_1 e _ =>
      simp only [Integer.clampSigned, Integer.minSigned, Integer.maxSigned]
      omega
    case h_2 => decide

/-- The degree of a monomial is that of its factors together, which wraps around. -/
theorem degree_monomial (c : Rat) (b : Exponents) :
    (monomial c b).degree = Integer.wrapSigned (degreeSum (b.map symbolPower)) := by
  unfold monomial
  split
  case isTrue h =>
    rw [h]
    rfl
  case isFalse hne =>
    split
    case isTrue =>
      match b, hne with
      | [p], _ =>
        have hbounds := degree_symbolPower_bounds p
        simp only [List.map_cons, List.map_nil, productOf, degreeSum, Int.add_zero]
        rw [Integer.wrapSigned, if_pos hbounds]
      | p :: q :: b, _ => rfl
    case isFalse =>
      have hnumber : (Term.number c).degree = 0 := by simp [degree]
      rw [degree, degreeSum, hnumber, Int.zero_add]

end Term

namespace Exponents

/-- The exponents are positive, and the symbols ascend. -/
structure IsReduced (b : Exponents) : Prop where
  positive : ∀ p ∈ b, 0 < p.2
  ascending : b.Pairwise fun p q => Ord.compare p.1 q.1 = .lt

/-! ### The order of factors -/

/-- Powers of symbols are ordered by symbol, then by exponent. -/
def comparePowers : String × Nat → String × Nat → Ordering :=
  compareLex (compareOn Prod.fst) (compareOn Prod.snd)

instance : Std.TransCmp comparePowers :=
  inferInstanceAs (Std.TransCmp (compareLex _ _))

instance : Std.LawfulEqCmp comparePowers where
  eq_of_compare := by
    intro p q h
    obtain ⟨hname, hexponent⟩ := compareLex_eq_eq.1 h
    exact Prod.ext (Std.LawfulEqOrd.eq_of_compare hname) (Std.LawfulEqOrd.eq_of_compare hexponent)

theorem compareRat_natCast (m n : Nat) : compareRat (m : Rat) (n : Rat) = Ord.compare m n := by
  rcases lt_trichotomy m n with h | rfl | h
  · rw [compareRat, if_pos (by exact_mod_cast h), Nat.compare_eq_lt.2 h]
  · simp [compareRat]
  · have hne : ¬ (m : Rat) < n := by
      rw [Nat.cast_lt]
      omega
    have hne' : (m : Rat) ≠ n := by
      rw [Ne, Nat.cast_inj]
      omega
    rw [compareRat, if_neg hne, if_neg hne', Nat.compare_eq_gt.2 h]

theorem compareRat_one_eq_gt {n : Nat} (hpos : 0 < n) (hone : n ≠ 1) :
    compareRat (n : Rat) 1 = .gt := by
  rw [← Nat.cast_one, compareRat_natCast, Nat.compare_eq_gt]
  omega

theorem compare_symbolPower {p q : String × Nat} (hp : 0 < p.2) (hq : 0 < q.2) :
    Term.compare (.symbolPower p) (.symbolPower q) = comparePowers p q := by
  have hspec : comparePowers p q = (Ord.compare p.1 q.1).then (Ord.compare p.2 q.2) := rfl
  rw [hspec, Term.symbolPower, Term.symbolPower]
  split
  case isTrue h1 =>
    split
    case isTrue h2 => simp [Term.compare, Term.againstPower, h1, h2]
    case isFalse h2 =>
      have hlt : Ord.compare p.2 q.2 = .lt := Nat.compare_eq_lt.2 (by omega)
      simp [Term.compare, Term.againstPower, Term.compareWithOne,
        compareRat_one_eq_gt hq h2, hlt, Ordering.then_assoc]
  case isFalse h1 =>
    split
    case isTrue h2 =>
      have hgt : Ord.compare p.2 q.2 = .gt := Nat.compare_eq_gt.2 (by omega)
      simp [Term.compare, Term.againstPower, Term.compareWithOne,
        compareRat_one_eq_gt hp h1, hgt, Ordering.then_assoc]
    case isFalse h2 =>
      simp [Term.compare, Term.againstPower, compareRat_natCast]

/-! ### The order of terms -/

theorem compareLists_symbolPower {b b' : Exponents} (hb : ∀ p ∈ b, 0 < p.2)
    (hb' : ∀ p ∈ b', 0 < p.2) :
    Term.compareLists (b.map Term.symbolPower) (b'.map Term.symbolPower) =
      List.compareLex comparePowers b b' := by
  induction b generalizing b' with
  | nil => cases b' <;> simp [Term.compareLists, List.compareLex]
  | cons p b ih =>
    cases b' with
    | nil => simp [Term.compareLists, List.compareLex]
    | cons q b' =>
      obtain ⟨hp, hb⟩ := List.forall_mem_cons.1 hb
      obtain ⟨hq, hb'⟩ := List.forall_mem_cons.1 hb'
      rw [List.map_cons, List.map_cons, Term.compareLists, compare_symbolPower hp hq, ih hb hb',
        List.compareLex_cons_cons]

/-- The degree of a monomial as the order of terms counts it. -/
def degree (b : Exponents) : Int :=
  Integer.wrapSigned (Term.degreeSum (b.map Term.symbolPower))

theorem map_symbolPower_injective {b b' : Exponents}
    (h : b.map Term.symbolPower = b'.map Term.symbolPower) : b = b' :=
  List.map_injective_iff.2 (fun _ _ => Term.symbolPower_injective) h

theorem eq_of_monomial_eq {b b' : Exponents} {c c' : Rat}
    (h : Term.monomial c b = Term.monomial c' b') : b = b' := by
  have hbody := congrArg Term.body h
  rw [Term.body_monomial, Term.body_monomial] at hbody
  exact map_symbolPower_injective hbody

/-- The order of the terms of a sum: the constant term last, higher degrees first, then by
    factors. -/
def compareMonomials : Exponents → Exponents → Ordering :=
  compareLex (compareOn fun b => b.isEmpty.toNat)
    (compareLex (compareOn fun b => -degree b) (List.compareLex comparePowers))

instance : Std.TransCmp compareMonomials :=
  inferInstanceAs (Std.TransCmp (compareLex _ _))

instance : Std.LawfulEqCmp compareMonomials where
  eq_of_compare := by
    intro b b' h
    obtain ⟨-, h⟩ := compareLex_eq_eq.1 h
    obtain ⟨-, h⟩ := compareLex_eq_eq.1 h
    exact Std.LawfulEqCmp.eq_of_compare h

theorem compare_neg (a b : Int) : Ord.compare (-a) (-b) = Ord.compare b a := by
  rcases lt_trichotomy a b with h | rfl | h
  · rw [Int.compare_eq_gt.2 h, Int.compare_eq_gt.2 (Int.neg_lt_neg h)]
  · rw [Int.compare_eq_eq.2 rfl, Int.compare_eq_eq.2 rfl]
  · rw [Int.compare_eq_lt.2 h, Int.compare_eq_lt.2 (Int.neg_lt_neg h)]

theorem compareTerms_monomial {b b' : Exponents} (hb : b.IsReduced) (hb' : b'.IsReduced)
    (hne : b ≠ b') (c c' : Rat) :
    Term.compareTerms (.monomial c b) (.monomial c' b') = compareMonomials b b' := by
  have hspec : compareMonomials b b' = (Ord.compare b.isEmpty.toNat b'.isEmpty.toNat).then
      ((Ord.compare (-degree b) (-degree b')).then (List.compareLex comparePowers b b')) := rfl
  have hlists : List.compareLex comparePowers b b' ≠ .eq :=
    fun h => hne (Std.LawfulEqCmp.eq_of_compare h)
  have hterms : Term.monomial c b ≠ .monomial c' b' := fun h => hne (eq_of_monomial_eq h)
  rw [Term.compareTerms, Term.compareGraded, if_neg hterms, hspec]
  dsimp only
  rw [Term.isNumeric_monomial, Term.isNumeric_monomial, Term.degree_monomial,
    Term.degree_monomial, Term.body_monomial, Term.body_monomial,
    compareLists_symbolPower hb.positive hb'.positive, compare_neg, degree, degree]
  cases hcmp : List.compareLex comparePowers b b' with
  | eq => exact (hlists hcmp).elim
  | _ => simp [Ordering.then_assoc]

end Exponents

end EquationSolver
