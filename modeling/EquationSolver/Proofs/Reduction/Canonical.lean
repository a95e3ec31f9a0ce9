import EquationSolver.Proofs.Number.Double
import EquationSolver.Proofs.Order.Comparison
import EquationSolver.Proofs.Reduction.Memory
import EquationSolver.Proofs.Reduction.Standard

/-!
# Canonical terms

A canonical term obeys the rules of the standard form in all its parts.  There are no negations
and no quotients.  Sums and products are flat, like terms are collected, factors of one base are
merged, a number stands first in a product, and operands are in order.  Where products are
multiplied out, only those are left that have too many terms.  No undefined or nonreal operand is
left, no power that can be computed, and no function that has an exact value.

Reduction leaves a canonical term as it is.
-/

namespace EquationSolver

open Term

namespace Reduction

variable {s : Settings}

/-! ### Sums -/

/-- The terms are coefficients times different factors. -/
def AreUnlike (terms : List Term) : Prop :=
  ∃ parts : List (Coefficient × List Term), terms = parts.map (fun m => scaledBy m.1 m.2) ∧
    (∀ m ∈ parts, AreFlat m.2) ∧ (∀ m ∈ parts, m.1.IsProper) ∧
      parts.Pairwise fun m n => m.2 ≠ n.2

/-- The rules of sums.  Like terms are collected and sorted only where no term is a matrix. -/
structure IsCanonicalSum (terms : List Term) : Prop where
  two_le : 2 ≤ terms.length
  flat : ∀ t ∈ terms, t.isSum = false
  unmarked : poison? terms = none
  collected : hasMatrix terms = false → AreUnlike terms ∧ Term.sortTerms terms = terms

theorem sumOf_of_two_le {terms : List Term} (h : 2 ≤ terms.length) :
    Term.sumOf terms = .sum terms := by
  match terms, h with
  | _ :: _ :: _, _ => rfl

theorem IsCanonicalSum.add_eq {terms : List Term} (h : IsCanonicalSum terms) :
    (add terms).value = .sum terms := by
  have hflat : terms.flatMap summands = terms := by
    rw [List.flatMap_congr fun t ht => summands_of_not_isSum (h.flat t ht),
      List.flatMap_singleton']
  cases hmatrix : hasMatrix terms with
  | true =>
    unfold add
    simp only [hflat, h.unmarked, hmatrix, if_true, Build.value_sum]
    exact sumOf_of_two_le h.two_le
  | false =>
    obtain ⟨⟨parts, hterms, hparts, hproper, hdiffer⟩, hsorted⟩ := h.collected hmatrix
    have hplain := isPlain_of_unmarked h.unmarked hmatrix
    rw [add_of_unlike hparts hproper hdiffer (hflat.trans hterms) (hflat.symm ▸ hplain), hflat,
      hsorted]
    exact sumOf_of_two_le h.two_le

/-! ### Products -/

/-- The factors of a product, with the coefficient first unless it is one. -/
def numbered (c : Coefficient) (rest : List Term) : List Term :=
  if c.isOne then rest else c.toTerm :: rest

theorem mem_numbered {c : Coefficient} {rest : List Term} {t : Term} (h : t ∈ numbered c rest) :
    t = c.toTerm ∨ t ∈ rest := by
  unfold numbered at h
  split at h
  · exact .inr h
  · exact List.mem_cons.1 h

theorem one_mul_coefficient (c : Coefficient) : Coefficient.one.mul c = c := by
  cases c with
  | exact a => exact congrArg Coefficient.exact (one_mul a)
  | approximate x => exact congrArg Coefficient.approximate (Binary64.nearest_one_mul x)

theorem AreFlat.absorb_numbered {rest : List Term} (h : AreFlat rest) {c : Coefficient}
    (hc : Coefficient.of? c.toTerm = some c) : absorb .one (numbered c rest) = (c, rest) := by
  unfold numbered
  split
  case isTrue hone => rw [h.absorb_eq, Coefficient.eq_one_of_isOne hone]
  case isFalse =>
    have hmul : multiplyNumbers .one (c.toTerm :: rest) = multiplyNumbers c rest := by
      rw [multiplyNumbers, List.foldl_cons, hc]
      dsimp only
      rw [one_mul_coefficient]
      rfl
    have hnumeric : c.toTerm.isNumeric = true := by
      generalize c.toTerm = t at hc
      cases t <;> first | rfl | cases hc
    have hproduct : ∀ factors, c.toTerm ≠ .product factors := by
      intro factors heq
      rw [heq] at hnumeric
      cases hnumeric
    have hflat : flatFactorsOfAll (c.toTerm :: rest) = c.toTerm :: rest := by
      rw [flatFactorsOfAll, h.flatFactorsOfAll_eq, flatFactors_of_ne hproduct]
      rfl
    rw [absorb, hflat, hmul, h.multiplyNumbers_eq, List.filter_cons_of_neg (by simp [hnumeric]),
      h.filter_eq]

/-- The rules of products.  Factors are merged and sorted only where none is a matrix. -/
structure IsCanonicalProduct (s : Settings) (c : Coefficient) (rest : List Term) : Prop where
  two_le : 2 ≤ (numbered c rest).length
  of?_eq : Coefficient.of? c.toTerm = some c
  flat : AreFlat rest
  unmarked : poison? rest = none
  merged : hasMatrix rest = false →
    c.isZero = false ∧ (rest.Pairwise fun t u => (asPower t).1 ≠ (asPower u).1) ∧
      sortBy Term.compare rest = rest ∧ LeavesAlone s rest

theorem productOf_of_two_le {factors : List Term} (h : 2 ≤ factors.length) :
    Term.productOf factors = .product factors := by
  match factors, h with
  | _ :: _ :: _, _ => rfl

theorem scaledBy_of_two_le {c : Coefficient} {rest : List Term}
    (h : 2 ≤ (numbered c rest).length) : scaledBy c rest = .product (numbered c rest) := by
  unfold numbered at h ⊢
  match rest with
  | [] => split at h <;> simp at h
  | t :: ts =>
    rw [scaledBy_cons]
    split at h
    case isTrue hone => rw [if_pos hone, if_pos hone, productOf_of_two_le h]
    case isFalse hone => rw [if_neg hone, if_neg hone]

theorem IsCanonicalProduct.mul_eq {c : Coefficient} {rest : List Term}
    (h : IsCanonicalProduct s c rest) :
    (mul s (numbered c rest)).value = .product (numbered c rest) := by
  show (mulWith s _ _ (numbered c rest)).value = _
  have habsorb := h.flat.absorb_numbered h.of?_eq
  cases hmatrix : hasMatrix rest with
  | true =>
    have hproduct : (matrixProduct c rest).value = Term.productOf (numbered c rest) := by
      unfold matrixProduct numbered
      split <;> simp
    unfold mulWith
    rw [habsorb]
    simp only [h.unmarked, hmatrix, if_true, hproduct]
    exact productOf_of_two_le h.two_le
  | false =>
    obtain ⟨hzero, hbases, hsorted, hleaves⟩ := h.merged hmatrix
    have hstandard : AreStandard rest :=
      { toAreFlat := h.flat
        plain := isPlain_of_unmarked h.unmarked hmatrix
        bases_differ := hbases
        sorted := hsorted }
    rw [hstandard.mulWith_eq hleaves hzero _ _ habsorb]
    exact scaledBy_of_two_le h.two_le

/-! ### Powers of numbers -/

/-- The reasons why a rational power of a rational is left as it is. -/
inductive LeavesRational (s : Settings) (b e : Rat) : Prop
  /-- A whole power is too large. -/
  | large {n : Int} (hrange : Rational.toInt64Range? e = some n)
    (hlarge : s.fits b n.natAbs = false ∨ Rational.integerPower? b n = none)
  /-- The numerator of the exponent has more than 64 bits. -/
  | range (hroot : Rational.toInt64Range? e = none)
    (hrange : Integer.toInt64Range? e.num = none)
  /-- The index of the root is too large. -/
  | index (hroot : Rational.toInt64Range? e = none)
    (hindex : s.limits.maxRootIndex < e.den ∨ Integer.halfWordCount ≤ e.den)
  /-- Roots of negative numbers other than square roots are not drawn in a complex format. -/
  | negative (hroot : Rational.toInt64Range? e = none) (hnegative : b < 0)
    (hformat : s.complexFormat ≠ .real) (hindex : e.den ≠ 2)
  /-- The root is too large. -/
  | largeRoot (hroot : Rational.toInt64Range? e = none)
    (hsign : 0 < b ∨ b < 0 ∧ s.complexFormat = .real ∧ e.den % 2 = 1 ∧ e.num % 2 = 0)
    (hlarge : s.fits b.abs ((e.num / (e.den : Int)).natAbs + e.den) = false)
  /-- Nothing can be drawn out of a root of a natural number. -/
  | root {m k : Nat} (hbase : b = m) (hexponent : e = 1 / k) (hm : 2 ≤ m) (hk : 2 ≤ k)
    (hsplit : splitPower m k = (1, m)) (hlower : lowerIndex m k = (m, k))


section Powers

variable {pow : Term → Term → Build Term} {mul : List Term → Build Term} {b e : Rat}
  {unreduced : Build Term}

theorem radical_of_large {p : Int} {q : Nat} (h : s.fits b ((p / (q : Int)).natAbs + q) = false) :
    radical s b p q unreduced = unreduced := by
  unfold radical
  simp [h]

/-- Drawing a root of a natural number out of which nothing can be drawn builds the root. -/
theorem radical_of_drawn {m k : Nat} (hm : 2 ≤ m) (hk : 2 ≤ k) (hsplit : splitPower m k = (1, m))
    (hlower : lowerIndex m k = (m, k))
    (hunreduced : unreduced.value = .power (.number m) (.number (1 / k))) :
    (radical s m 1 k unreduced).value = .power (.number m) (.number (1 / k)) := by
  have hwhole : (1 : Int) / (k : Int) = 0 := Int.ediv_eq_zero_of_lt (by omega) (by omega)
  have hremainder : (1 : Int) % (k : Int) = 1 := Int.emod_eq_of_lt (by omega) (by omega)
  have hpower : Rational.integerPower? (m : Rat) 0 = some 1 := by
    simp [Rational.integerPower?, Integer.halfWordCount, Rat.pow]
  have hradicand : Nat.pow (m : Rat).num.natAbs (1 : Int).toNat *
      Nat.pow (m : Rat).den (k - (1 : Int).toNat) = m := by
    simp
  have hinside : m ≠ 1 := by omega
  unfold radical
  simp only [hwhole, hremainder, hpower, hradicand, hsplit, hlower, if_neg hinside]
  split
  · exact hunreduced
  · simp

/-- The power with a fraction as exponent is a root that is drawn, unless it is left as it is. -/
theorem rationalPower_of_fraction (hzero : b ≠ 0) (hroot : Rational.toInt64Range? e = none) :
    rationalPower s pow mul b e unreduced = unreduced ∨
      (Integer.toInt64Range? e.num ≠ none ∧
        ¬ (s.limits.maxRootIndex < e.den ∨ Integer.halfWordCount ≤ e.den) ∧
        rationalPower s pow mul b e unreduced =
          if b < 0 then negativePower s pow mul b e.num e.den unreduced
          else radical s b e.num e.den unreduced) := by
  unfold rationalPower
  rw [if_neg hzero, hroot]
  dsimp only
  cases hp : Integer.toInt64Range? e.num with
  | none => exact .inl rfl
  | some p =>
    obtain rfl : e.num = p := by
      unfold Integer.toInt64Range? at hp
      split_ifs at hp
      exact Option.some.inj hp
    by_cases hindex : s.limits.maxRootIndex < e.den ∨ Integer.halfWordCount ≤ e.den
    · exact .inl (if_pos hindex)
    · exact .inr ⟨nofun, hindex, if_neg hindex⟩

theorem LeavesRational.rationalPower_eq (h : LeavesRational s b e) (hzero : b ≠ 0)
    (hunreduced : unreduced.value = .power (.number b) (.number e)) :
    (rationalPower s pow mul b e unreduced).value = .power (.number b) (.number e) := by
  cases h with
  | large hrange hlarge =>
    unfold rationalPower
    rw [if_neg hzero, hrange]
    dsimp only
    split
    · exact hunreduced
    · rename_i hfits
      rw [hlarge.resolve_left (by simpa using hfits)]
      exact hunreduced
  | range hroot hrange =>
    rcases rationalPower_of_fraction hzero hroot with heq | ⟨hnum, -⟩
    · rw [heq, hunreduced]
    · exact absurd hrange hnum
  | index hroot hindex =>
    rcases rationalPower_of_fraction hzero hroot with heq | ⟨-, hsmall, -⟩
    · rw [heq, hunreduced]
    · exact absurd hindex hsmall
  | negative hroot hnegative hformat hindex =>
    rcases rationalPower_of_fraction hzero hroot with heq | ⟨-, -, heq⟩
    · rw [heq, hunreduced]
    · rw [heq, if_pos hnegative, negativePower]
      simp only [if_neg hformat, if_neg hindex, ite_self]
      exact hunreduced
  | largeRoot hroot hsign hlarge =>
    rcases rationalPower_of_fraction hzero hroot with heq | ⟨-, -, heq⟩
    · rw [heq, hunreduced]
    · rw [heq]
      rcases hsign with hpositive | ⟨hnegative, hformat, hodd, heven⟩
      · rw [show b.abs = b by simp [Rat.abs, hpositive.le]] at hlarge
        rw [if_neg hpositive.not_gt, radical_of_large hlarge, hunreduced]
      · rw [if_pos hnegative, negativePower]
        simp only [if_pos hformat, if_pos hodd, Build.value_bind, if_pos heven,
          radical_of_large hlarge]
        exact hunreduced
  | @root m k hbase hexponent hm hk hsplit hlower =>
    subst hbase hexponent
    have hnum : (1 / (k : Rat)).num = 1 := by
      rw [one_div, Rat.inv_natCast_num_of_pos (by omega)]
    have hden : (1 / (k : Rat)).den = k := by
      rw [one_div, Rat.inv_natCast_den_of_pos (by omega)]
    have hroot : Rational.toInt64Range? (1 / (k : Rat)) = none := by
      rw [Rational.toInt64Range?, Rational.toInt?, if_neg (by omega)]
      rfl
    rcases rationalPower_of_fraction hzero hroot with heq | ⟨-, -, heq⟩
    · rw [heq, hunreduced]
    · rw [heq, if_neg (not_lt.2 (Nat.cast_nonneg m)), hnum, hden]
      exact radical_of_drawn hm hk hsplit hlower hunreduced

end Powers

/-! ### Powers -/

/-- The powers with exact exponents other than zero and one that are left as they are, unless the
    base is a number. -/
def LeavesExact (s : Settings) (e : Rat) : Term → Prop
  | .constant .i | .power _ _ => Rational.toInt? e = none
  | .product (.number c :: _) => Rational.toInt? e = none ∧ c < 0
  | .product _ => Rational.toInt? e = none
  | .sum terms => ∀ n, Rational.toInt? e = some n → isExpandable s terms n = false
  | _ => True

/-- The rules of powers.  Nothing is computed where the base or the exponent is a matrix. -/
inductive LeavesPower (s : Settings) : Term → Term → Prop
  | matrix {base exponent : Term} (hunmarked : poison? [base, exponent] = none)
    (hmatrix : hasMatrix [base, exponent] = true) : LeavesPower s base exponent
  | symbolic {base exponent : Term} (hbase : IsPlain base) (hexponent : IsPlain exponent)
    (hone : base.isOne = false) (hnumeric : exponent.isNumeric = false) :
    LeavesPower s base exponent
  | number {b e : Rat} (hzero : b ≠ 0) (hone : b ≠ 1) (hexponent : e ≠ 0) (hfirst : e ≠ 1)
    (hleaves : LeavesRational s b e) : LeavesPower s (.number b) (.number e)
  | exact {base : Term} {e : Rat} (hbase : IsPlain base) (hnumeric : base.isNumeric = false)
    (hexponent : e ≠ 0) (hfirst : e ≠ 1) (hleaves : LeavesExact s e base) :
    LeavesPower s base (.number e)
  /-- Roots of approximate negative numbers are not drawn in a complex format. -/
  | approximate {base exponent : Term} (hbase : base.isNumeric = true)
    (hexponent : exponent.isNumeric = true)
    (hdecimal : ∃ bits, base = .decimal bits ∨ exponent = .decimal bits)
    (hone : base.isOne = false) (hzero : exponent.isZero = false)
    (hfirst : exponent.isOne = false) (hnegative : numericDouble base < 0)
    (hwhole : Binary64.isWhole (numericDouble exponent) = false)
    (hformat : s.complexFormat ≠ .real) : LeavesPower s base exponent

theorem LeavesExact.toInt?_eq_none {factors : List Term} {e : Rat}
    (h : LeavesExact s e (.product factors)) : Rational.toInt? e = none := by
  unfold LeavesExact at h
  split at h
  case h_3 => exact h.1
  case h_4 => exact h
  all_goals simp_all

theorem LeavesExact.exactPower_eq {base : Term} {e : Rat} (h : LeavesExact s e base)
    (pow : Term → Term → Build Term) (mul : List Term → Build Term) :
    (exactPower s pow mul base e).value = .power base (.number e) := by
  unfold exactPower
  split
  case h_1 n he => exact absurd (he.symm.trans h) nofun
  case h_2 n he => exact absurd (he.symm.trans h) nofun
  case h_3 n he => exact absurd (he.symm.trans h.toInt?_eq_none) nofun
  case h_4 c rest he =>
    rw [if_neg (not_le.2 h.2)]
    rfl
  case h_5 terms n he =>
    rw [h n he]
    rfl
  case h_6 => rfl

theorem isPlain_of_isNumeric {t : Term} (h : t.isNumeric = true) : IsPlain t := by
  cases t <;> first | exact trivial | cases h

theorem beq_zero_of_neg {x : Float} (h : x < 0) : (x == 0) = false := by
  have hlt : (x.toModel.unpack.compare (0 : Float).toModel.unpack == some .lt) = true :=
    of_decide_eq_true h
  show (x.toModel.unpack.compare (0 : Float).toModel.unpack == some .eq) = false
  rw [eq_of_beq hlt]
  rfl

theorem decimalPower_of_negative {x y : Float} (hnegative : x < 0)
    (hwhole : Binary64.isWhole y = false) (hformat : s.complexFormat ≠ .real)
    (unreduced : Build Term) : decimalPower s x y unreduced = unreduced := by
  unfold decimalPower
  simp [beq_zero_of_neg hnegative, hnegative, hwhole, hformat]

theorem isPlain_pair {base exponent : Term} (hbase : IsPlain base) (hexponent : IsPlain exponent) :
    ∀ t ∈ [base, exponent], IsPlain t :=
  List.forall_mem_cons.2 ⟨hbase, List.forall_mem_singleton.2 hexponent⟩

theorem LeavesPower.pow_eq {base exponent : Term} (h : LeavesPower s base exponent) :
    (pow s base exponent).value = .power base exponent := by
  show (powWith s _ _ base exponent).value = _
  unfold powWith
  cases h with
  | matrix hunmarked hmatrix =>
    simp only [hunmarked, hmatrix, if_true, Build.value_make]
  | symbolic hbase hexponent hone hnumeric =>
    have hplain := isPlain_pair hbase hexponent
    have hzero : exponent.isZero = false ∧ exponent.isOne = false := by
      cases exponent <;> first | exact ⟨rfl, rfl⟩ | cases hnumeric
    simp only [poison?_eq_none hplain, hasMatrix_eq_false hplain, hzero, hone, Bool.or_false,
      Bool.false_eq_true, if_false]
    split
    · cases hnumeric
    · cases hnumeric
    · rw [hnumeric, Bool.and_false]
      rfl
  | @number b e hzero hone hexponent hfirst hleaves =>
    have hplain : ∀ t ∈ [Term.number b, .number e], IsPlain t := isPlain_pair trivial trivial
    have hisZero : (Term.number e).isZero = false := decide_eq_false hexponent
    have hisOne : (Term.number e).isOne = false := decide_eq_false hfirst
    have hbase : (Term.number b).isOne = false := decide_eq_false hone
    simp only [poison?_eq_none hplain, hasMatrix_eq_false hplain, hisZero, hisOne, hbase,
      Bool.or_false, Bool.false_eq_true, if_false]
    exact hleaves.rationalPower_eq hzero rfl
  | @exact base e hbase hnumeric hexponent hfirst hleaves =>
    have hplain : ∀ t ∈ [base, Term.number e], IsPlain t := isPlain_pair hbase trivial
    have hisZero : (Term.number e).isZero = false := decide_eq_false hexponent
    have hisOne : (Term.number e).isOne = false := decide_eq_false hfirst
    have hone : base.isOne = false := by
      cases base <;> first | rfl | cases hnumeric
    simp only [poison?_eq_none hplain, hasMatrix_eq_false hplain, hisZero, hisOne, hone,
      Bool.or_false, Bool.false_eq_true, if_false]
    split
    · cases hnumeric
    · rename_i heq
      cases heq
      rw [hnumeric]
      exact hleaves.exactPower_eq _ _
    · rename_i hnot _
      exact absurd rfl (hnot _)
  | approximate hbase hexponent hdecimal hone hzero hfirst hnegative hwhole hformat =>
    have hplain := isPlain_pair (isPlain_of_isNumeric hbase) (isPlain_of_isNumeric hexponent)
    simp only [poison?_eq_none hplain, hasMatrix_eq_false hplain, hone, hzero, hfirst,
      Bool.or_false, Bool.false_eq_true, if_false]
    split
    · obtain ⟨bits, hbits | hbits⟩ := hdecimal <;> cases hbits
    · rw [if_pos hbase]
      exact congrArg Build.value (decimalPower_of_negative hnegative hwhole hformat _)
    · rw [hbase, hexponent]
      exact congrArg Build.value (decimalPower_of_negative hnegative hwhole hformat _)

/-! ### Functions -/

/-- The values of functions that are left as they are: no exact value is known, and the value at a
    double is complex. -/
def LeavesValue (s : Settings) (f : Function) : Term → Prop
  | .decimal bits =>
    let z := f.value (.ofReal (Float.ofBits bits)) s.angleUnit
    z.isFinite = true ∧ isNegligible z.im z.re = false ∧ s.complexFormat ≠ .real
  | argument => exactValue? s f argument = none

/-- The rules of functions.  Nothing is computed where the argument is a matrix. -/
structure LeavesFunction (s : Settings) (f : Function) (argument : Term) : Prop where
  unmarked : poison? [argument] = none
  leaves : hasMatrix [argument] = false → LeavesValue s f argument

theorem LeavesFunction.apply_eq {f : Function} {argument : Term}
    (h : LeavesFunction s f argument) :
    (apply s f argument).value = .apply f argument := by
  unfold apply
  rw [h.unmarked]
  dsimp only
  split
  case h_1 => rfl
  case h_2 bits =>
    obtain ⟨hfinite, hnegligible, hformat⟩ := h.leaves rfl
    unfold decimalValue
    simp [hfinite, hnegligible, hformat]
  case h_3 hmatrix hdecimal =>
    have hleaves : LeavesValue s f argument := h.leaves (by
      cases argument <;> first | rfl | exact absurd rfl (hmatrix _ _ _))
    have hnone : exactValue? s f argument = none := by
      cases argument <;> first | exact hleaves | exact absurd rfl (hdecimal _)
    rw [hnone]
    rfl

/-! ### Canonical terms -/

/-- The rules of the standard form for the parts of a term. -/
def IsCanonicalAt (s : Settings) : Term → Prop
  | .sum terms => IsCanonicalSum terms
  | .product factors => ∃ c rest, factors = numbered c rest ∧ IsCanonicalProduct s c rest
  | .power base exponent => LeavesPower s base exponent
  | .apply f argument => LeavesFunction s f argument
  | .negation _ | .quotient _ _ => False
  | _ => True

/-- All parts of the term obey the rules of the standard form. -/
def IsCanonical (s : Settings) : Term → Prop :=
  Everywhere (IsCanonicalAt s)

mutual

/-- Reduction leaves a canonical term as it is. -/
theorem reduceKept_of_isCanonical : ∀ t : Term, IsCanonical s t → (reduceKept s t).value = t
  | .number _, _ | .decimal _, _ | .constant _, _ | .symbol _, _ | .undefined, _ | .nonreal, _ => by
    simp [reduceKept]
  | .sum terms, h => by
    have hterms := reduceKeptAll_of_isCanonical terms fun t ht => h.of_mem_children ht
    have hsum : IsCanonicalSum terms := h.self
    rw [reduceKept, Build.value_bind, hterms, hsum.add_eq]
  | .product factors, h => by
    have hfactors := reduceKeptAll_of_isCanonical factors fun t ht => h.of_mem_children ht
    obtain ⟨c, rest, heq, hproduct⟩ := h.self
    rw [reduceKept, Build.value_bind, hfactors, heq, hproduct.mul_eq]
  | .power base exponent, h => by
    have hbase := reduceKept_of_isCanonical base (h.of_mem_children List.mem_cons_self)
    have hexponent := reduceKept_of_isCanonical exponent
      (h.of_mem_children (List.mem_cons_of_mem _ List.mem_cons_self))
    have hpower : LeavesPower s base exponent := h.self
    rw [reduceKept, Build.value_bind, Build.value_bind, hbase, hexponent, hpower.pow_eq]
  | .apply f argument, h => by
    have hargument := reduceKept_of_isCanonical argument (h.of_mem_children List.mem_cons_self)
    have hfunction : LeavesFunction s f argument := h.self
    rw [reduceKept, Build.value_bind, hargument, hfunction.apply_eq]
  | .matrix rows columns entries, h => by
    have hentries := reduceKeptAll_of_isCanonical entries fun t ht => h.of_mem_children ht
    rw [reduceKept, Build.value_bind, hentries, Build.value_make]
  | .negation _, h => h.self.elim
  | .quotient _ _, h => h.self.elim

theorem reduceKeptAll_of_isCanonical : ∀ terms : List Term, (∀ t ∈ terms, IsCanonical s t) →
    (reduceKeptAll s terms).value = terms
  | [], _ => by simp [reduceKeptAll]
  | t :: ts, h => by
    obtain ⟨ht, hts⟩ := List.forall_mem_cons.1 h
    rw [reduceKeptAll, Build.value_bind, Build.value_bind, reduceKept_of_isCanonical t ht,
      reduceKeptAll_of_isCanonical ts hts, Build.value_pure]

end

end Reduction

end EquationSolver
