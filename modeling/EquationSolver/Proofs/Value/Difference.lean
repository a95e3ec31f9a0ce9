import EquationSolver.Proofs.Matrix.Clearing
import EquationSolver.Proofs.Reading.Approximate
import EquationSolver.Proofs.Reduction.Canonical
import EquationSolver.Proofs.Reduction.Rearrangement
import EquationSolver.Proofs.Reduction.Reuse
import EquationSolver.Proofs.Reduction.Shape
import EquationSolver.Proofs.Value.Principal
import EquationSolver.Proofs.Value.Reduction

/-!
# Differences that are zero

Whether an approximate text denotes an exact value is decided by reducing the difference of the two.
What a real or cartesian text is read as has a value in the field of the complex numbers, which
reduction keeps.  A power of Euler's number has none; but as no part of an exact value is like it,
nothing in the difference cancels it.  In the same way nothing cancels a part of the exact term that
has no value, if reducing the term again has left it as it was: so a difference that is zero shows
that there is a value.
-/

namespace EquationSolver

namespace Reduction

open Reading

/-! ### Terms that do not cancel -/

section Cancel

variable {s : Settings} {e r t u body : Term} {c : Rat}

/-- What the coefficients of a body in a sum add up to. -/
def coefficientOf (body t : Term) : Rat :=
  total (some body) ((summands t).map exactPart)

/-- The term can be added, and the coefficients of what it adds are exact. -/
def HasExactTerms (t : Term) : Prop :=
  ∀ u ∈ summands t, IsPlain u ∧ (splitTerm u).value.1.IsExact

theorem isNumeric_joinTerm (c : Coefficient) (hnumeric : body.isNumeric = false)
    (hempty : body ≠ .product []) : (joinTerm c (some body)).value.isNumeric = false := by
  refine joinTerm_cases (P := fun t => t.isNumeric = false) ?_ ?_ ?_ ?_
  · intro hnone
    cases hnone
  · intro t ht _
    exact Option.some.inj ht ▸ hnumeric
  · intro factors hfactors _
    cases factors with
    | nil => exact absurd (Option.some.inj hfactors) hempty
    | cons => rfl
  · intros
    rfl

/-- A sum is not a number if it has a body whose coefficients do not cancel. -/
theorem isNumeric_add (he : HasExactTerms e) (hr : HasExactTerms r)
    (hnumeric : body.isNumeric = false) (hempty : body ≠ .product [])
    (hne : coefficientOf body e + coefficientOf body r ≠ 0) :
    (add [e, r]).value.isNumeric = false := by
  have hsummands : [e, r].flatMap summands = summands e ++ summands r := by
    rw [List.flatMap_cons, List.flatMap_singleton]
  have hterms : ∀ u ∈ [e, r].flatMap summands, IsPlain u ∧ (splitTerm u).value.1.IsExact := by
    rw [hsummands]
    exact List.forall_mem_append.2 ⟨he, hr⟩
  have htotal : total (some body) (([e, r].flatMap summands).map exactPart) =
      coefficientOf body e + coefficientOf body r := by
    rw [hsummands, List.map_append, total_append]
    rfl
  have hpart : (some body, Coefficient.exact (coefficientOf body e + coefficientOf body r)) ∈
      collectedParts [e, r] := by
    refine (isTally_exactParts fun u hu => (hterms u hu).2).mem_kept_iff.2 ?_
    rw [htotal]
    exact ⟨rfl, hne⟩
  rw [add_value fun u hu => (hterms u hu).1]
  exact Term.isNumeric_sumOf ((sortWith_perm _ _ _).mem_iff.2 (List.mem_map.2 ⟨_, hpart, rfl⟩))
    (isNumeric_joinTerm _ hnumeric hempty)

/-! A term with a value has no body without one. -/

section Values

variable {K : Type*} [Field K] {R : Reading K}

theorem hasExactTerms_of_hasValue (h : R.HasValue t) : HasExactTerms t := fun _ hu =>
  have hvalue := hasValue_of_mem_summands h hu
  ⟨R.isPlain hvalue, (splitTerm_value hvalue).1.exact⟩

theorem coefficientOf_eq_zero (h : R.HasValue t) (hbody : ¬ R.HasValue body) :
    coefficientOf body t = 0 := by
  refine total_of_not_mem fun item hitem heq => hbody ?_
  obtain ⟨u, hu, rfl⟩ := List.mem_map.1 hitem
  exact (splitTerm_value (hasValue_of_mem_summands h hu)).1.hasValue body heq

end Values

/-! A multiple of a body has no other. -/

theorem splitTerm_termOf (h : IsStandardTerm s (c, [t])) :
    (splitTerm (termOf (c, [t]))).value = (.exact c, some t) := by
  rw [termOf, ← Term.scaledBy_exact, h.standard.toAreFlat.splitTerm_scaledBy rfl]
  rfl

theorem hasExactTerms_termOf (h : IsStandardTerm s (c, [t])) :
    HasExactTerms (termOf (c, [t])) := by
  rw [HasExactTerms, summands_of_not_isSum h.isSum_eq, List.forall_mem_singleton,
    splitTerm_termOf h]
  exact ⟨h.isPlain, c, rfl⟩

theorem coefficientOf_termOf (h : IsStandardTerm s (c, [t])) :
    coefficientOf body (termOf (c, [t])) = if t = body then c else 0 := by
  rw [coefficientOf, summands_of_not_isSum h.isSum_eq, List.map_singleton, exactPart,
    splitTerm_termOf h]
  by_cases heq : t = body <;> simp [total, heq]

/-! In a reduced term each body has its own coefficient, which is not zero. -/

theorem isDecimalFree_of_everywhere (h : t.Everywhere IsExactNode) : t.IsDecimalFree := by
  refine Term.contains_eq_false_iff.2 fun u hu => ?_
  have hnode : IsExactNode u := h u hu
  cases u with
  | decimal bits => exact hnode.elim
  | _ => rfl

theorem hasExactTerms_of_everywhere (h : t.Everywhere IsExactNode) : HasExactTerms t := by
  have hterms : ∀ u ∈ summands t, u.Everywhere IsExactNode := by
    cases t with
    | sum terms => exact fun u hu => h.of_mem_children hu
    | _ => exact List.forall_mem_singleton.2 h
  exact fun u hu => ⟨(hterms u hu).self.isPlain,
    (isDecimalFreePart_splitTerm (isDecimalFree_of_everywhere (hterms u hu))).exact⟩

theorem coefficientOf_ne_zero (h : AreCollected (summands t)) (hexact : HasExactTerms t)
    (hu : u ∈ summands t) (hbody : (splitTerm u).value.2 = some body) :
    coefficientOf body t ≠ 0 := by
  have hsplit := splitTerm_eq_exactPart (hexact u hu).2
  have hnodup : (((summands t).map exactPart).map Prod.snd).Nodup := by
    rw [List.map_map]
    exact h.nodup
  have htotal := total_of_nodup hnodup (List.mem_map_of_mem hu)
  have hnonzero := h.nonzero u hu
  rw [hsplit] at hbody hnonzero
  rw [coefficientOf, ← hbody, htotal]
  simpa [Coefficient.isZero] using hnonzero

end Cancel

/-! ### Gaussian terms without a value -/

section Gaussian

variable {e r t u body : Term} {factors : List Term}

theorem everywhere_isExactNode (h : t.IsGaussian) : t.Everywhere IsExactNode := by
  induction h with
  | number | i => exact .of_isAtom rfl trivial
  | sum _ ih | product _ ih => exact .of_parts trivial ih
  | power n _ ih => exact .of_parts trivial (IsInherited.pair ih (.of_isAtom rfl trivial))

theorem isGaussian_of_mem_summands (h : t.IsGaussian) (hu : u ∈ summands t) : u.IsGaussian := by
  cases h with
  | sum h => exact h u hu
  | _ =>
    rw [List.mem_singleton.1 hu]
    constructor <;> assumption

theorem isGaussian_productOf (h : ∀ t ∈ factors, t.IsGaussian) :
    (Term.productOf factors).IsGaussian := by
  match factors, h with
  | [], _ => exact .number 1
  | [t], h => exact h t List.mem_cons_self
  | _ :: _ :: _, h => exact .product h

theorem hasValue_of_productOf {K : Type*} [Field K] {ρ : Assignment K}
    (h : (Term.productOf factors).HasValue ρ) : ∀ t ∈ factors, t.HasValue ρ := by
  match factors, h with
  | [], _ => exact List.forall_mem_nil _
  | [t], h => exact List.forall_mem_singleton.2 h
  | _ :: _ :: _, h => exact Term.hasValue_product.1 h

theorem exists_summand (hnone : ¬ t.HasValue .complex) :
    ∃ u ∈ summands t, ¬ u.HasValue .complex := by
  cases t with
  | sum terms =>
    by_contra! hall
    exact hnone (Term.hasValue_sum.2 hall)
  | _ => exact ⟨_, List.mem_singleton_self _, hnone⟩

/-- A term without a value has a body without one. -/
theorem exists_body (ht : t.IsGaussian) (hnone : ¬ t.HasValue .complex) : ∃ body : Term,
    (splitTerm t).value.2 = some body ∧ body.IsGaussian ∧ ¬ body.HasValue .complex := by
  refine splitTerm_cases (P := fun body _ => ∃ t, body = some t ∧ t.IsGaussian ∧
    ¬ t.HasValue .complex) ?_ ?_ ?_
  · intro c hc
    cases ht with
    | number a => exact absurd trivial hnone
    | _ => cases hc
  · rintro first rest c rfl hc
    cases ht with
    | product hfactors =>
      obtain ⟨hfirst, hrest⟩ := List.forall_mem_cons.1 hfactors
      refine ⟨_, rfl, isGaussian_productOf hrest, fun hvalue => hnone ?_⟩
      cases hfirst with
      | number a =>
        exact Term.hasValue_product.2
          (List.forall_mem_cons.2 ⟨trivial, hasValue_of_productOf hvalue⟩)
      | _ => cases hc
  · exact fun _ _ => ⟨t, rfl, ht, hnone⟩

/-- The term can be added, and the bodies in it that are built from numbers and the imaginary unit
    have values. -/
structure HasGaussianValues (t : Term) : Prop where
  exact : HasExactTerms t
  coefficientOf_eq_zero : ∀ body : Term, body.IsGaussian → ¬ body.HasValue .complex →
    coefficientOf body t = 0

theorem hasGaussianValues_of_hasValue (h : t.HasValue .complex) : HasGaussianValues t := by
  have hreading : (Assignment.complex).valuation.reading.HasValue t :=
    (Assignment.hasValue_valuation t).2 h
  refine ⟨hasExactTerms_of_hasValue hreading, fun body _ hbody => ?_⟩
  exact coefficientOf_eq_zero hreading fun hvalue =>
    hbody ((Assignment.hasValue_valuation body).1 hvalue)

/-- A reduced term without a value has a body without one, which nothing cancels that has only
    bodies with values. -/
theorem hasValue_of_add (he : e.IsGaussian) (hshaped : e.Everywhere IsShaped)
    (hunlike : e.Everywhere HasUnlikeTerms) (hr : HasGaussianValues r)
    (hnumeric : (add [e, r]).value.isNumeric = true) : e.HasValue .complex := by
  by_contra hnone
  obtain ⟨u, hu, hnone'⟩ := exists_summand hnone
  obtain ⟨body, hsplit, hbody, hvalueless⟩ :=
    exists_body (isGaussian_of_mem_summands he hu) hnone'
  have hexact := everywhere_isExactNode he
  have hterms := hasExactTerms_of_everywhere hexact
  have hzero : e.isZero = false := by
    cases he with
    | number a => exact absurd trivial hnone
    | _ => rfl
  have hcoefficient := coefficientOf_ne_zero
    (areCollected_summands hshaped hunlike hexact hzero) hterms hu hsplit
  have hshape : IsBody body := by
    refine isBody_splitTerm ?_ body hsplit
    cases e with
    | sum terms => exact hshaped.of_mem_children hu
    | _ => exact List.mem_singleton.1 hu ▸ hshaped
  have hempty : body ≠ .product [] := by
    rintro rfl
    exact absurd hshape.shaped.self.1 (by decide)
  rw [isNumeric_add hterms hr.exact hshape.not_numeric hempty
    (by rwa [hr.coefficientOf_eq_zero body hbody hvalueless, add_zero])] at hnumeric
  cases hnumeric

end Gaussian

/-! ### What has been read -/

variable {s : Settings} {t u : Term}

@[simp] theorem value_reduceKept_negation (t : Term) : (reduceKept s (.negation t)).value =
    (mul s [.number (-1), (reduceKept s t).value]).value := by
  simp [reduceKept]

@[simp] theorem value_reduceKept_sum (terms : List Term) : (reduceKept s (.sum terms)).value =
    (add (terms.map fun t => (reduceKept s t).value)).value := by
  simp [reduceKept, value_reduceKeptAll]

@[simp] theorem value_reduceKept_product (factors : List Term) :
    (reduceKept s (.product factors)).value =
      (mul s (factors.map fun t => (reduceKept s t).value)).value := by
  simp [reduceKept, value_reduceKeptAll]

@[simp] theorem value_reduceKept_power (base exponent : Term) :
    (reduceKept s (.power base exponent)).value =
      (pow s (reduceKept s base).value (reduceKept s exponent).value).value := by
  simp [reduceKept]

theorem mul_pair_numbers (a b : Rat) :
    (mul s [.number a, .number b]).value = .number (a * b) := by
  simpa using mul_numbers s [a, b]

/-- What has been read has the principal value `w`, and reduces as something with that value in the
    field of the complex numbers, or to a multiple of a power that has none; or else it reduces to
    nothing that is defined. -/
inductive Settles (s : Settings) (t : Term) : Prop
  | value {u : Term} {w : ℂ} (ht : Term.Principal.Denotes t w) (hu : u.Denotes .complex w)
    (hsame : (reduceKept s t).value = (reduceKept s u).value) : Settles s t
  | power {c : Rat} {exponent : Term} {w : ℂ} (ht : Term.Principal.Denotes t w)
    (hreduced : (reduceKept s t).value = termOf (c, [.power (.constant .e) exponent]))
    (hstandard : IsStandardTerm s (c, [.power (.constant .e) exponent]))
    (hnumeric : exponent.isNumeric = false) : Settles s t
  | undefined (h : (reduceKept s t).value = .undefined) : Settles s t

/-- A signed magnitude is a number, unless it has no value. -/
theorem number_of_isSignedMagnitude (h : IsSignedMagnitude t) :
    (∃ a : Rat, Term.Principal.Denotes t a ∧ (reduceKept s t).value = .number a) ∨
      ((reduceKept s t).value = .undefined ∧ ¬ Term.Principal.HasValue t) := by
  obtain ⟨u, negative, hu, rfl⟩ := h
  cases hu with
  | number a =>
    refine .inl ?_
    cases negative with
    | false => exact ⟨a, Term.Principal.denotes_number a, by simp⟩
    | true =>
      refine ⟨-a, ?_, by simp [mul_pair_numbers]⟩
      simpa using (Term.Principal.denotes_number a).negation
  | undefined =>
    refine .inr ?_
    have hreduced : (reduceKept s .undefined).value = .undefined := by simp [reduceKept]
    cases negative with
    | false => exact ⟨hreduced, id⟩
    | true =>
      refine ⟨?_, id⟩
      rw [Term.signed_true, value_reduceKept_negation, hreduced, mul_of_undefined (by simp)]

/-- What a real or cartesian text is read as has a value in the field of the complex numbers, unless
    it has none at all. -/
theorem hasValue_of_isCartesian (h : IsCartesian t) :
    (t.HasValue .complex ∧ Term.Principal.Denotes t (t.value .complex)) ∨
      (reduceKept s t).value = .undefined := by
  induction h with
  | magnitude h =>
    cases h with
    | number a => exact .inl ⟨trivial, trivial, rfl⟩
    | undefined => exact .inr (by simp [reduceKept])
  | i => exact .inl ⟨trivial, trivial, rfl⟩
  | negation _ ih =>
    rcases ih with ⟨hvalue, hdenotes⟩ | hundefined
    · exact .inl ⟨hvalue, hdenotes.negation⟩
    · exact .inr (by simp [hundefined, mul_of_undefined])
  | sum _ _ iht ihu =>
    rcases iht with ⟨ht, htdenotes⟩ | hundefined
    · rcases ihu with ⟨hu, hudenotes⟩ | hundefined
      · refine .inl ⟨?_, ?_⟩
        · simp [ht, hu]
        · simpa using htdenotes.sum hudenotes
      · exact .inr (by simp [hundefined, add_of_undefined])
    · exact .inr (by simp [hundefined, add_of_undefined])
  | product _ _ iht ihu =>
    rcases iht with ⟨ht, htdenotes⟩ | hundefined
    · rcases ihu with ⟨hu, hudenotes⟩ | hundefined
      · refine .inl ⟨?_, ?_⟩
        · simp [ht, hu]
        · simpa using htdenotes.product hudenotes
      · exact .inr (by simp [hundefined, mul_of_undefined])
    · exact .inr (by simp [hundefined, mul_of_undefined])

theorem settles_of_isCartesian (h : IsCartesian t) : Settles s t := by
  rcases hasValue_of_isCartesian (s := s) h with ⟨hvalue, hdenotes⟩ | hundefined
  · exact .value hdenotes (.of_hasValue hvalue) rfl
  · exact .undefined hundefined

/-! ### Polar form -/

theorem isStandardTerm_singleton {c : Rat} (hc : c ≠ 0) (hplain : IsPlain t)
    (hnumeric : t.isNumeric = false) (hproduct : ∀ ts, t ≠ .product ts) (hsum : t.isSum = false) :
    IsStandardTerm s (c, [t]) :=
  isStandardTerm_of_no_sums hc (areStandard_singleton hplain hnumeric hproduct)
    (List.forall_mem_singleton.2 hsum)

theorem termOf_one (t : Term) : termOf (1, [t]) = t := by
  rw [termOf, Term.scaled_cons, if_pos rfl, Term.productOf]

/-- A number times a factor that a product keeps as it is. -/
theorem mul_number_of_isStandardTerm {c : Rat} (h : IsStandardTerm s (1, [t])) (hc : c ≠ 0) :
    (mul s [.number c, t]).value = termOf (c, [t]) := by
  have hproduct := (h.mul_number hc (maxDepth - 1)).1
  rwa [multiply, mul_one] at hproduct

theorem mul_zero_of_isStandardTerm (h : IsStandardTerm s (1, [t])) :
    (mul s [.number 0, t]).value = .number 0 := by
  have habsorb := (h.standard.toAreFlat.absorb_number 0 1).1
  have hplain := h.standard.plain
  rw [zero_mul] at habsorb
  show (mulWith s _ _ [.number 0, Term.scaled 1 [t]]).value = _
  unfold mulWith
  rw [habsorb]
  simp only [poison?_eq_none hplain, hasMatrix_eq_false hplain, Bool.false_eq_true, if_false,
    Build.value_bind, h.standard.toAreFlat.mergeRepeatedly_eq h.standard.bases_differ]
  rfl

theorem isStandardTerm_power {c : Rat} (hc : c ≠ 0) (base exponent : Term) :
    IsStandardTerm s (c, [.power base exponent]) :=
  isStandardTerm_singleton hc trivial rfl nofun rfl

/-- A rotation by no angle is the number one, and by any other a power that is left as it is. -/
theorem power_of_isRotation (h : IsRotation t) :
    (∃ w, Term.Principal.Denotes t w ∧ ((reduceKept s t).value = .number 1 ∧ w = 1 ∨
      ∃ exponent : Term, exponent.isNumeric = false ∧
        (reduceKept s t).value = .power (.constant .e) exponent)) ∨
      (reduceKept s t).value = .undefined := by
  obtain ⟨u, hu, rfl⟩ := h
  rcases number_of_isSignedMagnitude (s := s) hu with ⟨θ, hdenotes, hreduced⟩ | ⟨hundefined, -⟩
  · refine .inl ⟨_, (hdenotes.product Term.Principal.denotes_i).exp, ?_⟩
    have hi : IsStandardTerm s (1, [.constant .i]) :=
      isStandardTerm_singleton one_ne_zero trivial rfl nofun rfl
    simp only [value_reduceKept_power, value_reduceKept_product, List.map_cons, List.map_nil,
      hreduced, reduceKept_constant, Build.value_pure]
    rcases eq_or_ne θ 0 with rfl | hθ
    · rw [mul_zero_of_isStandardTerm hi]
      exact .inl ⟨rfl, by simp⟩
    · have hangle : (termOf (θ, [.constant .i])).isNumeric = false := by
        rw [termOf, Term.scaled_cons]
        split_ifs <;> rfl
      have hplain := (isStandardTerm_singleton (s := s) (t := .constant .i) hθ trivial rfl nofun
        rfl).isPlain
      rw [mul_number_of_isStandardTerm hi hθ]
      refine .inr ⟨_, hangle, ?_⟩
      have hbase : IsPlain (.constant .e) := trivial
      exact (LeavesPower.symbolic hbase hplain rfl hangle).pow_eq
  · exact .inr (by simp [hundefined, mul_of_undefined, pow_of_undefined])

theorem settles_of_isPolar (h : IsPolar t) : Settles s t := by
  cases h with
  | rotation h =>
    rcases power_of_isRotation (s := s) h with
      ⟨w, hdenotes, ⟨hone, rfl⟩ | ⟨exponent, hnumeric, hpower⟩⟩ | hundefined
    · exact .value hdenotes ((Term.Denotes.number 1).congr (by simp)) (by simpa using hone)
    · rw [← termOf_one (.power _ _)] at hpower
      exact .power hdenotes hpower (isStandardTerm_power one_ne_zero _ _) hnumeric
    · exact .undefined hundefined
  | @product t u ht hu =>
    rcases number_of_isSignedMagnitude (s := s) ht with ⟨a, hdenotes, hreduced⟩ | ⟨hundefined, -⟩
    · rcases power_of_isRotation (s := s) hu with
        ⟨w, hdenotes', ⟨hone, rfl⟩ | ⟨exponent, hnumeric, hpower⟩⟩ | hundefined
      · refine .value (hdenotes.product hdenotes') ((Term.Denotes.number a).congr (by simp)) ?_
        simp [hreduced, hone, mul_pair_numbers]
      · have hstandard := isStandardTerm_power (s := s) one_ne_zero (.constant .e) exponent
        rcases eq_or_ne a 0 with rfl | ha
        · refine .value (hdenotes.product hdenotes') ((Term.Denotes.number 0).congr (by simp)) ?_
          simp [hreduced, hpower, mul_zero_of_isStandardTerm hstandard]
        · refine .power (hdenotes.product hdenotes') ?_ (isStandardTerm_power ha _ _) hnumeric
          simp [hreduced, hpower, mul_number_of_isStandardTerm hstandard ha]
      · exact .undefined (by simp [hundefined, mul_of_undefined])
    · exact .undefined (by simp [hundefined, mul_of_undefined])

/-! ### Differences -/

/-- Terms with values in the field of the complex numbers have the same one if their difference
    reduces to zero. -/
theorem eq_of_difference_of_denotes {v w : ℂ} (ht : t.Denotes .complex v)
    (hu : u.Denotes .complex w)
    (hzero : (reduceKept s (.sum [t, .negation u])).value = .number 0) : v = w := by
  have hopposite : (Term.negation u).Denotes .complex (-w) :=
    ⟨hu.hasValue, congrArg _ hu.value_eq⟩
  have hdifference : (Term.sum [t, .negation u]).Denotes .complex (v - w) := by
    constructor
    · exact Term.hasValue_sum.2
        (List.forall_mem_cons.2 ⟨ht.hasValue, List.forall_mem_singleton.2 hopposite.hasValue⟩)
    · rw [Term.value_sum, List.map_cons, List.map_singleton, List.sum_pair, ht.value_eq,
        hopposite.value_eq, sub_eq_add_neg]
  have hreduced := reduceKept_denotes (s := s) _ hdifference.hasValue
  rw [hzero, hdifference.value_eq] at hreduced
  exact sub_eq_zero.1 (hreduced.value_eq.symm.trans (by simp))

section Power

variable {c : Rat} {exponent : Term}

theorem reduceKept_opposite_of_power
    (hreduced : (reduceKept s u).value = termOf (c, [.power (.constant .e) exponent]))
    (hstandard : IsStandardTerm s (c, [.power (.constant .e) exponent])) :
    (reduceKept s (.negation u)).value = termOf (-1 * c, [.power (.constant .e) exponent]) ∧
      IsStandardTerm s (-1 * c, [.power (.constant .e) exponent]) := by
  rw [value_reduceKept_negation, hreduced]
  exact ⟨(hstandard.mul_number (by norm_num) (maxDepth - 1)).1,
    isStandardTerm_power (mul_ne_zero (by norm_num) hstandard.ne_zero) _ _⟩

/-- The difference of a term with a value and a multiple of a power without one is not zero. -/
theorem difference_ne_zero_of_power (ht : t.HasValue .complex)
    (hreduced : (reduceKept s u).value = termOf (c, [.power (.constant .e) exponent]))
    (hstandard : IsStandardTerm s (c, [.power (.constant .e) exponent]))
    (hnumeric : exponent.isNumeric = false) :
    (reduceKept s (.sum [t, .negation u])).value ≠ .number 0 := by
  have hexact : (Assignment.complex).valuation.reading.HasValue (reduceKept s t).value :=
    (Assignment.hasValue_valuation _).2 (reduceKept_denotes (s := s) t ht).hasValue
  have hpower : ¬ (Assignment.complex).valuation.reading.HasValue
      (.power (.constant .e) exponent) := by
    intro hvalue
    obtain ⟨q, rfl⟩ := Reading.exists_exponent _ hvalue
    cases hnumeric
  obtain ⟨hopposite, hstandard'⟩ := reduceKept_opposite_of_power hreduced hstandard
  have hcoefficient : coefficientOf (.power (.constant .e) exponent) (reduceKept s t).value +
      coefficientOf (.power (.constant .e) exponent)
        (termOf (-1 * c, [.power (.constant .e) exponent])) ≠ 0 := by
    rw [coefficientOf_eq_zero hexact hpower, coefficientOf_termOf hstandard', if_pos rfl, zero_add]
    exact hstandard'.ne_zero
  have hsum := isNumeric_add (hasExactTerms_of_hasValue hexact) (hasExactTerms_termOf hstandard')
    rfl (by simp) hcoefficient
  intro hzero
  rw [value_reduceKept_sum, List.map_cons, List.map_singleton, hopposite] at hzero
  rw [hzero] at hsum
  cases hsum

end Power

/-- What has been read is subtracted as a term whose Gaussian bodies have values, unless it is
    nothing that is defined. -/
theorem Settles.hasGaussianValues (h : Settles s u) :
    HasGaussianValues (reduceKept s (.negation u)).value ∨
      (reduceKept s (.negation u)).value = .undefined := by
  cases h with
  | @value u' w _ hvalue hsame =>
    have hopposite : (Term.negation u').HasValue .complex := hvalue.hasValue
    have hreduced := (reduceKept_denotes (s := s) _ hopposite).hasValue
    rw [value_reduceKept_negation, ← hsame, ← value_reduceKept_negation] at hreduced
    exact .inl (hasGaussianValues_of_hasValue hreduced)
  | @power c exponent w _ hreduced hstandard hnumeric =>
    obtain ⟨hopposite, hstandard'⟩ := reduceKept_opposite_of_power hreduced hstandard
    rw [hopposite]
    refine .inl ⟨hasExactTerms_termOf hstandard', fun body hbody _ => ?_⟩
    rw [coefficientOf_termOf hstandard', if_neg]
    -- Euler's number is not built from numbers and the imaginary unit
    rintro rfl
    cases hbody with
    | power n hbase => cases hbase
  | undefined hundefined =>
    refine .inr ?_
    rw [value_reduceKept_negation, hundefined, mul_of_undefined (by simp)]

/-- A reduced term that differs by zero from what has been read has a value. -/
theorem Settles.hasValue_of_difference (h : Settles s u) (hgaussian : t.IsGaussian)
    (hshaped : t.Everywhere IsShaped) (hunlike : t.Everywhere HasUnlikeTerms)
    (hkept : (reduceKept s t).value = t)
    (hzero : (reduceKept s (.sum [t, .negation u])).value = .number 0) : t.HasValue .complex := by
  rw [value_reduceKept_sum, List.map_cons, List.map_singleton, hkept] at hzero
  rcases h.hasGaussianValues with hvalues | hundefined
  · exact hasValue_of_add hgaussian hshaped hunlike hvalues (by rw [hzero]; rfl)
  · rw [hundefined, add_of_undefined (by simp)] at hzero
    cases hzero

/-- If the difference of an exact value and what has been read reduces to zero, they are the
    same. -/
theorem Settles.eq_of_difference (h : Settles s u)
    (hzero : (reduceKept s (.sum [t, .negation u])).value = .number 0) :
    ∃ w, Term.Principal.Denotes u w ∧ ∀ v, t.Denotes .complex v → v = w := by
  cases h with
  | @value u' w hu hvalue hsame =>
    refine ⟨w, hu, fun v hv => eq_of_difference_of_denotes (s := s) hv hvalue ?_⟩
    rw [← hzero]
    simp [hsame]
  | power hu hreduced hstandard hnumeric =>
    exact ⟨_, hu, fun v hv =>
      absurd hzero (difference_ne_zero_of_power hv.hasValue hreduced hstandard hnumeric)⟩
  | undefined hundefined =>
    rw [value_reduceKept_sum, List.map_cons, List.map_singleton, value_reduceKept_negation,
      hundefined, mul_of_undefined (by simp), add_of_undefined (by simp)] at hzero
    cases hzero

/-- A number and a signed magnitude that denotes it differ by zero. -/
theorem difference_of_denotes {q : Rat} (h : IsSignedMagnitude t)
    (ht : Term.Principal.Denotes t q) :
    (reduceKept s (.sum [.number q, .negation t])).value = .number 0 := by
  rcases number_of_isSignedMagnitude (s := s) h with ⟨a, hdenotes, hreduced⟩ | ⟨-, hnone⟩
  · obtain rfl : a = q := Rat.cast_injective (hdenotes.unique ht)
    have hsum : (add [.number a, .number (-a)]).value = .number 0 :=
      (add_numbers [a, -a]).trans (by simp)
    simp [hreduced, mul_pair_numbers, hsum]
  · exact absurd ht.hasValue hnone

end Reduction

end EquationSolver
