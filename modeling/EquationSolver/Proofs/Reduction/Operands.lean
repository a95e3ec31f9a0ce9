import EquationSolver.Proofs.Sorting
import EquationSolver.Reduction.Product
import Mathlib.Algebra.BigOperators.Group.List.Basic
import Mathlib.Algebra.Field.Rat
import Mathlib.Algebra.Order.Ring.Rat

/-!
# Sums and products of plain operands

Undefined and nonreal operands decide the result of a sum or a product, and matrices keep
it from being computed.  Among plain operands none of this happens, and the operations are
what their main branch says.
-/

namespace EquationSolver

namespace Reduction

/-- A term that is neither undefined nor nonreal nor a matrix. -/
def IsPlain : Term → Prop
  | .undefined | .nonreal | .matrix _ _ _ => False
  | _ => True

theorem poison?_eq_none {operands : List Term} (h : ∀ t ∈ operands, IsPlain t) :
    poison? operands = none := by
  rw [poison?, if_neg, if_neg]
  · rw [Bool.not_eq_true, List.any_eq_false]
    intro t ht
    have := h t ht
    cases t <;> simp_all [IsPlain]
  · rw [Bool.not_eq_true, List.any_eq_false]
    intro t ht
    have := h t ht
    cases t <;> simp_all [IsPlain]

/-- No operand decides the result exactly if none of them is a mark. -/
theorem poison?_eq_none_iff {operands : List Term} :
    poison? operands = none ↔ .undefined ∉ operands ∧ .nonreal ∉ operands := by
  unfold poison?
  constructor
  · intro h
    split_ifs at h with hundefined hnonreal
    exact ⟨fun hmem => hundefined (List.any_eq_true.2 ⟨_, hmem, rfl⟩),
      fun hmem => hnonreal (List.any_eq_true.2 ⟨_, hmem, rfl⟩)⟩
  · rintro ⟨hundefined, hnonreal⟩
    rw [if_neg, if_neg]
    · rw [Bool.not_eq_true, List.any_eq_false]
      rintro t ht
      cases t with
      | nonreal => exact absurd ht hnonreal
      | _ => exact Bool.false_ne_true
    · rw [Bool.not_eq_true, List.any_eq_false]
      rintro t ht
      cases t with
      | undefined => exact absurd ht hundefined
      | _ => exact Bool.false_ne_true

/-- Only marks decide the result. -/
theorem eq_of_poison?_eq_some {operands : List Term} {t : Term} (h : poison? operands = some t) :
    t = .undefined ∨ t = .nonreal := by
  unfold poison? at h
  split_ifs at h <;> cases h
  · exact .inl rfl
  · exact .inr rfl

theorem poison?_eq_none_of_subset {operands others : List Term} (h : others ⊆ operands)
    (hnone : poison? operands = none) : poison? others = none := by
  rw [poison?_eq_none_iff] at hnone ⊢
  exact ⟨fun hmem => hnone.1 (h hmem), fun hmem => hnone.2 (h hmem)⟩

theorem hasMatrix_eq_false {operands : List Term} (h : ∀ t ∈ operands, IsPlain t) :
    hasMatrix operands = false := by
  rw [hasMatrix, List.any_eq_false]
  intro t ht
  have := h t ht
  cases t <;> simp_all [IsPlain]

theorem isPlain_of_unmarked {operands : List Term} (hpoison : poison? operands = none)
    (hmatrix : hasMatrix operands = false) : ∀ t ∈ operands, IsPlain t := by
  intro t ht
  obtain ⟨hundefined, hnonreal⟩ := poison?_eq_none_iff.1 hpoison
  cases t with
  | undefined => exact hundefined ht
  | nonreal => exact hnonreal ht
  | matrix rows columns entries => exact List.any_eq_false.1 hmatrix _ ht rfl
  | _ => trivial

/-- Nonreal operands decide the result if the others are plain. -/
theorem poison?_eq_nonreal {operands : List Term} (h : ∀ t ∈ operands, t = .nonreal ∨ IsPlain t)
    (hmem : .nonreal ∈ operands) : poison? operands = some .nonreal := by
  rw [poison?, if_neg, if_pos]
  · exact List.any_eq_true.2 ⟨.nonreal, hmem, rfl⟩
  · rw [Bool.not_eq_true, List.any_eq_false]
    intro t ht
    rcases h t ht with rfl | hplain
    · exact Bool.false_ne_true
    · cases t <;> simp_all [IsPlain]

theorem poison?_nil : poison? [] = none := rfl

theorem hasMatrix_nil : hasMatrix [] = false := rfl

/-! ### Sums -/

section Summands

variable {P : Term → Prop}

theorem forall_mem_summands {t : Term} (ht : P t) (hpart : ∀ u ∈ t.children, P u) :
    ∀ u ∈ summands t, P u := by
  cases t with
  | sum terms => exact hpart
  | _ => exact List.forall_mem_singleton.2 ht

/-- What terms hand on to their parts holds of all that is added when they are. -/
theorem forall_mem_flatMap_summands {terms : List Term} (hpart : ∀ t, P t → ∀ u ∈ t.children, P u)
    (h : ∀ t ∈ terms, P t) : ∀ u ∈ terms.flatMap summands, P u := by
  intro u hu
  obtain ⟨t, ht, hu⟩ := List.mem_flatMap.1 hu
  exact forall_mem_summands (h t ht) (hpart t (h t ht)) u hu

end Summands

/-- A term is split into a number without a body, into its number and the factors behind it, or
    into itself, once. -/
theorem splitTerm_cases {P : Option Term → Coefficient → Prop} {t : Term}
    (number : ∀ c, Coefficient.of? t = some c → P none c)
    (behind : ∀ first rest c, t = .product (first :: rest) → Coefficient.of? first = some c →
      P (some (Term.productOf rest)) c)
    (whole : Coefficient.of? t = none →
      (∀ first rest, t = .product (first :: rest) → Coefficient.of? first = none) →
        P (some t) .one) :
    P (splitTerm t).value.2 (splitTerm t).value.1 := by
  unfold splitTerm
  split
  case h_1 first rest =>
    split
    case h_1 c hc =>
      simp only [Build.value_bind, Build.value_product, Build.value_pure]
      exact behind first rest c rfl hc
    case h_2 hnone =>
      refine whole rfl fun first' rest' heq => ?_
      cases heq
      exact hnone
  case h_2 hproduct =>
    split
    case h_1 c hc => exact number c hc
    case h_2 hnone => exact whole hnone fun first rest heq => (hproduct first rest heq).elim

/-- A number alone stays one; a body with the number one stays as it is, and any other number
    becomes its first factor. -/
theorem joinTerm_cases {P : Term → Prop} {c : Coefficient} {body : Option Term}
    (number : body = none → P c.toTerm)
    (whole : ∀ t, body = some t → c.isOne = true → P t)
    (product : ∀ factors, body = some (.product factors) → c.isOne = false →
      P (Term.productOf (c.toTerm :: factors)))
    (single : ∀ t, body = some t → (∀ factors, t ≠ .product factors) → c.isOne = false →
      P (Term.productOf [c.toTerm, t])) :
    P (joinTerm c body).value := by
  unfold joinTerm
  split
  case h_1 => exact number rfl
  case h_2 t =>
    split
    case isTrue hone => exact whole t rfl hone
    case isFalse hone =>
      have hone : c.isOne = false := by simpa using hone
      simp only [Build.value_bind, Build.value_make]
      split
      case h_1 factors =>
        rw [Build.value_product]
        exact product factors rfl hone
      case h_2 hproduct =>
        rw [Build.value_product]
        exact single t rfl hproduct hone

/-- The bodies of the terms of a sum, each once, with what their coefficients add up to,
    as far as that is not zero. -/
def collectedParts (terms : List Term) : List (Option Term × Coefficient) :=
  ((terms.flatMap summands).foldl
    (fun done t => collect (splitTerm t).value.1 (splitTerm t).value.2 done) []).filter
      fun part => !part.2.isZero

/-- A sum of plain terms: collected, joined and sorted. -/
theorem add_value {terms : List Term} (h : ∀ t ∈ terms.flatMap summands, IsPlain t) :
    (add terms).value = Term.sumOf (Term.sortTerms
      ((collectedParts terms).map fun part => (joinTerm part.2 part.1).value)) := by
  unfold add
  simp only [poison?_eq_none h, hasMatrix_eq_false h, Bool.false_eq_true, if_false,
    Build.value_bind, Build.value_each, Build.value_sum, List.foldl_map]
  rfl

section Collected

variable {Q : Option Term → Coefficient → Prop} {terms : List Term}
  {done : List (Option Term × Coefficient)}

/-- What holds of a body with two coefficients holds of it with what they add up to. -/
def IsAdditive (Q : Option Term → Coefficient → Prop) : Prop :=
  ∀ body c d, Q body c → Q body d → Q body (c.add d)

theorem IsAdditive.collect (hadd : IsAdditive Q) {body : Option Term} {c : Coefficient}
    (hpart : Q body c) (hdone : ∀ part ∈ done, Q part.1 part.2) :
    ∀ part ∈ Reduction.collect c body done, Q part.1 part.2 := by
  induction done with
  | nil => exact List.forall_mem_singleton.2 hpart
  | cons first rest ih =>
    obtain ⟨hfirst, hrest⟩ := List.forall_mem_cons.1 hdone
    unfold Reduction.collect
    split_ifs with hsame
    · exact List.forall_mem_cons.2 ⟨hadd _ _ _ hfirst (hsame ▸ hpart), hrest⟩
    · exact List.forall_mem_cons.2 ⟨hfirst, ih hrest⟩

theorem IsAdditive.foldl_collect (hadd : IsAdditive Q) {parts : List (Coefficient × Option Term)}
    (hparts : ∀ part ∈ parts, Q part.2 part.1) (hdone : ∀ part ∈ done, Q part.1 part.2) :
    ∀ part ∈ parts.foldl (fun done part => Reduction.collect part.1 part.2 done) done,
      Q part.1 part.2 := by
  induction parts generalizing done with
  | nil => exact hdone
  | cons part parts ih =>
    obtain ⟨hpart, hparts⟩ := List.forall_mem_cons.1 hparts
    exact ih hparts (hadd.collect hpart hdone)

theorem IsAdditive.foldl_collect_splitTerm (hadd : IsAdditive Q)
    (hsplit : ∀ t ∈ terms, Q (splitTerm t).value.2 (splitTerm t).value.1) :
    ∀ part ∈ terms.foldl
      (fun done t => Reduction.collect (splitTerm t).value.1 (splitTerm t).value.2 done) [],
        Q part.1 part.2 := by
  have hparts : ∀ part ∈ terms.map fun t => (splitTerm t).value, Q part.2 part.1 :=
    List.forall_mem_map.2 hsplit
  have hcollected := hadd.foldl_collect hparts (List.forall_mem_nil _)
  rwa [List.foldl_map] at hcollected

/-- What holds of the bodies and coefficients that are split off the terms holds of all that is
    collected. -/
theorem IsAdditive.collectedParts (hadd : IsAdditive Q)
    (hsplit : ∀ t ∈ terms.flatMap summands, Q (splitTerm t).value.2 (splitTerm t).value.1) :
    ∀ part ∈ Reduction.collectedParts terms, Q part.1 part.2 ∧ part.2.isZero = false := by
  intro part hpart
  obtain ⟨hmem, hkept⟩ := List.mem_filter.1 hpart
  exact ⟨hadd.foldl_collect_splitTerm hsplit part hmem, by simpa using hkept⟩

end Collected

/-- An operand that decides the result is the sum. -/
theorem add_of_poison? {terms : List Term} {poison : Term}
    (h : poison? (terms.flatMap summands) = some poison) : (add terms).value = poison := by
  unfold add
  simp only [h, Build.value_make]

/-- A sum is an operand that decides it, or all terms as they are if one of them is a matrix, or
    what the terms are collected to. -/
theorem add_cases {P : Term → Prop} {terms : List Term}
    (hpoison : ∀ poison, poison? (terms.flatMap summands) = some poison → P poison)
    (hmatrix : hasMatrix (terms.flatMap summands) = true →
      P (Term.sumOf (terms.flatMap summands)))
    (hplain : (∀ t ∈ terms.flatMap summands, IsPlain t) → ∀ ts : List Term,
      ts.Perm ((collectedParts terms).map fun part => (joinTerm part.2 part.1).value) →
        P (Term.sumOf ts)) : P (add terms).value := by
  cases hdecided : poison? (terms.flatMap summands) with
  | some poison => exact (add_of_poison? hdecided) ▸ hpoison poison hdecided
  | none =>
    cases hflat : hasMatrix (terms.flatMap summands) with
    | true =>
      have hvalue : (add terms).value = Term.sumOf (terms.flatMap summands) := by
        unfold add
        simp only [hdecided, hflat, if_true, Build.value_sum]
      exact hvalue ▸ hmatrix hflat
    | false =>
      have hterms := isPlain_of_unmarked hdecided hflat
      rw [add_value hterms]
      exact hplain hterms _ (sortWith_perm _ _ _)

/-- A body that is new is collected behind the others. -/
theorem collect_of_fresh {c : Coefficient} {body : Option Term} :
    ∀ {done : List (Option Term × Coefficient)}, (∀ part ∈ done, part.1 ≠ body) →
      collect c body done = done ++ [(body, c)]
  | [], _ => rfl
  | (other, present) :: rest, h => by
    obtain ⟨hfirst, hrest⟩ := List.forall_mem_cons.1 h
    rw [collect, if_neg hfirst, collect_of_fresh hrest]
    rfl

/-- Numbers collect behind a collected number. -/
theorem foldl_collect_numbers (numbers : List Rat) (a : Rat) :
    numbers.foldl (fun done b => collect (.exact b) none done) [((none : Option Term), .exact a)] =
      [(none, .exact (a + numbers.sum))] := by
  induction numbers generalizing a with
  | nil => simp
  | cons b bs ih =>
    rw [List.foldl_cons]
    simp only [collect, if_true, Coefficient.add, ih, List.sum_cons]
    rw [add_assoc]

theorem add_numbers (numbers : List Rat) :
    (add (numbers.map Term.number)).value = .number numbers.sum := by
  have hflat : (numbers.map Term.number).flatMap summands = numbers.map Term.number := by
    induction numbers with
    | nil => rfl
    | cons a rest ih => simpa [summands] using ih
  have hplain : ∀ t ∈ (numbers.map Term.number).flatMap summands, IsPlain t := by
    rw [hflat]
    intro t ht
    obtain ⟨a, -, rfl⟩ := List.mem_map.1 ht
    trivial
  rw [add_value hplain, collectedParts, hflat, List.foldl_map]
  cases numbers with
  | nil => rfl
  | cons a rest =>
    have hfold : (a :: rest).foldl
        (fun done b => collect (splitTerm (.number b)).value.1 (splitTerm (.number b)).value.2 done)
        [] = [(none, .exact (a :: rest).sum)] :=
      foldl_collect_numbers rest a
    rw [hfold]
    by_cases hzero : (a :: rest).sum = 0
    · rw [hzero]
      rfl
    · have hkept : (Coefficient.exact (a :: rest).sum).isZero = false := decide_eq_false hzero
      simp only [List.filter, hkept, Bool.not_false]
      rfl

/-! ### Products -/

theorem flatFactors_of_ne {t : Term} (h : ∀ factors, t ≠ .product factors) :
    flatFactors t = [t] := by
  cases t with
  | product factors => exact absurd rfl (h factors)
  | _ => simp [flatFactors]

/-- A number is the first of the sorted factors, unless it is one. -/
theorem sortedProduct_cases {P : Term → Prop} {c : Coefficient} {factors : List Term}
    (number : factors = [] → P c.toTerm)
    (whole : sortBy Term.compare factors ≠ [] → c.isOne = true →
      P (Term.productOf (sortBy Term.compare factors)))
    (times : sortBy Term.compare factors ≠ [] → c.isOne = false →
      P (Term.productOf (c.toTerm :: sortBy Term.compare factors))) :
    P (sortedProduct c factors).value := by
  unfold sortedProduct
  dsimp only
  split_ifs with hempty hone
  · have hperm := sortBy_perm Term.compare factors
    rw [List.isEmpty_iff.1 hempty] at hperm
    exact number (List.nil_perm.1 hperm)
  · rw [Build.value_product]
    exact whole (by simpa using hempty) hone
  · rw [Build.value_bind, Build.value_product]
    exact times (by simpa using hempty) (by simpa using hone)

theorem matrixProduct_cases {P : Term → Prop} {c : Coefficient} {factors : List Term}
    (whole : P (Term.productOf factors))
    (times : P (Term.productOf (c.toTerm :: factors))) : P (matrixProduct c factors).value := by
  unfold matrixProduct
  split
  · rw [Build.value_product]
    exact whole
  · rw [Build.value_bind, Build.value_product]
    exact times

theorem flatFactorsOfAll_eq_flatMap (factors : List Term) :
    flatFactorsOfAll factors = factors.flatMap flatFactors := by
  induction factors with
  | nil => rfl
  | cons t ts ih => rw [flatFactorsOfAll, ih, List.flatMap_cons]

theorem absorb_numbers (numbers : List Rat) (a : Rat) :
    absorb (.exact a) (numbers.map Term.number) = (.exact (a * numbers.prod), []) := by
  have hflat : flatFactorsOfAll (numbers.map Term.number) = numbers.map Term.number := by
    induction numbers with
    | nil => rfl
    | cons b rest ih => simp [flatFactorsOfAll, flatFactors, ih]
  have hmul : multiplyNumbers (.exact a) (numbers.map Term.number) = .exact (a * numbers.prod) := by
    induction numbers generalizing a with
    | nil => simp [multiplyNumbers]
    | cons b rest ih =>
      have htail : flatFactorsOfAll (rest.map Term.number) = rest.map Term.number := by
        simpa [flatFactorsOfAll, flatFactors] using hflat
      have step := ih (a * b) htail
      simpa [multiplyNumbers, Coefficient.of?, Coefficient.mul, mul_assoc] using step
  rw [absorb, hflat, hmul]
  simp [Term.isNumeric]

theorem mergeRepeatedly_nil (pow : Term → Term → Build Term) (passes : Nat) (c : Coefficient) :
    (mergeRepeatedly pow passes c []).value = (c, []) := by
  cases passes with
  | zero => rfl
  | succ passes =>
    unfold mergeRepeatedly
    split <;> rfl

theorem mulWith_numbers (s : Settings) (pow : Term → Term → Build Term)
    (mul : List Term → Build Term) (numbers : List Rat) :
    (mulWith s pow mul (numbers.map Term.number)).value = .number numbers.prod := by
  have habsorb : absorb .one (numbers.map Term.number) = (.exact numbers.prod, []) := by
    simpa [Coefficient.one] using absorb_numbers numbers 1
  unfold mulWith
  rw [habsorb]
  simp only [poison?_nil, hasMatrix_nil, Bool.false_eq_true, if_false, Build.value_bind,
    mergeRepeatedly_nil, List.any_nil, Bool.and_false]
  split <;> rfl

end Reduction

end EquationSolver
