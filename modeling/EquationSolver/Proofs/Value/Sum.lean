import EquationSolver.Proofs.Value.Valuation
import Mathlib.Algebra.BigOperators.Group.List.Lemmas
import Mathlib.Tactic.Ring

/-!
# Sums keep their value

Splitting terms into coefficients and bodies, collecting the coefficients of one body,
leaving out what is zero and sorting: each step of a sum in standard form keeps the sum of
the values, and every term that it builds has a value again.
-/

namespace EquationSolver

open Reading

variable {K : Type*} [Field K] {R : Reading K}

/-! ### Coefficients -/

namespace Coefficient

/-- The value of a coefficient; an approximate one has none. -/
def value (K : Type*) [Field K] : Coefficient → K
  | exact a => (a : K)
  | approximate _ => 0

/-- The coefficient is an exact number. -/
def IsExact (c : Coefficient) : Prop :=
  ∃ a, c = .exact a

theorem isExact_one : one.IsExact := ⟨1, rfl⟩

@[simp] theorem value_one : one.value K = 1 := by
  simp [one, value]

theorem IsExact.value_eq_zero {c : Coefficient} (hc : c.IsExact) (h : c.isZero = true) :
    c.value K = 0 := by
  obtain ⟨a, rfl⟩ := hc
  have ha : a = 0 := by simpa [isZero] using h
  simp [value, ha]

theorem IsExact.value_eq_one {c : Coefficient} (hc : c.IsExact) (h : c.isOne = true) :
    c.value K = 1 := by
  obtain ⟨a, rfl⟩ := hc
  have ha : a = 1 := by simpa [isOne] using h
  simp [value, ha]

theorem IsExact.toTerm_ne_zero {c : Coefficient} (hc : c.IsExact) (h : c.isZero = false) :
    c.toTerm ≠ .number 0 := by
  obtain ⟨a, rfl⟩ := hc
  have ha : a ≠ 0 := by simpa [isZero] using h
  simpa [toTerm] using ha

theorem IsExact.denotes {c : Coefficient} (hc : c.IsExact) :
    R.Denotes c.toTerm (c.value K) := by
  obtain ⟨a, rfl⟩ := hc
  exact .number a

/-- A term with a value is an exact number or no coefficient at all. -/
theorem of?_of_hasValue {t : Term} (h : R.HasValue t) :
    (∃ a, t = .number a ∧ of? t = some (.exact a)) ∨ of? t = none := by
  cases t with
  | number a => exact .inl ⟨a, rfl, rfl⟩
  | decimal bits => exact absurd h (R.not_hasValue_decimal bits)
  | _ => exact .inr rfl

theorem eq_of_hasValue {t : Term} {c : Coefficient} (h : R.HasValue t) (hc : of? t = some c) :
    ∃ a, t = .number a ∧ c = .exact a := by
  rcases of?_of_hasValue h with ⟨a, rfl, ha⟩ | hnone
  · exact ⟨a, rfl, Option.some.inj (hc.symm.trans ha)⟩
  · exact absurd hc (by simp [hnone])

/-- A number that is not zero may be the first of the factors. -/
theorem IsExact.productOf_denotes {c : Coefficient} {factors : List Term} (hc : c.IsExact)
    (hne : c.isZero = false) (h : ∀ t ∈ factors, R.HasValue t)
    (hzero : R.hasRoots → .number 0 ∉ factors) :
    R.Denotes (Term.productOf (c.toTerm :: factors)) (c.value K * (factors.map R.value).prod) := by
  have hfirst : R.Denotes c.toTerm (c.value K) := hc.denotes
  have hnone (hroots : R.hasRoots) : .number 0 ∉ c.toTerm :: factors := by
    intro hmem
    rcases List.mem_cons.1 hmem with heq | hmem
    · exact hc.toTerm_ne_zero hne heq.symm
    · exact hzero hroots hmem
  refine (Denotes.productOf (List.forall_mem_cons.2 ⟨hfirst.hasValue, h⟩) hnone).congr ?_
  rw [List.map_cons, List.prod_cons, hfirst.value_eq]

variable [CharZero K]

theorem IsExact.add {c d : Coefficient} (hc : c.IsExact) (hd : d.IsExact) :
    (c.add d).IsExact ∧ (c.add d).value K = c.value K + d.value K := by
  obtain ⟨a, rfl⟩ := hc
  obtain ⟨b, rfl⟩ := hd
  exact ⟨⟨a + b, rfl⟩, by simp [Coefficient.add, value]⟩

theorem IsExact.mul {c d : Coefficient} (hc : c.IsExact) (hd : d.IsExact) :
    (c.mul d).IsExact ∧ (c.mul d).value K = c.value K * d.value K := by
  obtain ⟨a, rfl⟩ := hc
  obtain ⟨b, rfl⟩ := hd
  exact ⟨⟨a * b, rfl⟩, by simp [Coefficient.mul, value]⟩

end Coefficient

namespace Reduction

/-! ### Terms of a sum -/

theorem hasValue_of_mem_summands {t u : Term} (h : R.HasValue t) (hu : u ∈ summands t) :
    R.HasValue u := by
  cases t with
  | sum terms => exact R.hasValue_sum.1 h u hu
  | _ => simp only [summands, List.mem_singleton] at hu; exact hu ▸ h

theorem sum_summands (t : Term) : ((summands t).map R.value).sum = R.value t := by
  cases t <;> simp [summands]

theorem sum_flatMap_summands (terms : List Term) :
    ((terms.flatMap summands).map R.value).sum = (terms.map R.value).sum := by
  induction terms with
  | nil => rfl
  | cons t ts ih =>
    rw [List.flatMap_cons, List.map_append, List.sum_append, ih, sum_summands]
    simp

/-- The value of the body of a term; without a body it is one. -/
def bodyValue (R : Reading K) : Option Term → K
  | none => 1
  | some t => R.value t

/-- The value of a body with its coefficient. -/
def partValue (R : Reading K) (part : Option Term × Coefficient) : K :=
  part.2.value K * bodyValue R part.1

/-- A body that has a value, if there is one, with an exact coefficient. -/
structure IsExactPart (R : Reading K) (part : Option Term × Coefficient) : Prop where
  exact : part.2.IsExact
  hasValue : ∀ t ∈ part.1, R.HasValue t
  ne_zero : R.hasRoots → ∀ t ∈ part.1, t ≠ .number 0

theorem productOf_ne_zero {factors : List Term} (h : .number 0 ∉ factors) :
    Term.productOf factors ≠ .number 0 := by
  match factors, h with
  | [], _ => simp [Term.productOf, Term.one]
  | [t], h => exact fun heq => h (List.mem_singleton.2 heq.symm)
  | t :: u :: rest, _ => exact Term.noConfusion

theorem splitTerm_value {t : Term} (h : R.HasValue t) :
    IsExactPart R (splitTerm t).value.swap ∧ partValue R (splitTerm t).value.swap = R.value t := by
  have whole (hne : t ≠ .number 0) : IsExactPart R (some t, Coefficient.one) ∧
      partValue R (some t, Coefficient.one) = R.value t :=
    ⟨⟨Coefficient.isExact_one, by simpa using h, fun _ => by simpa using hne⟩,
      by simp [partValue, bodyValue]⟩
  refine splitTerm_cases
    (P := fun body c => IsExactPart R (body, c) ∧ partValue R (body, c) = R.value t) ?_ ?_ ?_
  · intro c hc
    obtain ⟨a, rfl, rfl⟩ := Coefficient.eq_of_hasValue h hc
    exact ⟨⟨⟨a, rfl⟩, by simp, by simp⟩, by simp [partValue, bodyValue, Coefficient.value]⟩
  · rintro first rest c rfl hc
    obtain ⟨hfactors, hzero⟩ := R.hasValue_product.1 h
    obtain ⟨a, rfl, rfl⟩ := Coefficient.eq_of_hasValue (hfactors first List.mem_cons_self) hc
    have hrestZero : R.hasRoots → .number 0 ∉ rest :=
      fun hroots hmem => hzero hroots (List.mem_cons_of_mem _ hmem)
    have hrest := Denotes.productOf (fun u hu => hfactors u (List.mem_cons_of_mem _ hu)) hrestZero
    refine ⟨⟨⟨a, rfl⟩, by simpa using hrest.hasValue, fun hroots => ?_⟩, ?_⟩
    · simpa using productOf_ne_zero (hrestZero hroots)
    · simp [partValue, bodyValue, Coefficient.value, hrest.value_eq]
  · intro hnone _
    refine whole ?_
    rintro rfl
    cases hnone

section Collect

variable [CharZero K]

theorem collect_value {c : Coefficient} {body : Option Term}
    {parts : List (Option Term × Coefficient)} (hnew : IsExactPart R (body, c))
    (hparts : ∀ part ∈ parts, IsExactPart R part) :
    (∀ part ∈ collect c body parts, IsExactPart R part) ∧
      ((collect c body parts).map (partValue R)).sum =
        partValue R (body, c) + (parts.map (partValue R)).sum := by
  induction parts with
  | nil => exact ⟨by simpa [collect] using hnew, by simp [collect]⟩
  | cons part rest ih =>
    obtain ⟨other, present⟩ := part
    have hfirst := hparts (other, present) (by simp)
    have hrest : ∀ part ∈ rest, IsExactPart R part :=
      fun part hpart => hparts part (List.mem_cons_of_mem _ hpart)
    obtain ⟨ihExact, ihSum⟩ := ih hrest
    simp only [collect]
    split
    case isTrue heq =>
      subst heq
      have hadd := hfirst.exact.add (K := K) hnew.exact
      constructor
      · intro part hpart
        rcases List.mem_cons.1 hpart with rfl | hpart
        · exact ⟨hadd.1, hfirst.hasValue, hfirst.ne_zero⟩
        · exact hrest part hpart
      · simp only [List.map_cons, List.sum_cons, partValue, hadd.2]
        ring
    case isFalse =>
      constructor
      · intro part hpart
        rcases List.mem_cons.1 hpart with rfl | hpart
        · exact hfirst
        · exact ihExact part hpart
      · simp only [List.map_cons, List.sum_cons, ihSum]
        ring

/-- Collecting the parts of terms into others adds the values of the terms. -/
theorem foldl_collect_value {terms : List Term} {done : List (Option Term × Coefficient)}
    (hterms : ∀ t ∈ terms, R.HasValue t) (hdone : ∀ part ∈ done, IsExactPart R part) :
    (∀ part ∈ terms.foldl
        (fun done t => collect (splitTerm t).value.1 (splitTerm t).value.2 done) done,
        IsExactPart R part) ∧
      ((terms.foldl
        (fun done t => collect (splitTerm t).value.1 (splitTerm t).value.2 done) done).map
          (partValue R)).sum =
        (terms.map R.value).sum + (done.map (partValue R)).sum := by
  induction terms generalizing done with
  | nil => exact ⟨by simpa using hdone, by simp⟩
  | cons t rest ih =>
    obtain ⟨hpart, hvalue⟩ := splitTerm_value (hterms t (by simp))
    have hstep := collect_value hpart hdone
    obtain ⟨hexact, hsum⟩ := ih (fun u hu => hterms u (List.mem_cons_of_mem _ hu)) hstep.1
    refine ⟨hexact, ?_⟩
    rw [List.foldl_cons, hsum, hstep.2, List.map_cons, List.sum_cons, ← hvalue]
    dsimp only [Prod.swap]
    ring

end Collect

theorem sum_filter_isZero {parts : List (Option Term × Coefficient)}
    (h : ∀ part ∈ parts, IsExactPart R part) :
    ((parts.filter fun part => !part.2.isZero).map (partValue R)).sum =
      (parts.map (partValue R)).sum := by
  induction parts with
  | nil => rfl
  | cons part rest ih =>
    have hrest := ih fun p hp => h p (List.mem_cons_of_mem _ hp)
    cases hzero : part.2.isZero with
    | true =>
      have hvalue := (h part (by simp)).exact.value_eq_zero (K := K) hzero
      simp [hzero, hrest, partValue, hvalue]
    | false => simp [hzero, hrest]

theorem joinTerm_denotes {c : Coefficient} {body : Option Term}
    (h : IsExactPart R (body, c)) (hc : c.isZero = false) :
    R.Denotes (joinTerm c body).value (partValue R (body, c)) := by
  refine joinTerm_cases (P := fun t => R.Denotes t (partValue R (body, c))) ?_ ?_ ?_ ?_
  · rintro rfl
    exact h.exact.denotes.congr (by simp [partValue, bodyValue])
  · rintro t rfl hone
    exact (Denotes.of_hasValue (h.hasValue t rfl)).congr
      (by simp [partValue, bodyValue, h.exact.value_eq_one hone])
  · rintro factors rfl -
    obtain ⟨hfactors, hzero⟩ := R.hasValue_product.1 (h.hasValue _ rfl)
    exact (h.exact.productOf_denotes hc hfactors hzero).congr (by simp [partValue, bodyValue])
  · rintro t rfl - -
    have hzero : R.hasRoots → .number 0 ∉ [t] :=
      fun hroots hmem => h.ne_zero hroots t rfl (List.mem_singleton.1 hmem).symm
    have hbody := List.forall_mem_singleton.2 (h.hasValue t rfl)
    exact (h.exact.productOf_denotes hc hbody hzero).congr (by simp [partValue, bodyValue])

/-- A sum in standard form denotes the sum of the values of its terms. -/
theorem add_denotes [CharZero K] {terms : List Term} (h : ∀ t ∈ terms, R.HasValue t) :
    R.Denotes (add terms).value (terms.map R.value).sum := by
  have hflat : ∀ t ∈ terms.flatMap summands, R.HasValue t := by
    intro t ht
    obtain ⟨u, hu, htu⟩ := List.mem_flatMap.1 ht
    exact hasValue_of_mem_summands (h u hu) htu
  rw [add_value fun t ht => R.isPlain (hflat t ht)]
  set collected := (terms.flatMap summands).foldl
    (fun done t => collect (splitTerm t).value.1 (splitTerm t).value.2 done) []
  have hnone : ∀ part ∈ ([] : List (Option Term × Coefficient)), IsExactPart R part := by simp
  obtain ⟨hexact, hsum⟩ := foldl_collect_value hflat hnone
  have hkept : ∀ part ∈ collectedParts terms, IsExactPart R part :=
    fun part hpart => hexact part (List.mem_of_mem_filter hpart)
  have hjoined : ∀ part ∈ collectedParts terms,
      R.Denotes (joinTerm part.2 part.1).value (partValue R part) := by
    intro part hpart
    refine joinTerm_denotes (hkept part hpart) ?_
    simpa using List.of_mem_filter hpart
  have hperm := sortWith_perm Term.degree Term.compareGraded
    ((collectedParts terms).map fun part => (joinTerm part.2 part.1).value)
  have hsorted : ∀ t ∈ Term.sortTerms ((collectedParts terms).map fun part =>
      (joinTerm part.2 part.1).value), R.HasValue t := by
    intro t ht
    obtain ⟨part, hpart, rfl⟩ := List.mem_map.1 (hperm.mem_iff.1 ht)
    exact (hjoined part hpart).hasValue
  refine (Denotes.sumOf hsorted).congr ?_
  calc ((Term.sortTerms ((collectedParts terms).map fun part => (joinTerm part.2 part.1).value)).map
          R.value).sum
      = (((collectedParts terms).map fun part => (joinTerm part.2 part.1).value).map R.value).sum :=
        (hperm.map _).sum_eq
    _ = ((collectedParts terms).map (partValue R)).sum := by
        rw [List.map_map]
        refine congrArg List.sum (List.map_congr_left fun part hpart => ?_)
        exact (hjoined part hpart).value_eq
    _ = (collected.map (partValue R)).sum := sum_filter_isZero hexact
    _ = (terms.map R.value).sum := by
        rw [hsum, sum_flatMap_summands]
        simp

end Reduction

end EquationSolver
