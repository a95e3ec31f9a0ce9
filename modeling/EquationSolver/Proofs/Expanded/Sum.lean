import EquationSolver.Proofs.Expanded.Polynomial
import EquationSolver.Proofs.Reduction.Operands

/-!
# Sums of expanded terms

Like terms are collected by their monomials, terms that cancel are dropped, and the rest is
put in order, so that a sum of expanded terms is expanded.
-/

namespace EquationSolver

open Term

namespace Term

/-- The term is a coefficient with a reduced monomial. -/
def IsMonomial (t : Term) : Prop :=
  ∃ (c : Rat) (b : Exponents), b.IsReduced ∧ t = monomial c b

theorem isSum_symbolPower (p : String × Nat) : (symbolPower p).isSum = false := by
  unfold symbolPower
  split <;> rfl

theorem isPlain_symbolPower (p : String × Nat) : Reduction.IsPlain (symbolPower p) := by
  unfold symbolPower
  split <;> trivial

theorem monomial_isSum (c : Rat) (b : Exponents) : (monomial c b).isSum = false := by
  rcases monomial_cases c b with heq | ⟨p, -, heq⟩ | ⟨factors, heq, -⟩ <;> rw [heq]
  · rfl
  · exact isSum_symbolPower p
  · rfl

theorem IsMonomial.isSum {t : Term} (h : t.IsMonomial) : t.isSum = false := by
  obtain ⟨c, b, -, rfl⟩ := h
  exact monomial_isSum c b

theorem IsMonomial.isPlain {t : Term} (h : t.IsMonomial) : Reduction.IsPlain t := by
  obtain ⟨c, b, -, rfl⟩ := h
  rcases monomial_cases c b with heq | ⟨p, -, heq⟩ | ⟨factors, heq, -⟩ <;> rw [heq]
  · trivial
  · exact isPlain_symbolPower p
  · trivial

theorem isMonomial_number (a : Rat) : (Term.number a).IsMonomial :=
  ⟨a, [], ⟨by simp, List.Pairwise.nil⟩, rfl⟩

/-- The body of a monomial without its coefficient. -/
def bodyTerm (b : Exponents) : Option Term :=
  if b = [] then none else some (monomial 1 b)

theorem bodyTerm_injective {b b' : Exponents} (h : bodyTerm b = bodyTerm b') : b = b' := by
  unfold bodyTerm at h
  split at h
  case isTrue hb =>
    split at h
    case isTrue hb' => rw [hb, hb']
    case isFalse => cases h
  case isFalse =>
    split at h
    case isTrue => cases h
    case isFalse => exact Exponents.eq_of_monomial_eq (Option.some.inj h)

end Term

namespace Reduction

theorem summands_of_not_isSum {t : Term} (h : t.isSum = false) : summands t = [t] := by
  cases t <;> simp_all [summands, isSum]

theorem summands_ofMonomials (ms : Monomials) : summands (ofMonomials ms) =
    if ms = [] then [.zero] else ms.map fun m => monomial m.1 m.2 := by
  match ms with
  | [] => rfl
  | [m] => exact summands_of_not_isSum (monomial_isSum m.1 m.2)
  | m :: n :: rest => rfl

theorem isMonomial_of_mem_summands {t : Term} (h : t.IsExpandedForm) :
    ∀ u ∈ summands t, u.IsMonomial := by
  obtain ⟨ms, hms, rfl⟩ := h
  intro u hu
  rw [summands_ofMonomials] at hu
  split at hu
  case isTrue =>
    rw [List.mem_singleton.1 hu]
    exact isMonomial_number 0
  case isFalse =>
    obtain ⟨m, hm, rfl⟩ := List.mem_map.1 hu
    exact ⟨m.1, m.2, hms.exponents m hm, rfl⟩

/-! ### Splitting and joining -/

theorem splitTerm_of_ne {t : Term} (hproduct : ∀ factors, t ≠ .product factors)
    (hnumeric : t.isNumeric = false) : (splitTerm t).value = (.one, some t) := by
  cases t <;> simp_all [splitTerm, isNumeric, Coefficient.of?]

theorem splitTerm_monomial (c : Rat) (b : Exponents) :
    (splitTerm (monomial c b)).value = (.exact c, bodyTerm b) := by
  unfold bodyTerm
  cases b with
  | nil => simp [monomial, splitTerm, Coefficient.of?]
  | cons p rest =>
    have hfirst : Coefficient.of? (symbolPower p) = none := by
      unfold symbolPower
      split <;> rfl
    rw [if_neg (by simp)]
    by_cases hc : c = 1
    · subst hc
      cases rest with
      | nil =>
        have hone : monomial 1 [p] = symbolPower p := by simp [monomial, productOf]
        rw [hone, splitTerm_of_ne (symbolPower_ne_product p) (isNumeric_symbolPower p)]
        rfl
      | cons q rest =>
        simp [monomial, productOf, splitTerm, hfirst, Coefficient.one]
    · simp [monomial, hc, splitTerm, Coefficient.of?]

theorem joinTerm_of_ne {t : Term} (hproduct : ∀ factors, t ≠ .product factors) {c : Rat}
    (hc : c ≠ 1) : (joinTerm (.exact c) (some t)).value = .product [.number c, t] := by
  have hone : (Coefficient.exact c).isOne = false := by simpa [Coefficient.isOne] using hc
  cases t <;> simp_all [joinTerm, Coefficient.toTerm, productOf]

theorem joinTerm_monomial (c : Rat) (b : Exponents) :
    (joinTerm (.exact c) (bodyTerm b)).value = monomial c b := by
  unfold bodyTerm
  match b with
  | [] => simp [joinTerm, monomial, Coefficient.toTerm]
  | p :: rest =>
    rw [if_neg (by simp)]
    by_cases hc : c = 1
    · simp [joinTerm, hc, Coefficient.isOne]
    · match rest with
      | [] =>
        have hone : monomial 1 [p] = symbolPower p := by simp [monomial, productOf]
        rw [hone, joinTerm_of_ne (symbolPower_ne_product p) hc]
        simp [monomial, hc]
      | q :: rest =>
        have hone : (Coefficient.exact c).isOne = false := by simpa [Coefficient.isOne] using hc
        simp [joinTerm, hone, monomial, productOf, hc, Coefficient.toTerm]

/-! ### Collecting -/

/-- A collected term with its coefficient. -/
def encode (m : Rat × Exponents) : Option Term × Coefficient :=
  (bodyTerm m.2, .exact m.1)

/-- Add a coefficient to that of a monomial. -/
def insertMonomial (c : Rat) (b : Exponents) : Monomials → Monomials
  | [] => [(c, b)]
  | m :: rest => if m.2 = b then (m.1 + c, b) :: rest else m :: insertMonomial c b rest

theorem collect_encode (c : Rat) (b : Exponents) (ms : Monomials) :
    collect (.exact c) (bodyTerm b) (ms.map encode) = (insertMonomial c b ms).map encode := by
  induction ms with
  | nil => rfl
  | cons m rest ih =>
    rw [List.map_cons, encode, collect, insertMonomial]
    by_cases hm : m.2 = b
    · rw [if_pos (congrArg bodyTerm hm), if_pos hm, hm]
      rfl
    · rw [if_neg fun h => hm (bodyTerm_injective h), if_neg hm, ih]
      rfl

theorem exponents_of_mem_insertMonomial {c : Rat} {b : Exponents} {ms : Monomials}
    {n : Rat × Exponents} (h : n ∈ insertMonomial c b ms) : n.2 = b ∨ ∃ m ∈ ms, n.2 = m.2 := by
  induction ms with
  | nil =>
    rw [insertMonomial, List.mem_singleton] at h
    exact .inl (by rw [h])
  | cons m rest ih =>
    rw [insertMonomial] at h
    split at h
    case isTrue =>
      rcases List.mem_cons.1 h with rfl | h
      · exact .inl rfl
      · exact .inr ⟨n, List.mem_cons_of_mem m h, rfl⟩
    case isFalse =>
      rcases List.mem_cons.1 h with rfl | h
      · exact .inr ⟨n, List.mem_cons_self, rfl⟩
      · rcases ih h with h | ⟨k, hk, h⟩
        · exact .inl h
        · exact .inr ⟨k, List.mem_cons_of_mem m hk, h⟩

/-- Collected monomials are reduced and differ from each other. -/
structure IsCollected (ms : Monomials) : Prop where
  exponents : ∀ m ∈ ms, Exponents.IsReduced m.2
  distinct : ms.Pairwise fun m n => m.2 ≠ n.2

theorem IsCollected.insertMonomial {b : Exponents} (hb : b.IsReduced) (c : Rat) {ms : Monomials}
    (h : IsCollected ms) : IsCollected (insertMonomial c b ms) := by
  constructor
  · intro n hn
    rcases exponents_of_mem_insertMonomial hn with heq | ⟨m, hm, heq⟩
    · rw [heq]
      exact hb
    · rw [heq]
      exact h.exponents m hm
  · obtain ⟨-, hdistinct⟩ := h
    induction ms with
    | nil => simp [Reduction.insertMonomial]
    | cons m rest ih =>
      obtain ⟨hm, hrest⟩ := List.pairwise_cons.1 hdistinct
      rw [Reduction.insertMonomial]
      split
      case isTrue heq =>
        subst heq
        exact List.pairwise_cons.2 ⟨hm, hrest⟩
      case isFalse hne =>
        refine List.pairwise_cons.2 ⟨fun n hn => ?_, ih hrest⟩
        rcases exponents_of_mem_insertMonomial hn with heq | ⟨k, hk, heq⟩
        · rw [heq]
          exact hne
        · rw [heq]
          exact hm k hk

theorem foldl_collect_monomials {terms : List Term} (h : ∀ t ∈ terms, t.IsMonomial)
    {ms : Monomials} (hms : IsCollected ms) : ∃ ns, IsCollected ns ∧
      terms.foldl (fun done t => collect (splitTerm t).value.1 (splitTerm t).value.2 done)
        (ms.map encode) = ns.map encode := by
  induction terms generalizing ms with
  | nil => exact ⟨ms, hms, rfl⟩
  | cons t rest ih =>
    obtain ⟨⟨c, b, hb, rfl⟩, hrest⟩ := List.forall_mem_cons.1 h
    obtain ⟨ns, hns, heq⟩ := ih hrest (hms.insertMonomial hb c)
    refine ⟨ns, hns, ?_⟩
    rw [List.foldl_cons, splitTerm_monomial, collect_encode]
    exact heq

/-! ### Ordering -/

/-- Coefficients make no difference to the order of monomials. -/
def compareByExponents (m n : Rat × Exponents) : Ordering :=
  Exponents.compareMonomials m.2 n.2

instance : Std.TransCmp compareByExponents where
  eq_swap {m n} :=
    have h : Exponents.compareMonomials m.2 n.2 = (Exponents.compareMonomials n.2 m.2).swap :=
      Std.OrientedCmp.eq_swap
    h
  isLE_trans {k _ n} h h' :=
    have hle : (Exponents.compareMonomials k.2 n.2).isLE := Std.TransCmp.isLE_trans h h'
    hle

theorem IsCollected.eq_of_exponents_eq {ms : Monomials} (h : IsCollected ms)
    {m n : Rat × Exponents} (hm : m ∈ ms) (hn : n ∈ ms) (heq : m.2 = n.2) : m = n := by
  have hnodup : (ms.map Prod.snd).Nodup := List.pairwise_map.2 h.distinct
  exact List.inj_on_of_nodup_map hnodup hm hn heq

theorem IsCollected.perm {ms ns : Monomials} (h : IsCollected ms) (hperm : ns.Perm ms) :
    IsCollected ns :=
  ⟨fun m hm => h.exponents m (hperm.mem_iff.1 hm),
    (hperm.pairwise_iff fun hne => hne.symm).2 h.distinct⟩

/-- Collected monomials are in the order of the terms of a sum as their exponents are. -/
theorem IsCollected.compareTerms_eq {ms : Monomials} (h : IsCollected ms) {m n : Rat × Exponents}
    (hm : m ∈ ms) (hn : n ∈ ms) :
    compareTerms (monomial m.1 m.2) (monomial n.1 n.2) = compareByExponents m n := by
  by_cases heq : m.2 = n.2
  · have hself : compareByExponents n n = .eq := Std.ReflCmp.compare_self
    rw [h.eq_of_exponents_eq hm hn heq, compareTerms, compareGraded, if_pos rfl, hself]
  · exact Exponents.compareTerms_monomial (h.exponents m hm) (h.exponents n hn) heq m.1 n.1

theorem IsCollected.sortTerms_eq {ms : Monomials} (h : IsCollected ms) :
    sortTerms (ms.map fun m => monomial m.1 m.2) =
      (sortBy compareByExponents ms).map fun m => monomial m.1 m.2 := by
  rw [Term.sortTerms_eq]
  exact sortBy_map fun m hm n hn => h.compareTerms_eq hm hn

/-- Sorting collected monomials puts them in ascending order. -/
theorem sortTerms_monomials {ms : Monomials} (h : IsCollected ms)
    (hne : ∀ m ∈ ms, m.1 ≠ 0) : ∃ ns : Monomials, ns.IsReduced ∧
      sortTerms (ms.map fun m => monomial m.1 m.2) = ns.map fun m => monomial m.1 m.2 := by
  have hperm := sortBy_perm compareByExponents ms
  have hsorted := h.perm hperm
  refine ⟨sortBy compareByExponents ms, ⟨?_, hsorted.exponents, ?_⟩, h.sortTerms_eq⟩
  · intro m hm
    exact hne m (hperm.mem_iff.1 hm)
  · refine hsorted.distinct.imp₂ (fun m n hdistinct hle => ?_) (pairwise_sortBy ms)
    rcases Ordering.isLE_iff_eq_lt_or_eq_eq.1 hle with hlt | heq
    · exact hlt
    · exact (hdistinct (Std.LawfulEqCmp.eq_of_compare heq)).elim

/-- The sum of expanded terms is expanded. -/
theorem add_isExpandedForm {terms : List Term}
    (h : ∀ t ∈ terms, ∀ u ∈ summands t, u.IsMonomial) : (add terms).value.IsExpandedForm := by
  have hflat : ∀ u ∈ terms.flatMap summands, u.IsMonomial := by
    intro u hu
    obtain ⟨t, ht, hu⟩ := List.mem_flatMap.1 hu
    exact h t ht u hu
  have hnothing : IsCollected [] := ⟨by simp, List.Pairwise.nil⟩
  obtain ⟨ms, hms, hfold⟩ := foldl_collect_monomials hflat hnothing
  rw [List.map_nil] at hfold
  have hkept : IsCollected (ms.filter fun m => m.1 ≠ 0) :=
    ⟨fun m hm => hms.exponents m (List.mem_of_mem_filter hm), hms.distinct.filter _⟩
  have hparts : collectedParts terms = (ms.filter fun m => m.1 ≠ 0).map encode := by
    rw [collectedParts, hfold, List.filter_map]
    refine congrArg (List.map encode) (List.filter_congr fun m _ => ?_)
    simp [encode, Coefficient.isZero]
  have hjoined : (collectedParts terms).map (fun part => (joinTerm part.2 part.1).value) =
      (ms.filter fun m => m.1 ≠ 0).map fun m => monomial m.1 m.2 := by
    rw [hparts, List.map_map]
    exact List.map_congr_left fun m _ => joinTerm_monomial m.1 m.2
  obtain ⟨ns, hns, hsorted⟩ := sortTerms_monomials hkept fun m hm => by
    simpa using (List.mem_filter.1 hm).2
  rw [add_value fun u hu => (hflat u hu).isPlain, hjoined, hsorted]
  exact ⟨ns, hns, rfl⟩

end Reduction

end EquationSolver
