import EquationSolver.Proofs.Expanded.Handles
import EquationSolver.Proofs.Pool.Independence
import EquationSolver.Proofs.Reduction.Canonical
import EquationSolver.Proofs.Reduction.Results

/-!
# Reducing twice

A result that obeys the rules of the standard form is left as it is when it is reduced again: the
second reduction finds the same handle.  Where a polynomial is multiplied out completely, its reduced
form obeys the rules.  What does not obey them may change again.
-/

namespace EquationSolver

open Term

/-! ### Expanded terms are canonical -/

namespace Reduction

variable {s : Settings}

theorem isCanonical_of_atom {t : Term} (hchildren : t.children = []) (h : IsCanonicalAt s t) :
    IsCanonical s t :=
  Everywhere.of_parts h fun u hu => by
    rw [hchildren] at hu
    cases hu

theorem isCanonical_symbolPower {p : String × Nat} (hp : 0 < p.2) :
    IsCanonical s (symbolPower p) := by
  unfold symbolPower
  split
  case isTrue => exact isCanonical_of_atom rfl trivial
  case isFalse hone =>
    have hexponent : (p.2 : Rat) ≠ 0 := by exact_mod_cast hp.ne'
    have hfirst : (p.2 : Rat) ≠ 1 := by exact_mod_cast hone
    refine Everywhere.of_parts (.exact trivial rfl hexponent hfirst trivial) fun u hu => ?_
    rcases List.mem_pair.1 hu with rfl | rfl
    · exact isCanonical_of_atom rfl trivial
    · exact isCanonical_of_atom rfl trivial

theorem areFlat_map_symbolPower (b : Exponents) : AreFlat (b.map symbolPower) where
  not_numeric t ht := by
    obtain ⟨p, -, rfl⟩ := List.mem_map.1 ht
    exact isNumeric_symbolPower p
  not_product t ht factors := by
    obtain ⟨p, -, rfl⟩ := List.mem_map.1 ht
    exact symbolPower_ne_product p factors

theorem monomial_eq_scaledBy (c : Rat) (b : Exponents) :
    monomial c b = scaledBy (.exact c) (b.map symbolPower) := by
  rw [scaledBy_exact]
  cases b with
  | nil => rfl
  | cons p b => exact if_neg (List.cons_ne_nil p b)

end Reduction

namespace Exponents

variable {b : Exponents}

theorem IsReduced.sortBy_eq (h : b.IsReduced) :
    sortBy Term.compare (b.map symbolPower) = b.map symbolPower := by
  have hascending : b.Pairwise fun p q => comparePowers p q = .lt := by
    refine h.ascending.imp fun {p q} hlt => ?_
    show (Ord.compare p.1 q.1).then (Ord.compare p.2 q.2) = .lt
    rw [hlt]
    rfl
  rw [sortBy_map fun p hp q hq => compare_symbolPower (h.positive p hp) (h.positive q hq),
    sortBy_of_ascending hascending]

theorem IsReduced.bases_differ (h : b.IsReduced) :
    (b.map symbolPower).Pairwise fun t u => (Reduction.asPower t).1 ≠ (Reduction.asPower u).1 := by
  refine List.pairwise_map.2 (h.ascending.imp fun {p q} hlt heq => ?_)
  rw [Reduction.asPower_symbolPower, Reduction.asPower_symbolPower] at heq
  exact ne_of_compare_eq_lt hlt (Term.symbol.inj heq)

end Exponents

namespace Reduction

variable {s : Settings}

/-- Among powers of symbols no product is multiplied out. -/
theorem isCanonicalProduct_symbolPowers {c : Rat} {b : Exponents} (hc : c ≠ 0) (hb : b.IsReduced)
    (htwo : 2 ≤ (numbered (.exact c) (b.map symbolPower)).length) :
    IsCanonicalProduct s (.exact c) (b.map symbolPower) where
  two_le := htwo
  of?_eq := rfl
  flat := areFlat_map_symbolPower b
  unmarked := poison?_eq_none fun t ht => by
    obtain ⟨p, -, rfl⟩ := List.mem_map.1 ht
    exact isPlain_symbolPower p
  merged _ := by
    refine ⟨decide_eq_false hc, hb.bases_differ, hb.sortBy_eq, fun _ hany => ?_⟩
    obtain ⟨t, ht, hsum⟩ := List.any_eq_true.1 hany
    obtain ⟨p, -, rfl⟩ := List.mem_map.1 ht
    rw [isSum_symbolPower] at hsum
    cases hsum

theorem isCanonical_monomial {c : Rat} {b : Exponents} (hc : c ≠ 0) (hb : b.IsReduced) :
    IsCanonical s (monomial c b) := by
  by_cases htwo : 2 ≤ (numbered (.exact c) (b.map symbolPower)).length
  · rw [monomial_eq_scaledBy, scaledBy_of_two_le htwo]
    refine Everywhere.of_parts ⟨_, _, rfl, isCanonicalProduct_symbolPowers hc hb htwo⟩ ?_
    intro u hu
    rcases mem_numbered hu with rfl | hu
    · exact isCanonical_of_atom rfl trivial
    · obtain ⟨p, hp, rfl⟩ := List.mem_map.1 hu
      exact isCanonical_symbolPower (hb.positive p hp)
  · unfold numbered at htwo
    match b, htwo with
    | [], _ => exact isCanonical_of_atom rfl trivial
    | [p], htwo =>
      split at htwo
      case isTrue hone =>
        have hone : c = 1 := of_decide_eq_true hone
        rw [hone, ← symbolPower_eq_monomial]
        exact isCanonical_symbolPower (hb.positive p List.mem_cons_self)
      case isFalse => simp at htwo
    | p :: q :: b, htwo => split at htwo <;> simp at htwo

theorem exponents_differ {ms : Monomials} (h : ms.IsReduced) :
    ms.Pairwise fun m n => m.2 ≠ n.2 := by
  refine h.ascending.imp fun {m n} hlt heq => ?_
  rw [heq] at hlt
  exact Std.OrientedCmp.not_lt_of_lt hlt hlt

/-- Monomials in ascending order are in the order of the terms of a sum. -/
theorem sortTerms_ofMonomials {ms : Monomials} (h : ms.IsReduced) :
    Term.sortTerms (ms.map fun m => monomial m.1 m.2) = ms.map fun m => monomial m.1 m.2 := by
  have hcollected : IsCollected ms := ⟨h.exponents, exponents_differ h⟩
  have hascending : ms.Pairwise fun m n => compareByExponents m n = .lt := h.ascending
  rw [hcollected.sortTerms_eq, sortBy_of_ascending hascending]

theorem isCanonicalSum_ofMonomials {ms : Monomials} (h : ms.IsReduced) (htwo : 2 ≤ ms.length) :
    IsCanonicalSum (ms.map fun m => monomial m.1 m.2) where
  two_le := by rwa [List.length_map]
  flat t ht := by
    obtain ⟨m, -, rfl⟩ := List.mem_map.1 ht
    exact monomial_isSum m.1 m.2
  unmarked := poison?_eq_none fun t ht => by
    obtain ⟨m, hm, rfl⟩ := List.mem_map.1 ht
    exact IsMonomial.isPlain ⟨m.1, m.2, h.exponents m hm, rfl⟩
  collected _ := by
    refine ⟨⟨ms.map fun m => (.exact m.1, m.2.map symbolPower), ?_, ?_, ?_, ?_⟩,
      sortTerms_ofMonomials h⟩
    · rw [List.map_map]
      exact List.map_congr_left fun m _ => monomial_eq_scaledBy m.1 m.2
    · exact List.forall_mem_map.2 fun m _ => areFlat_map_symbolPower m.2
    · exact List.forall_mem_map.2 fun m hm =>
        Coefficient.isProper_exact (h.coefficient_ne_zero m hm)
    · exact List.pairwise_map.2 ((exponents_differ h).imp fun hne heq =>
        hne (Exponents.map_symbolPower_injective heq))

/-- Expanded terms obey the rules of the standard form, whatever the settings are. -/
theorem isCanonical_of_isExpandedForm {t : Term} (h : t.IsExpandedForm) : IsCanonical s t := by
  obtain ⟨ms, hms, rfl⟩ := h
  have hmonomial : ∀ m ∈ ms, IsCanonical s (monomial m.1 m.2) := fun m hm =>
    isCanonical_monomial (hms.coefficient_ne_zero m hm) (hms.exponents m hm)
  match ms, hms, hmonomial with
  | [], _, _ => exact isCanonical_of_atom rfl trivial
  | [m], _, hmonomial => exact hmonomial m List.mem_cons_self
  | m :: n :: rest, hms, hmonomial =>
    refine Everywhere.of_parts (isCanonicalSum_ofMonomials hms (by simp)) ?_
    exact List.forall_mem_map.2 hmonomial

/-! ### Symbols -/

/-- Only the symbols that are left matter to the reduction of a term that has no others. -/
theorem reduce_of_leaves {definitions : Definitions} {t : Term}
    (h : t.MentionsOnly (Leaves s definitions)) : reduce s definitions t = reduce s [] t := by
  have hagree : AgreeOn (fun name => definitions.lookup name = none) definitions [] :=
    { lookup_eq := fun name hname => hname
      closed := fun name definition hname hlookup => by rw [hname] at hlookup; cases hlookup }
  exact hagree.reduce_eq fun hs name hname => h name hname hs

/-- Reducing a canonical result again leaves it as it is. -/
theorem reduce_reduce {definitions : Definitions} {t : Term}
    (h : IsCanonical s (reduce s definitions t).value) :
    (reduce s definitions (reduce s definitions t).value).value =
      (reduce s definitions t).value := by
  rw [reduce_of_leaves (mentionsOnly_reduce s definitions t), reduce_nil]
  exact reduceKept_of_isCanonical _ h

/-- A polynomial that is multiplied out completely has a canonical result. -/
theorem isCanonical_reduce {definitions : Definitions} (hs : s.expands = true) {t : Term}
    (ht : t.IsPolynomial) (hleaves : t.MentionsOnly (Leaves s definitions))
    (hexpanded : (reduce s definitions t).IsExpanded) :
    IsCanonical s (reduce s definitions t).value := by
  have hkept := reduceSymbol_nil s ([] : Definitions).length []
  obtain ⟨hvalue, htrace⟩ := reduce_of_kept hkept t
  rw [reduce_of_leaves hleaves] at hexpanded ⊢
  have hkeptExpanded : (reduceKept s t).IsExpanded := by
    simpa only [Build.IsExpanded, htrace] using hexpanded
  rw [hvalue]
  exact isCanonical_of_isExpandedForm (reduceKept_isExpandedForm hs t ht hkeptExpanded)

end Reduction

/-! ### Handles -/

namespace Context

variable {context : Context} {s : Reduction.Settings} {handle : Handle} {t : Term}

/-- The term at a handle is reduced to a handle of the reduced term, while the pool grows. -/
theorem exists_record_reduce (h : context.pool.IsWellFormed)
    (ht : context.pool.get? handle = some t) : ∃ result after,
      context.reduceHandle s handle = .ok (result, after) ∧ context.Grows after ∧
        after = (context.record (Reduction.reduce s context.definedTerms t)).2 ∧
        after.pool.get? result = some (Reduction.reduce s context.definedTerms t).value := by
  have hget : context.pool.get handle = .ok t := Pool.get_eq_ok_iff.2 ht
  have hstarts : (Reduction.reduce s context.definedTerms t).StartsFrom (terms context) :=
    Reduction.startsFrom_reduce context.terms_definedTerms_subset (mem_terms_of_get hget)
  obtain ⟨hgrows, -⟩ := grows_record h hstarts
  have hresult := tree?_handleOf_record h hstarts (List.mem_singleton_self _)
  rw [hgrows.isWellFormed.tree?_eq_get?] at hresult
  refine ⟨_, _, ?_, hgrows, rfl, hresult⟩
  unfold reduceHandle
  rw [hget]
  rfl

/-- Reducing a result that obeys the rules of the standard form again, with the same settings and
    without a memory of the first time, returns its handle.  The results of polynomials obey them
    if symbols are left, products are multiplied out and none has too many terms for that. -/
theorem reduceHandle_idempotent (h : context.pool.Reachable) (hdefines : context.DefinesTerms)
    (s : Reduction.Settings) (ht : context.pool.tree? handle = some t) :
    ∃ result after u, context.reduceHandle s handle = .ok (result, after) ∧
      after.pool.tree? result = some u ∧
      (Reduction.IsCanonical s u → ∃ again, after.reduceHandle s result = .ok (result, again)) ∧
      (s.expands = true → t.IsPolynomial →
        t.MentionsOnly (Reduction.Leaves s context.definedTerms) → context.ReducesExpanded s t →
          Reduction.IsCanonical s u) := by
  rw [h.isWellFormed.tree?_eq_get?] at ht
  obtain ⟨result, after, hreduce, hgrows, hafter, hresult⟩ :=
    exists_record_reduce (s := s) h.isWellFormed ht
  have hdefinitions : after.definedTerms = context.definedTerms := hafter ▸ (hdefines.record _).2
  refine ⟨result, after, _, hreduce, (hgrows.isWellFormed.tree?_eq_get? result).trans hresult,
    fun hcanonical => ?_, fun hs hpolynomial hleaves hexpanded =>
      Reduction.isCanonical_reduce hs hpolynomial hleaves hexpanded⟩
  obtain ⟨result', again, hreduce', hgrows', -, hresult'⟩ :=
    exists_record_reduce (s := s) hgrows.isWellFormed hresult
  rw [hdefinitions, Reduction.reduce_reduce hcanonical] at hresult'
  have hlive : result.index < again.pool.size :=
    hgrows'.index_lt (Array.getElem?_eq_some_iff.1 hresult).1
  have hsame : result = result' := (hgrows'.isWellFormed.get?_inj hlive).1
    ((hgrows'.pool result _ hresult).trans hresult'.symm)
  exact ⟨again, hsame ▸ hreduce'⟩

/-- Reducing the opposite of `x` again leaves it as it is. -/
theorem reduceHandle_idempotent_opposite :
    let context : Context := { pool := Pool.opposites }
    let s : Reduction.Settings := { symbols := .keepAll }
    context.pool.Reachable ∧ context.DefinesTerms ∧
      context.pool.tree? ⟨1⟩ = some (.negation (.symbol "x")) ∧
        ∃ result after again, context.reduceHandle s ⟨1⟩ = .ok (result, after) ∧
          after.reduceHandle s result = .ok (result, again) := by
  intro context s
  have hpool : context.pool.Reachable := Pool.reachable_opposites
  have hdefines : context.DefinesTerms := by simp [DefinesTerms, context]
  have ht : context.pool.tree? ⟨1⟩ = some (.negation (.symbol "x")) := by
    rw [hpool.isWellFormed.tree?_eq_get?]
    simp [context, Pool.opposites, Pool.get?, Pool.internAll, Pool.intern, Pool.insert,
      Pool.internName, Pool.symbolNumber?]
  have hexpanded : context.ReducesExpanded s (.negation (.symbol "x")) :=
    (Reduction.isExpanded_reduce rfl _ _).2 (by
      unfold Build.IsExpanded
      decide +kernel)
  obtain ⟨result, after, u, hreduce, -, hagain, hcanonical⟩ :=
    reduceHandle_idempotent hpool hdefines s ht
  obtain ⟨again, hsame⟩ := hagain (hcanonical rfl (by simp [IsPolynomial])
    (by rintro _ _ ⟨⟩) hexpanded)
  exact ⟨hpool, hdefines, ht, result, after, again, hreduce, hsame⟩

end Context

end EquationSolver
