import EquationSolver.Proofs.Order.Handles
import EquationSolver.Proofs.Reduction.Decimals
import EquationSolver.Proofs.Reduction.Tally

/-!
# The order of terms in a sum

Terms that are added in another order have the same sum, down to its handle, if no approximate
number and no matrix occurs in them.  The exact coefficients of each body add up to the same number,
so what is collected is the same but for its order, and the terms that it is joined to are told
apart by the order in which they are sorted.
-/

namespace EquationSolver

namespace Term

variable {t u : Term}

theorem IsDecimalFree.everywhere_isStandard (h : t.IsDecimalFree) : t.Everywhere IsStandard := by
  intro u hwithin
  have hu := h.of_isWithin hwithin
  cases u with
  | decimal bits => exact absurd hu (not_isDecimalFree_decimal bits)
  | _ => trivial

theorem IsDecimalFree.everywhere_hasOrderedExponent (h : t.IsDecimalFree) :
    t.Everywhere HasOrderedExponent := by
  intro u hwithin
  have hu := h.of_isWithin hwithin
  cases u with
  | power base exponent =>
    cases exponent with
    | decimal bits => exact absurd (isDecimalFree_power.1 hu).2 (not_isDecimalFree_decimal bits)
    | _ => trivial
  | _ => trivial

/-- Lists of the same terms without decimals are sorted to the same list. -/
theorem sortTerms_eq_of_perm {ts us : List Term} (h : ∀ t ∈ ts, t.IsDecimalFree)
    (hperm : ts.Perm us) : sortTerms ts = sortTerms us := by
  rw [sortTerms_eq, sortTerms_eq]
  refine sortBy_eq_of_perm compareTerms_swap (fun a ha b hb heq => ?_)
    (fun a ha b hb c hc hab hbc => ?_) hperm
  · exact (compareTerms_eq_iff (h a ha).everywhere_isStandard (h b hb).everywhere_isStandard).1 heq
  · have hacross := composes_compareTerms (h a ha).everywhere_hasOrderedExponent
      (h b hb).everywhere_hasOrderedExponent (h c hc).everywhere_hasOrderedExponent hab hbc
    rw [hacross]
    cases hfirst : compareTerms a b with
    | lt => exact Ordering.noConfusion
    | eq => exact hbc
    | gt => exact absurd hfirst hab

end Term

namespace Reduction

open Term

variable {terms terms' : List Term} {t : Term}

/-! ### Collected parts -/

/-- The number and the body that are split off a term whose coefficient is exact. -/
def exactPart (t : Term) : Rat × Option Term :=
  (match (splitTerm t).value.1 with
    | .exact a => a
    | .approximate _ => 0, (splitTerm t).value.2)

theorem splitTerm_eq_exactPart (h : (splitTerm t).value.1.IsExact) :
    (splitTerm t).value = (.exact (exactPart t).1, (exactPart t).2) := by
  obtain ⟨a, ha⟩ := h
  unfold exactPart
  rw [ha]
  exact Prod.ext ha rfl

theorem isTally_exactParts (h : ∀ t ∈ terms, (splitTerm t).value.1.IsExact) :
    IsTally (terms.map exactPart) (terms.foldl
      (fun done t => collect (splitTerm t).value.1 (splitTerm t).value.2 done) []) := by
  have hfold (done : List (Option Term × Coefficient)) : terms.foldl
      (fun done t => collect (splitTerm t).value.1 (splitTerm t).value.2 done) done =
        (terms.map exactPart).foldl
          (fun done item => collect (.exact item.1) item.2 done) done := by
    rw [List.foldl_map]
    refine List.foldl_ext _ _ _ fun done t ht => ?_
    rw [splitTerm_eq_exactPart (h t ht)]
  rw [hfold]
  exact isTally_foldl _

/-- Terms in another order are collected to the same parts. -/
theorem collectedParts_perm (h : ∀ t ∈ terms, t.IsDecimalFree) (hperm : terms.Perm terms') :
    (collectedParts terms).Perm (collectedParts terms') := by
  have hflat := hperm.flatMap_right summands
  have hexact : ∀ t ∈ terms.flatMap summands, (splitTerm t).value.1.IsExact := fun t ht =>
    (isDecimalFreePart_splitTerm (isDecimalFree_flatMap_summands h t ht)).exact
  exact (isTally_exactParts hexact).perm_kept
    (isTally_exactParts fun t ht => hexact t (hflat.mem_iff.2 ht)) (hflat.map exactPart)

/-! ### Sums -/

theorem poison?_eq_of_perm (hperm : terms.Perm terms') : poison? terms = poison? terms' := by
  unfold poison?
  rw [hperm.any_eq, hperm.any_eq]

theorem hasMatrix_flatMap_summands (h : ∀ t ∈ terms, t.containsMatrix = false) :
    hasMatrix (terms.flatMap summands) = false := by
  have hnone : ∀ u ∈ terms.flatMap summands, u.containsMatrix = false :=
    forall_mem_flatMap_summands (fun _ ht _ hu => contains_eq_false_of_mem_children ht hu) h
  refine List.any_eq_false.2 fun u hu htrue => ?_
  exact Bool.noConfusion ((contains_eq_false_iff.1 (hnone u hu)).self.symm.trans htrue)

/-- Terms in another order have the same sum. -/
theorem add_perm (hdecimal : ∀ t ∈ terms, t.IsDecimalFree)
    (hmatrix : ∀ t ∈ terms, t.containsMatrix = false) (hperm : terms.Perm terms') :
    (add terms).value = (add terms').value := by
  have hflat := hperm.flatMap_right summands
  cases hdecided : poison? (terms.flatMap summands) with
  | some poison =>
    rw [add_of_poison? hdecided, add_of_poison? ((poison?_eq_of_perm hflat).symm.trans hdecided)]
  | none =>
    have hplain := isPlain_of_unmarked hdecided (hasMatrix_flatMap_summands hmatrix)
    have hplain' : ∀ t ∈ terms'.flatMap summands, IsPlain t :=
      fun t ht => hplain t (hflat.mem_iff.2 ht)
    rw [add_value hplain, add_value hplain']
    refine congrArg sumOf (sortTerms_eq_of_perm (fun t ht => ?_)
      ((collectedParts_perm hdecimal hperm).map _))
    obtain ⟨part, hpart, rfl⟩ := List.mem_map.1 ht
    exact isDecimalFree_joinTerm (isAdditive_isDecimalFreePart.collectedParts
      (fun u hu => isDecimalFreePart_splitTerm (isDecimalFree_flatMap_summands hdecimal u hu))
        part hpart).1

end Reduction

/-! ### Handles -/

namespace Pool

variable {pool : Pool} {handles handles' : List Handle} {ts : List Term}

/-- Add the terms at handles; the sum is a handle, too. -/
def addHandles (pool : Pool) (handles : List Handle) : Except Fault (Handle × Pool) := do
  let ts ← handles.mapM pool.get
  let (sum, after) := pool.record (Reduction.add ts)
  pure (after.handleOf sum, after)

theorem mapM_get_eq {f : Handle → Term}
    (h : ∀ handle ∈ handles, pool.get? handle = some (f handle)) :
    handles.mapM pool.get = .ok (handles.map f) := by
  induction handles with
  | nil => rfl
  | cons handle rest ih =>
    obtain ⟨hfirst, hrest⟩ := List.forall_mem_cons.1 h
    rw [List.mapM_cons, get_eq_ok_iff.2 hfirst, ih hrest]
    rfl

/-- The sum of the terms at handles is in the pool that is left behind, and so is all that was in
    the pool before. -/
theorem IsWellFormed.exists_addHandles (h : pool.IsWellFormed)
    (hts : handles.mapM pool.get = .ok ts) : ∃ sum after,
      pool.addHandles handles = .ok (sum, after) ∧ after.IsWellFormed ∧ pool.Extends after ∧
        after.get? sum = some (Reduction.add ts).value := by
  have hgrounds := Reduction.grounds_add (h.sound.mem_known_of_mapM hts)
  obtain ⟨hsound, -, hmem⟩ := h.sound.record hgrounds
  refine ⟨_, _, ?_, h.record hgrounds, extends_internAll pool _, hsound.get?_handleOf hmem⟩
  unfold addHandles
  rw [hts]
  rfl

/-- Terms without approximate numbers and matrices have the same sum in whatever order they are
    added: the same handle, one after the other in a pool, and the same term, each on its own. -/
theorem addHandles_perm (h : pool.IsWellFormed) (hperm : handles.Perm handles')
    (hterms : ∀ handle ∈ handles, ∃ t, pool.tree? handle = some t ∧
      t.containsDecimal = false ∧ t.containsMatrix = false) :
    ∃ sum after again, pool.addHandles handles = .ok (sum, after) ∧
      after.addHandles handles' = .ok (sum, again) ∧
      ∃ sum' after', pool.addHandles handles' = .ok (sum', after') ∧
        after'.tree? sum' = after.tree? sum := by
  let f (handle : Handle) : Term := (pool.get? handle).getD .undefined
  have hf : ∀ handle ∈ handles, pool.get? handle = some (f handle) ∧
      (f handle).containsDecimal = false ∧ (f handle).containsMatrix = false := by
    intro handle hhandle
    obtain ⟨t, ht, hexact⟩ := hterms handle hhandle
    rw [h.tree?_eq_get?] at ht
    have hft : f handle = t := by rw [show f handle = (pool.get? handle).getD _ from rfl, ht]; rfl
    exact ⟨ht.trans (congrArg some hft.symm), hft ▸ hexact⟩
  have hf' : ∀ handle ∈ handles', pool.get? handle = some (f handle) :=
    fun handle hhandle => (hf handle (hperm.mem_iff.2 hhandle)).1
  have hvalue : (Reduction.add (handles.map f)).value = (Reduction.add (handles'.map f)).value :=
    Reduction.add_perm (List.forall_mem_map.2 fun handle hhandle => (hf handle hhandle).2.1)
      (List.forall_mem_map.2 fun handle hhandle => (hf handle hhandle).2.2) (hperm.map f)
  obtain ⟨sum, after, hsum, hafter, hextends, hfound⟩ :=
    h.exists_addHandles (mapM_get_eq fun handle hhandle => (hf handle hhandle).1)
  obtain ⟨sum₂, again, hsum₂, hagain, hextends₂, hfound₂⟩ :=
    hafter.exists_addHandles
      (mapM_get_eq fun handle hhandle => hextends handle _ (hf' handle hhandle))
  obtain ⟨sum', after', hsum', hafter', -, hfound'⟩ := h.exists_addHandles (mapM_get_eq hf')
  have hkept : again.get? sum = some (Reduction.add (handles.map f)).value :=
    hextends₂ sum _ hfound
  have hsame : sum = sum₂ := by
    refine (hagain.get?_inj (Array.getElem?_eq_some_iff.1 hkept).1).1 ?_
    rw [hkept, hfound₂, hvalue]
  refine ⟨sum, after, again, hsum, hsame ▸ hsum₂, sum', after', hsum', ?_⟩
  rw [hafter'.tree?_eq_get?, hafter.tree?_eq_get?, hfound, hfound', hvalue]

/-- `x + √x + x` and `√x + x + x` are the same sum. -/
theorem addHandles_perm_roots : ∃ sum after again,
    roots.addHandles [⟨0⟩, ⟨2⟩, ⟨0⟩] = .ok (sum, after) ∧
      after.addHandles [⟨2⟩, ⟨0⟩, ⟨0⟩] = .ok (sum, again) := by
  have hpool : roots.IsWellFormed := reachable_roots.isWellFormed
  have hsymbol : roots.tree? ⟨0⟩ = some (.symbol "x") := by
    rw [hpool.tree?_eq_get?, get?, terms_roots]
    rfl
  have hroot : roots.tree? ⟨2⟩ = some (.squareRoot (.symbol "x")) := by
    rw [hpool.tree?_eq_get?, get?, terms_roots]
    rfl
  have hterms : ∀ handle ∈ [(⟨0⟩ : Handle), ⟨2⟩, ⟨0⟩], ∃ t, roots.tree? handle = some t ∧
      t.containsDecimal = false ∧ t.containsMatrix = false := by
    intro handle hhandle
    simp only [List.mem_cons, List.not_mem_nil, or_false] at hhandle
    rcases hhandle with rfl | rfl | rfl
    · exact ⟨_, hsymbol, by decide⟩
    · exact ⟨_, hroot, by decide⟩
    · exact ⟨_, hsymbol, by decide⟩
  obtain ⟨sum, after, again, hsum, hagain, -⟩ :=
    addHandles_perm hpool (.swap ⟨2⟩ ⟨0⟩ [⟨0⟩]) hterms
  exact ⟨sum, after, again, hsum, hagain⟩

end Pool

end EquationSolver
