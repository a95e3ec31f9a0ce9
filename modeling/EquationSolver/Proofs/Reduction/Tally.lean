import EquationSolver.Proofs.Reduction.Operands
import Mathlib.Data.List.Nodup

/-!
# Tallying coefficients

A sum collects the coefficients of each body.  Where the coefficients are exact, each body is there
once and has what its coefficients add up to, in whatever order they come.
-/

namespace EquationSolver

namespace Reduction

/-- What the coefficients of a body add up to. -/
def total (body : Option Term) (items : List (Rat × Option Term)) : Rat :=
  ((items.filter fun item => item.2 = body).map Prod.fst).sum

theorem total_append (body : Option Term) (items items' : List (Rat × Option Term)) :
    total body (items ++ items') = total body items + total body items' := by
  simp [total]

theorem total_perm {body : Option Term} {items items' : List (Rat × Option Term)}
    (h : items.Perm items') : total body items = total body items' :=
  ((h.filter _).map _).sum_eq

theorem total_of_not_mem {body : Option Term} {items : List (Rat × Option Term)}
    (h : ∀ item ∈ items, item.2 ≠ body) : total body items = 0 := by
  have hnone : (items.filter fun item => item.2 = body) = [] :=
    List.filter_eq_nil_iff.2 fun item hitem heq => h item hitem (of_decide_eq_true heq)
  rw [total, hnone]
  rfl

/-- A body that is there once has its own coefficient. -/
theorem total_of_nodup {items : List (Rat × Option Term)} (h : (items.map Prod.snd).Nodup)
    {item : Rat × Option Term} (hitem : item ∈ items) : total item.2 items = item.1 := by
  obtain ⟨before, after, rfl⟩ := List.append_of_mem hitem
  rw [List.map_append, List.map_cons, List.nodup_middle, List.nodup_cons, ← List.map_append] at h
  have hother : ∀ other ∈ before ++ after, other.2 ≠ item.2 :=
    fun other hmem heq => h.1 (heq ▸ List.mem_map_of_mem hmem)
  have hone : total item.2 [item] = item.1 := by simp [total]
  rw [total_perm List.perm_middle, ← List.singleton_append, total_append, hone,
    total_of_not_mem hother, add_zero]

/-! ### Collected bodies -/

/-- Collecting a coefficient adds its body behind the others, unless it is there. -/
theorem map_fst_collect (c : Coefficient) (body : Option Term)
    (done : List (Option Term × Coefficient)) :
    (collect c body done).map Prod.fst =
      if body ∈ done.map Prod.fst then done.map Prod.fst else done.map Prod.fst ++ [body] := by
  induction done with
  | nil => simp [collect]
  | cons part rest ih =>
    obtain ⟨other, present⟩ := part
    rw [collect]
    by_cases heq : other = body
    · simp [heq]
    · rw [if_neg heq, List.map_cons, ih, List.map_cons]
      by_cases hmem : body ∈ rest.map Prod.fst
      · rw [if_pos hmem, if_pos (List.mem_cons_of_mem _ hmem)]
      · rw [if_neg hmem, if_neg (fun h => (List.mem_cons.1 h).elim (fun h' => heq h'.symm) hmem),
          List.cons_append]

theorem nodup_collect {done : List (Option Term × Coefficient)} (h : (done.map Prod.fst).Nodup)
    (c : Coefficient) (body : Option Term) : ((collect c body done).map Prod.fst).Nodup := by
  rw [map_fst_collect]
  split_ifs with hmem
  · exact h
  · refine List.nodup_append.2 ⟨h, List.nodup_singleton _, fun other hother body' hbody' heq => ?_⟩
    obtain rfl : other = body := heq.trans (List.mem_singleton.1 hbody')
    exact hmem hother

/-- No body is collected twice. -/
theorem nodup_collectedParts (terms : List Term) :
    ((collectedParts terms).map Prod.fst).Nodup := by
  have hfold : ∀ (ts : List Term) (done : List (Option Term × Coefficient)),
      (done.map Prod.fst).Nodup → ((ts.foldl (fun done t =>
        collect (splitTerm t).value.1 (splitTerm t).value.2 done) done).map Prod.fst).Nodup := by
    intro ts
    induction ts with
    | nil => exact fun done h => h
    | cons t ts ih => exact fun done h => ih _ (nodup_collect h _ _)
  exact (hfold _ [] List.nodup_nil).sublist (List.filter_sublist.map _)

/-! ### Tallies -/

/-- The coefficients of the items have been collected. -/
structure IsTally (items : List (Rat × Option Term)) (done : List (Option Term × Coefficient)) :
    Prop where
  nodup : (done.map Prod.fst).Nodup
  mem_of_mem : ∀ item ∈ items, item.2 ∈ done.map Prod.fst
  total_eq : ∀ part ∈ done, part.2 = .exact (total part.1 items)

theorem collect_of_mem {c : Coefficient} {body : Option Term} :
    ∀ {done : List (Option Term × Coefficient)}, (done.map Prod.fst).Nodup →
      body ∈ done.map Prod.fst →
      collect c body done =
        done.map fun part => if part.1 = body then (part.1, part.2.add c) else part
  | (other, present) :: rest, hnodup, hmem => by
    obtain ⟨hother, hrest⟩ := List.nodup_cons.1 hnodup
    rw [collect, List.map_cons]
    split
    case isTrue heq =>
      have hkept : ∀ part ∈ rest,
          (if part.1 = body then (part.1, part.2.add c) else part) = part := by
        intro part hpart
        refine if_neg fun hbody => hother ?_
        rw [show other = part.1 from heq.trans hbody.symm]
        exact List.mem_map.2 ⟨part, hpart, rfl⟩
      rw [List.map_congr_left hkept, List.map_id']
    case isFalse hne =>
      rw [collect_of_mem hrest ((List.mem_cons.1 hmem).resolve_left fun heq => hne heq.symm)]

theorem IsTally.collect {items : List (Rat × Option Term)}
    {done : List (Option Term × Coefficient)} (h : IsTally items done) (c : Rat)
    (body : Option Term) :
    IsTally (items ++ [(c, body)]) (Reduction.collect (.exact c) body done) := by
  have htotal (other : Option Term) : total other (items ++ [(c, body)]) =
      total other items + if body = other then c else 0 := by
    rw [total_append]
    congr 1
    unfold total
    split <;> simp_all
  have hbodies := map_fst_collect (.exact c) body done
  refine ⟨nodup_collect h.nodup _ _, fun item hitem => ?_, fun part hpart => ?_⟩
  · rw [hbodies]
    rcases List.mem_append.1 hitem with hold | hnew
    · have hmem := h.mem_of_mem item hold
      split_ifs
      · exact hmem
      · exact List.mem_append_left _ hmem
    · rw [List.mem_singleton.1 hnew]
      split_ifs with hmem
      · exact hmem
      · exact List.mem_append_right _ List.mem_cons_self
  by_cases hmem : body ∈ done.map Prod.fst
  · rw [collect_of_mem h.nodup hmem] at hpart
    obtain ⟨before, hbefore, rfl⟩ := List.mem_map.1 hpart
    split
    case isTrue heq =>
      rw [h.total_eq before hbefore, htotal, if_pos heq.symm]
      rfl
    case isFalse hne =>
      rw [h.total_eq before hbefore, htotal, if_neg fun heq => hne heq.symm, add_zero]
  · have hfresh : ∀ part ∈ done, part.1 ≠ body :=
      fun part hpart heq => hmem (heq ▸ List.mem_map_of_mem hpart)
    have hnone : total body items = 0 :=
      total_of_not_mem fun item hitem heq => hmem (heq ▸ h.mem_of_mem item hitem)
    rw [collect_of_fresh hfresh] at hpart
    rcases List.mem_append.1 hpart with hold | hnew
    · rw [h.total_eq part hold, htotal, if_neg fun heq => hfresh part hold heq.symm, add_zero]
    · rw [List.mem_singleton.1 hnew, htotal, if_pos rfl, hnone, zero_add]

/-- Collecting tallies the coefficients. -/
theorem isTally_foldl (items : List (Rat × Option Term)) :
    IsTally items (items.foldl (fun done item => collect (.exact item.1) item.2 done) []) := by
  have hstart : IsTally [] [] := ⟨List.nodup_nil, nofun, nofun⟩
  have hrun : ∀ (rest before : List (Rat × Option Term)) (done : List (Option Term × Coefficient)),
      IsTally before done → IsTally (before ++ rest)
        (rest.foldl (fun done item => collect (.exact item.1) item.2 done) done) := by
    intro rest
    induction rest with
    | nil => exact fun before done h => (List.append_nil before).symm ▸ h
    | cons item rest ih =>
      intro before done h
      rw [List.append_cons]
      exact ih _ _ (h.collect item.1 item.2)
  exact hrun items [] [] hstart

/-- What is kept of a tally: the bodies whose coefficients do not add up to zero. -/
theorem IsTally.mem_kept_iff {items : List (Rat × Option Term)}
    {done : List (Option Term × Coefficient)} (h : IsTally items done)
    {part : Option Term × Coefficient} : part ∈ (done.filter fun part => !part.2.isZero) ↔
      part.2 = .exact (total part.1 items) ∧ total part.1 items ≠ 0 := by
  have hzero (c : Rat) : (Coefficient.exact c).isZero = false ↔ c ≠ 0 := by simp [Coefficient.isZero]
  rw [List.mem_filter, Bool.not_eq_true']
  constructor
  · rintro ⟨hmem, hkept⟩
    have htotal := h.total_eq part hmem
    rw [htotal, hzero] at hkept
    exact ⟨htotal, hkept⟩
  · rintro ⟨htotal, hne⟩
    refine ⟨?_, by rw [htotal, hzero]; exact hne⟩
    have hbody : part.1 ∈ done.map Prod.fst := by
      by_contra hnone
      exact hne (total_of_not_mem fun item hitem heq => hnone (heq ▸ h.mem_of_mem item hitem))
    obtain ⟨found, hfound, hsame⟩ := List.mem_map.1 hbody
    have heq : found = part := Prod.ext hsame (by rw [h.total_eq found hfound, hsame, htotal])
    exact heq ▸ hfound

/-- The order of the items makes no difference to what is kept of their tallies. -/
theorem IsTally.perm_kept {items items' : List (Rat × Option Term)}
    {done done' : List (Option Term × Coefficient)} (h : IsTally items done)
    (h' : IsTally items' done') (hperm : items.Perm items') :
    (done.filter fun part => !part.2.isZero).Perm (done'.filter fun part => !part.2.isZero) := by
  refine (List.perm_ext_iff_of_nodup (h.nodup.of_map _ |>.filter _)
    (h'.nodup.of_map _ |>.filter _)).2 fun part => ?_
  rw [h.mem_kept_iff, h'.mem_kept_iff, total_perm hperm]

end Reduction

end EquationSolver
