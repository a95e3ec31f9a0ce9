import EquationSolver.Interned.Arithmetic
import EquationSolver.Proofs.Interned.Program

/-!
# Sums of handles

Adding handles performs the addition of the terms that they denote: handles decide what the terms
decide, and as equal terms have one handle, like terms are found by the handles of their bodies.
-/

namespace EquationSolver

/-! ### Tests of nodes -/

namespace Pool.StandsFor

variable {pool : Pool} {n : Node} {t : Term}

theorem isUndefined_eq (h : pool.StandsFor n t) :
    n.isUndefined = (fun t : Term => t matches .undefined) t := by
  cases h <;> rfl

theorem isNonreal_eq (h : pool.StandsFor n t) :
    n.isNonreal = (fun t : Term => t matches .nonreal) t := by
  cases h <;> rfl

theorem isMatrix_eq (h : pool.StandsFor n t) :
    n.isMatrix = (fun t : Term => t matches .matrix _ _ _) t := by
  cases h <;> rfl

theorem isSum_eq (h : pool.StandsFor n t) : n.isSum = t.isSum := by
  cases h <;> rfl

theorem isZero_eq (h : pool.StandsFor n t) : n.isZero = t.isZero := by
  cases h <;> rfl

theorem isOne_eq (h : pool.StandsFor n t) : n.isOne = t.isOne := by
  cases h <;> rfl

theorem isNumeric_eq (h : pool.StandsFor n t) : n.isNumeric = t.isNumeric := by
  cases h <;> rfl

theorem numericDouble_eq (h : pool.StandsFor n t) :
    n.numericDouble = Reduction.numericDouble t := by
  cases h <;> rfl

theorem coefficient?_eq (h : pool.StandsFor n t) : n.coefficient? = Coefficient.of? t := by
  cases h <;> rfl

end Pool.StandsFor

namespace Interned

open PoolProgram

variable {pool : Pool} {hs : List Handle} {ts : List Term}

/-! ### Operands that decide the result -/

/-- A call of a constructor that needs no operands and the term that it builds. -/
def linkedAtom : Linked Construction Term where
  Holds _ c t := ∀ pool, c.build pool = .ok (Build.make t)
  mono _ _ _ h := h

theorem performs_poison? (h : pool.Reachable) (hts : Linked.handle.list.Holds pool hs ts) :
    Performs pool (poison? hs) (pure (Reduction.poison? ts)) linkedAtom.option := by
  refine (performs_nodes h hts).read fun ns hns => ?_
  have hundefined := any_eq_of_nodes (fun _ _ hn => hn.isUndefined_eq) hns
  have hnonreal := any_eq_of_nodes (fun _ _ hn => hn.isNonreal_eq) hns
  rw [Reduction.poison?, apply_ite pure, apply_ite pure]
  refine performs_ite_of_iff (Bool.eq_iff_iff.1 hundefined) (fun _ => ?_) fun _ => ?_
  · exact performs_pure h (.some fun _ => rfl)
  refine performs_ite_of_iff (Bool.eq_iff_iff.1 hnonreal) (fun _ => ?_) fun _ => ?_
  · exact performs_pure h (.some fun _ => rfl)
  · exact performs_pure h .none

theorem performs_hasMatrix (h : pool.Reachable) (hts : Linked.handle.list.Holds pool hs ts) :
    Performs pool (hasMatrix hs) (pure (Reduction.hasMatrix ts)) (.same Bool) := by
  refine (performs_nodes h hts).read fun ns hns => performs_pure h ?_
  exact any_eq_of_nodes (fun _ _ hn => hn.isMatrix_eq) hns

/-- Unless operands decide the result, both go on alike. -/
theorem performs_unlessPoison (h : pool.Reachable) (hts : Linked.handle.list.Holds pool hs ts)
    {program : PoolProgram Handle} {b : Build Term} (hrest : Performs pool program b .handle) :
    Performs pool
      (do match ← poison? hs with
        | some poison => construct poison
        | none => program)
      (match Reduction.poison? ts with
        | some poison => Build.make poison
        | none => b) .handle := by
  refine (performs_poison? h hts).read fun poison hpoison => ?_
  revert hpoison
  cases Reduction.poison? ts with
  | none =>
    rintro ⟨⟩
    exact hrest
  | some t =>
    intro hpoison
    obtain ⟨hbuild⟩ := hpoison
    exact performs_construct h (hbuild pool)

/-- With a matrix among the operands and without, both go on alike. -/
theorem performs_ifMatrix (h : pool.Reachable) (hts : Linked.handle.list.Holds pool hs ts)
    {program program' : PoolProgram Handle} {b b' : Build Term}
    (hmatrix : Performs pool program b .handle) (hplain : Performs pool program' b' .handle) :
    Performs pool (do if ← hasMatrix hs then program else program')
      (if Reduction.hasMatrix ts then b else b') .handle := by
  refine (performs_hasMatrix h hts).read fun found hfound => ?_
  cases hfound
  exact performs_ite (fun _ => hmatrix) fun _ => hplain

/-! ### Parts of a sum -/

theorem performs_summands (h : pool.Reachable) {handle : Handle} {t : Term}
    (ht : pool.Denotes handle t) :
    Performs pool (summands handle) (pure (Reduction.summands t)) Linked.handle.list := by
  have hself : Linked.handle.list.Holds pool [handle] [t] := .cons ht .nil
  refine (performs_node h ht).read fun n hn => ?_
  cases hn with
  | sum hts => exact performs_pure h hts
  | _ => exact performs_pure h hself

theorem performs_coefficient (h : pool.Reachable) (c : Coefficient) :
    Performs pool (construct c.construction) (Build.make c.toTerm) .handle := by
  cases c with
  | exact a => exact performs_number h a
  | approximate x => exact performs_decimal h x

/-- The coefficient and the body of a term, linked. -/
def linkedPart : Linked (Coefficient × Option Handle) (Coefficient × Option Term) :=
  (Linked.same Coefficient).pair Linked.handle.option

theorem performs_splitTerm (h : pool.Reachable) {handle : Handle} {t : Term}
    (ht : pool.Denotes handle t) :
    Performs pool (splitTerm handle) (Reduction.splitTerm t) linkedPart := by
  have hself : linkedPart.Holds pool (.one, some handle) (.one, some t) := ⟨rfl, .some ht⟩
  refine (performs_node h ht).read fun n hn => ?_
  cases hn with
  | product hts =>
    cases hts with
    | nil => exact performs_pure h hself
    | @cons a x hs ts hx hts =>
      refine (performs_node h hx).read fun m hm => ?_
      rw [hm.coefficient?_eq, Reduction.splitTerm]
      cases Coefficient.of? x with
      | none => exact performs_pure h hself
      | some c =>
        refine (performs_product h hts).bind fun pool' body hleads hbody => ?_
        exact performs_pure hleads.reachable ⟨rfl, .some hbody⟩
  | number a => exact performs_pure h ⟨rfl, .none⟩
  | decimal bits => exact performs_pure h ⟨rfl, .none⟩
  | _ => exact performs_pure h hself

theorem performs_joinTerm (h : pool.Reachable) (c : Coefficient) {handle : Option Handle}
    {body : Option Term} (hbody : Linked.handle.option.Holds pool handle body) :
    Performs pool (joinTerm c handle) (Reduction.joinTerm c body) .handle := by
  cases hbody with
  | none => exact performs_coefficient h c
  | @some handle t ht =>
    refine performs_ite (fun _ => performs_pure h ht) fun _ => ?_
    refine (performs_coefficient h c).bind fun pool' first hleads hfirst => ?_
    have ht' : pool'.Denotes handle t := hleads.grows _ _ ht
    have hpair : Linked.handle.list.Holds pool' [first, handle] [c.toTerm, t] :=
      .cons hfirst (.cons ht' .nil)
    refine (performs_node hleads.reachable ht').read fun n hn => ?_
    cases hn with
    | product hts => exact performs_product hleads.reachable (.cons hfirst hts)
    | _ => exact performs_product hleads.reachable hpair

/-! ### Like terms -/

/-- Coefficients collected for the same bodies, linked. -/
def linkedTally : Linked (List (Option Handle × Coefficient)) (List (Option Term × Coefficient)) :=
  (Linked.handle.option.pair (.same Coefficient)).list

/-- Handles of bodies are equal exactly if the bodies are. -/
theorem option_inj (h : pool.Reachable) {a b : Option Handle} {x y : Option Term}
    (hx : Linked.handle.option.Holds pool a x) (hy : Linked.handle.option.Holds pool b y) :
    a = b ↔ x = y := by
  cases hx with
  | none => cases hy <;> simp
  | some hx =>
    cases hy with
    | none => simp
    | some hy => rw [Option.some.injEq, Option.some.injEq, h.denotes_inj hx hy]

theorem holds_collect (h : pool.Reachable) (c : Coefficient) {handle : Option Handle}
    {body : Option Term} (hbody : Linked.handle.option.Holds pool handle body)
    {done : List (Option Handle × Coefficient)} {done' : List (Option Term × Coefficient)}
    (hdone : linkedTally.Holds pool done done') :
    linkedTally.Holds pool (Reduction.collect c handle done) (Reduction.collect c body done') := by
  induction hdone with
  | nil => exact .cons ⟨hbody, rfl⟩ .nil
  | @cons part part' rest rest' hpart hrest ih =>
    obtain ⟨other, present⟩ := part
    obtain ⟨other', present'⟩ := part'
    obtain ⟨hother, rfl⟩ := hpart
    rw [Reduction.collect, Reduction.collect]
    by_cases heq : other = handle
    · rw [if_pos heq, if_pos ((option_inj h hother hbody).1 heq)]
      exact .cons ⟨hother, rfl⟩ hrest
    · rw [if_neg heq, if_neg fun heq' => heq ((option_inj h hother hbody).2 heq')]
      exact .cons ⟨hother, rfl⟩ ih

theorem holds_foldl_collect (h : pool.Reachable) {parts : List (Coefficient × Option Handle)}
    {parts' : List (Coefficient × Option Term)} (hparts : linkedPart.list.Holds pool parts parts')
    {done : List (Option Handle × Coefficient)} {done' : List (Option Term × Coefficient)}
    (hdone : linkedTally.Holds pool done done') :
    linkedTally.Holds pool
      (parts.foldl (fun done part => Reduction.collect part.1 part.2 done) done)
      (parts'.foldl (fun done part => Reduction.collect part.1 part.2 done) done') := by
  induction hparts generalizing done done' with
  | nil => exact hdone
  | @cons part part' rest rest' hpart _ ih =>
    obtain ⟨c, body⟩ := part
    obtain ⟨c', body'⟩ := part'
    obtain ⟨rfl, hbody⟩ := hpart
    exact ih (holds_collect h c hbody hdone)

theorem holds_kept {done : List (Option Handle × Coefficient)}
    {done' : List (Option Term × Coefficient)} (hdone : linkedTally.Holds pool done done') :
    linkedTally.Holds pool (done.filter fun part => !part.2.isZero)
      (done'.filter fun part => !part.2.isZero) := by
  induction hdone with
  | nil => exact .nil
  | @cons part part' rest rest' hpart _ ih =>
    rw [List.filter_cons, List.filter_cons, hpart.2]
    split
    · exact .cons hpart ih
    · exact ih

/-! ### Sums -/

theorem holds_flatten {hss : List (List Handle)} {tss : List (List Term)}
    (h : Linked.handle.list.list.Holds pool hss tss) :
    Linked.handle.list.Holds pool hss.flatten tss.flatten := by
  induction h with
  | nil => exact .nil
  | cons hts _ ih => exact List.rel_append hts ih

/-- Adding handles performs the sum of their terms. -/
theorem performs_add (h : pool.Reachable) (hts : Linked.handle.list.Holds pool hs ts) :
    Performs pool (add hs) (Reduction.add ts) .handle := by
  have hsummands := performs_mapM_pure h (fun _ _ ht => performs_summands h ht) hts
  refine hsummands.read fun flat hflat => ?_
  replace hflat := holds_flatten hflat
  rw [← List.flatMap_def] at hflat
  refine performs_unlessPoison h hflat (performs_ifMatrix h hflat (performs_sum h hflat) ?_)
  have hsplit := performs_mapM h (fun pool' hleads _ _ _ ht =>
    performs_splitTerm hleads.reachable ht) hflat
  refine hsplit.bind fun pool' parts hleads hparts => ?_
  have htally : linkedTally.Holds pool' _ _ := holds_kept (holds_foldl_collect hleads.reachable hparts .nil)
  have hjoin := performs_mapM (S := .handle) (f := fun part => joinTerm part.2 part.1)
    (g := fun part => Reduction.joinTerm part.2 part.1) hleads.reachable
    (fun pool'' hleads' part _ part' hpart => by
      obtain ⟨hbody, hc⟩ := hpart
      rw [hc]
      exact performs_joinTerm hleads'.reachable part'.2 hbody) htally
  refine hjoin.bind fun pool'' joined hleads' hjoined => ?_
  have hsort : Performs pool'' (sort Pool.compareTermHandles joined) _ Linked.handle.list :=
    performs_sort hleads'.reachable
      (fun _ _ _ _ ha hb => hleads'.reachable.compareTermHandles_eq ha hb) hjoined
  rw [← Term.sortTerms_eq] at hsort
  exact hsort.read fun sorted hsorted => performs_sum hleads'.reachable hsorted

end Interned

end EquationSolver
