import EquationSolver.Proofs.Interned.Sum

/-!
# Products of handles

Multiplying handles performs the multiplication of the terms that they denote, as long as the
powers and smaller products that it is made of do.
-/

namespace EquationSolver

namespace Interned

open PoolProgram
open Reduction (Settings PowerGroup)

variable {pool : Pool} {hs : List Handle} {ts : List Term}

/-- A program for powers performs the powers of terms in every reachable pool. -/
def PerformsPow (pow : Handle → Handle → PoolProgram Handle) (pow' : Term → Term → Build Term) :
    Prop :=
  ∀ pool : Pool, pool.Reachable → ∀ a x b e, pool.Denotes a x → pool.Denotes b e →
    Performs pool (pow a b) (pow' x e) .handle

/-- A program for products performs the products of terms in every reachable pool. -/
def PerformsMul (mul : List Handle → PoolProgram Handle) (mul' : List Term → Build Term) : Prop :=
  ∀ pool : Pool, pool.Reachable → ∀ hs ts, Linked.handle.list.Holds pool hs ts →
    Performs pool (mul hs) (mul' ts) .handle

/-- The product of two handles. -/
theorem PerformsMul.two {mul : List Handle → PoolProgram Handle} {mul' : List Term → Build Term}
    (hmul : PerformsMul mul mul') (h : pool.Reachable) {a b : Handle} {x y : Term}
    (hx : pool.Denotes a x) (hy : pool.Denotes b y) :
    Performs pool (mul [a, b]) (mul' [x, y]) .handle :=
  hmul pool h _ _ (.cons hx (.cons hy .nil))

/-! ### Factors of a product -/

/-- A coefficient and factors that are no numbers, linked. -/
def linkedFactors : Linked (Coefficient × List Handle) (Coefficient × List Term) :=
  (Linked.same Coefficient).pair Linked.handle.list

/-- The coefficient and the other factors after more factors. -/
def absorbMore (done : Coefficient × List Term) (factors : List Term) : Coefficient × List Term :=
  (Reduction.multiplyNumbers done.1 factors, done.2 ++ factors.filter fun t => !t.isNumeric)

theorem absorbMore_singleton (done : Coefficient × List Term) (t : Term) :
    absorbMore done [t] =
      match Coefficient.of? t with
      | some c => (done.1.mul c, done.2)
      | none => (done.1, done.2 ++ [t]) := by
  cases t <;> simp [absorbMore, Reduction.multiplyNumbers, Coefficient.of?, Term.isNumeric]

theorem absorbMore_append (done : Coefficient × List Term) (ts us : List Term) :
    absorbMore (absorbMore done ts) us = absorbMore done (ts ++ us) := by
  simp [absorbMore, Reduction.multiplyNumbers]

/-- One factor after the other is absorbed as all that they are made of. -/
theorem foldl_absorbMore (ts : List Term) (done : Coefficient × List Term) :
    ts.foldl (fun done t => absorbMore done (Reduction.flatFactors t)) done =
      absorbMore done (Reduction.flatFactorsOfAll ts) := by
  induction ts generalizing done with
  | nil => simp [absorbMore, Reduction.multiplyNumbers, Reduction.flatFactorsOfAll]
  | cons t ts ih =>
    rw [List.foldl_cons, ih, absorbMore_append, Reduction.flatFactorsOfAll]

/-- Down to a depth beyond the index, what a factor is made of is absorbed. -/
theorem performs_absorbWithin (h : pool.Reachable) {depth : Nat} {handle : Handle} {t : Term}
    (hdepth : handle.index < depth) (ht : pool.Denotes handle t)
    {done : Coefficient × List Handle} {done' : Coefficient × List Term}
    (hdone : linkedFactors.Holds pool done done') :
    Performs pool (absorbWithin depth done handle)
      (pure (absorbMore done' (Reduction.flatFactors t))) linkedFactors := by
  induction depth generalizing handle t done done' with
  | zero => omega
  | succ depth ih =>
    have hflat := absorbMore_singleton done' t
    obtain ⟨c, factors⟩ := done
    obtain ⟨c', factors'⟩ := done'
    obtain ⟨rfl, hfactors⟩ := hdone
    refine (performs_node h ht).read fun n hn => ?_
    cases hn with
    | @product hs ts hts =>
      have hlt := h.index_lt_of_children ht hts
      have hfold := performs_foldlM (R := .handle) (S := linkedFactors) h
        (fun a ha done u done' hdone hu => ih (by have := hlt a ha; omega) hu hdone) hts
        (c := (c, factors)) (d := (c, factors')) ⟨rfl, hfactors⟩
      rw [foldl_absorbMore] at hfold
      exact hfold
    | number a => exact performs_pure h (hflat ▸ ⟨rfl, hfactors⟩)
    | decimal bits => exact performs_pure h (hflat ▸ ⟨rfl, hfactors⟩)
    | _ => exact performs_pure h (hflat ▸ ⟨rfl, List.rel_append hfactors (.cons ht .nil)⟩)

/-- Factors are absorbed as the terms that they denote. -/
theorem performs_absorb (h : pool.Reachable) (c : Coefficient)
    (hts : Linked.handle.list.Holds pool hs ts) :
    Performs pool (absorb c hs) (pure (Reduction.absorb c ts)) linkedFactors := by
  have hfold := performs_foldlM (S := linkedFactors) h
    (f := fun done factor => absorbWithin (factor.index + 1) done factor)
    (fun a _ done u done' hdone hu => performs_absorbWithin h (Nat.lt_succ_self _) hu hdone) hts
    (c := (c, [])) (d := (c, [])) ⟨rfl, .nil⟩
  rw [foldl_absorbMore] at hfold
  exact hfold

theorem isEmpty_eq {α β : Type} {R : α → β → Prop} {as : List α} {bs : List β}
    (h : List.Forall₂ R as bs) : as.isEmpty = bs.isEmpty := by
  cases h <;> rfl

theorem performs_sortedProduct (h : pool.Reachable) (c : Coefficient)
    (hts : Linked.handle.list.Holds pool hs ts) :
    Performs pool (sortedProduct c hs) (Reduction.sortedProduct c ts) .handle := by
  have hsort : Performs pool (sort Pool.compareHandles hs) (pure (sortBy Term.compare ts))
      Linked.handle.list :=
    performs_sort h (fun _ _ _ _ ha hb => h.compareHandles_eq ha hb) hts
  refine hsort.read fun sorted hsorted => ?_
  have hempty := isEmpty_eq hsorted
  refine performs_ite_of_iff (Bool.eq_iff_iff.1 hempty) (fun _ => performs_coefficient h c)
    fun _ => performs_ite (fun _ => performs_product h hsorted) fun _ => ?_
  refine (performs_coefficient h c).bind fun pool' first hleads hfirst => ?_
  exact performs_product hleads.reachable (.cons hfirst (Linked.handle.list.mono hleads hsorted))

theorem performs_matrixProduct (h : pool.Reachable) (c : Coefficient)
    (hts : Linked.handle.list.Holds pool hs ts) :
    Performs pool (matrixProduct c hs) (Reduction.matrixProduct c ts) .handle := by
  refine performs_ite (fun _ => performs_product h hts) fun _ => ?_
  refine (performs_coefficient h c).bind fun pool' first hleads hfirst => ?_
  exact performs_product hleads.reachable (.cons hfirst (Linked.handle.list.mono hleads hts))

/-! ### Powers of one base -/

/-- Groups of handles and of terms, linked. -/
def linkedGroup : Linked (PowerGroup Handle) (PowerGroup Term) where
  Holds pool group group' := pool.Denotes group.base group'.base ∧
    Linked.handle.list.Holds pool group.exponents group'.exponents ∧
      pool.Denotes group.first group'.first
  mono hleads _ _ hgroup := ⟨hleads.grows _ _ hgroup.1, Linked.handle.list.mono hleads hgroup.2.1,
    hleads.grows _ _ hgroup.2.2⟩

theorem holds_addToGroups (h : pool.Reachable) {factor base exponent : Handle} {t : Term}
    (ht : pool.Denotes factor t) (hbase : pool.Denotes base (Reduction.asPower t).1)
    (hexponent : pool.Denotes exponent (Reduction.asPower t).2)
    {groups : List (PowerGroup Handle)} {groups' : List (PowerGroup Term)}
    (hgroups : linkedGroup.list.Holds pool groups groups') :
    linkedGroup.list.Holds pool (addToGroups factor base exponent groups)
      (Reduction.addToGroups t groups') := by
  induction hgroups with
  | nil => exact .cons ⟨hbase, .cons hexponent .nil, ht⟩ .nil
  | @cons group group' rest rest' hgroup hrest ih =>
    rw [addToGroups, Reduction.addToGroups]
    have hsame := h.denotes_inj hgroup.1 hbase
    by_cases heq : group.base = base
    · rw [if_pos heq, if_pos (hsame.1 heq)]
      refine .cons ⟨hgroup.1, ?_, hgroup.2.2⟩ hrest
      exact List.rel_append hgroup.2.1 (.cons hexponent .nil)
    · rw [if_neg heq, if_neg fun heq' => heq (hsame.2 heq')]
      exact .cons hgroup ih

/-- A factor comes to the group of its base, as its term does. -/
theorem performs_groupFactor (h : pool.Reachable) {one factor : Handle} {t : Term}
    (hone : pool.Denotes one .one) (ht : pool.Denotes factor t)
    {groups : List (PowerGroup Handle)} {groups' : List (PowerGroup Term)}
    (hgroups : linkedGroup.list.Holds pool groups groups') :
    Performs pool (groupFactor one groups factor) (pure (Reduction.addToGroups t groups'))
      linkedGroup.list := by
  refine (performs_node h ht).read fun n hn => performs_pure h ?_
  cases hn with
  | power hbase hexponent => exact holds_addToGroups h ht hbase hexponent hgroups
  | _ => exact holds_addToGroups h ht ht hone hgroups

section Powers

variable {pow : Handle → Handle → PoolProgram Handle} {pow' : Term → Term → Build Term}

theorem performs_mergeGroup (hpow : PerformsPow pow pow') (h : pool.Reachable)
    {group : PowerGroup Handle} {group' : PowerGroup Term}
    (hgroup : linkedGroup.Holds pool group group') :
    Performs pool (mergeGroup pow group) (Reduction.mergeGroup pow' group') .handle := by
  obtain ⟨base, exponents, first⟩ := group
  obtain ⟨base', exponents', first'⟩ := group'
  obtain ⟨hbase, hexponents, hfirst⟩ := hgroup
  have hmerge {es : List Handle} {us : List Term} (hes : Linked.handle.list.Holds pool es us) :
      Performs pool (do let exponent ← add es; pow base exponent)
        (do let exponent ← Reduction.add us; pow' base' exponent) .handle :=
    (performs_add h hes).bind fun pool' exponent hleads hexponent =>
      hpow pool' hleads.reachable _ _ _ _ (hleads.grows _ _ hbase) hexponent
  match exponents, exponents', hexponents with
  | [], [], hexponents => exact hmerge hexponents
  | [e], [u], _ => exact performs_pure h hfirst
  | e :: f :: es, u :: v :: us, hexponents => exact hmerge hexponents

theorem length_exponents_eq {groups : List (PowerGroup Handle)} {groups' : List (PowerGroup Term)}
    (h : linkedGroup.list.Holds pool groups groups') :
    (groups.any fun group => group.exponents.length ≠ 1) =
      groups'.any fun group => group.exponents.length ≠ 1 := by
  induction h with
  | nil => rfl
  | cons hgroup _ ih =>
    rw [List.any_cons, List.any_cons, ih]
    have hlength := List.Forall₂.length_eq hgroup.2.1
    rw [hlength]

/-- Powers of one base are merged as those of their terms. -/
theorem performs_mergePowers (hpow : PerformsPow pow pow') (h : pool.Reachable)
    (hts : Linked.handle.list.Holds pool hs ts) :
    Performs pool (mergePowers pow hs) (Reduction.mergePowers pow' ts)
      (Linked.handle.list.pair (.same Bool)) := by
  refine (performs_number h 1).bind fun pool' one hleads hone => ?_
  have hgroup := performs_foldlM (S := linkedGroup.list) hleads.reachable
    (f := groupFactor one) (fun factor _ groups t groups' hgroups ht =>
      performs_groupFactor hleads.reachable hone ht hgroups)
    (Linked.handle.list.mono hleads hts) (c := []) (d := []) .nil
  refine hgroup.read fun groups hgroups => ?_
  have hmerge := performs_mapM hleads.reachable (fun pool'' hleads' group _ group' hlinked =>
    performs_mergeGroup hpow hleads'.reachable hlinked) hgroups
  refine hmerge.bind fun pool'' merged hleads' hmerged => ?_
  exact performs_pure hleads'.reachable ⟨hmerged, length_exponents_eq hgroups⟩

theorem performs_mergeRepeatedly (hpow : PerformsPow pow pow') (passes : Nat) (c : Coefficient)
    (h : pool.Reachable) (hts : Linked.handle.list.Holds pool hs ts) :
    Performs pool (mergeRepeatedly pow passes c hs) (Reduction.mergeRepeatedly pow' passes c ts)
      linkedFactors := by
  induction passes generalizing pool c hs ts with
  | zero => exact performs_pure h ⟨rfl, hts⟩
  | succ passes ih =>
    refine performs_ite (fun _ => performs_pure h ⟨rfl, hts⟩) fun _ => ?_
    refine (performs_mergePowers hpow h hts).bind fun pool' merged hleads hmerged => ?_
    obtain ⟨hmerged, hchanged⟩ := hmerged
    refine (performs_absorb hleads.reachable c hmerged).read fun done hdone => ?_
    obtain ⟨hc, hfactors⟩ := hdone
    refine performs_ite_of_iff (Bool.eq_iff_iff.1 hchanged) (fun _ => ?_) fun _ => ?_
    · rw [hc]
      exact ih _ hleads.reachable hfactors
    · exact performs_pure hleads.reachable ⟨hc, hfactors⟩

end Powers

/-! ### Multiplying out -/

section Products

variable {mul : List Handle → PoolProgram Handle} {mul' : List Term → Build Term}

theorem holds_pairs {left right : List Handle} {left' right' : List Term}
    (hleft : Linked.handle.list.Holds pool left left')
    (hright : Linked.handle.list.Holds pool right right') :
    (Linked.handle.pair .handle).list.Holds pool
      (left.flatMap fun a => right.map fun b => (a, b))
      (left'.flatMap fun a => right'.map fun b => (a, b)) := by
  refine List.rel_flatMap hleft fun a x hx => ?_
  refine List.forall₂_map_left_iff.2 (List.forall₂_map_right_iff.2 ?_)
  exact hright.imp fun b y hy => ⟨hx, hy⟩

theorem performs_pairwise (hmul : PerformsMul mul mul') (h : pool.Reachable)
    {left right : List Handle} {left' right' : List Term}
    (hleft : Linked.handle.list.Holds pool left left')
    (hright : Linked.handle.list.Holds pool right right') :
    Performs pool (pairwise mul left right) (Reduction.pairwise mul' left' right')
      Linked.handle.list :=
  performs_mapM (R := Linked.handle.pair .handle) h
    (fun _ hleads _ _ _ hpair => hmul.two hleads.reachable hpair.1 hpair.2)
    (holds_pairs hleft hright)

theorem performs_multiplySums (hmul : PerformsMul mul mul') (h : pool.Reachable)
    {found sums : List Handle} {found' sums' : List Term}
    (hfound : Linked.handle.list.Holds pool found found')
    (hsums : Linked.handle.list.Holds pool sums sums') :
    Performs pool (multiplySums mul found sums) (Reduction.multiplySums mul' found' sums')
      Linked.handle.list := by
  induction sums generalizing pool found found' sums' with
  | nil =>
    cases hsums
    exact performs_pure h hfound
  | cons sum sums ih =>
    obtain _ | ⟨hsum, hsums⟩ := hsums
    refine (performs_summands h hsum).read fun terms hterms => ?_
    refine (performs_pairwise hmul h hfound hterms).bind fun pool' longer hleads hlonger => ?_
    exact ih hleads.reachable hlonger (Linked.handle.list.mono hleads hsums)

theorem map_length_eq {hss : List (List Handle)} {tss : List (List Term)}
    (h : Linked.handle.list.list.Holds pool hss tss) :
    hss.map List.length = tss.map List.length := by
  induction h with
  | nil => rfl
  | cons hts _ ih => rw [List.map_cons, List.map_cons, List.Forall₂.length_eq hts, ih]

/-- Sums among factors are multiplied out as those of their terms. -/
theorem performs_distribute (s : Settings) (hmul : PerformsMul mul mul') (h : pool.Reachable)
    (c : Coefficient) (hts : Linked.handle.list.Holds pool hs ts) :
    Performs pool (distribute s mul c hs) (Reduction.distribute s mul' c ts) .handle := by
  refine (performs_partition h (fun _ _ hn => hn.isSum_eq) hts).read fun parts hparts => ?_
  obtain ⟨sums, others⟩ := parts
  obtain ⟨hsums, hothers⟩ := hparts
  refine (performs_mapM_pure h (fun _ _ ht => performs_summands h ht) hsums).read
    fun terms hterms => ?_
  have hlengths := map_length_eq hterms
  rw [List.map_map] at hlengths
  rw [hlengths]
  refine performs_ite (fun _ => performs_sortedProduct h c hts) fun _ => ?_
  refine (performs_sortedProduct h c hothers).bind fun pool' first hleads hfirst => ?_
  have hall := performs_multiplySums hmul hleads.reachable (.cons hfirst .nil)
    (Linked.handle.list.mono hleads hsums)
  exact hall.bind fun pool'' terms hleads' hterms => performs_add hleads'.reachable hterms

/-! ### Products -/

/-- Multiplying handles performs the product of their terms, if powers and smaller products do. -/
theorem performs_mulWith (s : Settings) {pow : Handle → Handle → PoolProgram Handle}
    {pow' : Term → Term → Build Term} (hpow : PerformsPow pow pow')
    (hmul : PerformsMul mul mul') :
    PerformsMul (mulWith s pow mul) (Reduction.mulWith s pow' mul') := by
  intro pool h hs ts hts
  refine (performs_absorb h .one hts).read fun done hdone => ?_
  obtain ⟨c, others⟩ := done
  obtain ⟨rfl, hothers⟩ := hdone
  refine performs_unlessPoison h hothers
    (performs_ifMatrix h hothers (performs_matrixProduct h _ hothers) ?_)
  refine (performs_mergeRepeatedly hpow _ _ h hothers).bind fun pool' merged hleads hmerged => ?_
  obtain ⟨c, others⟩ := merged
  obtain ⟨rfl, hothers⟩ := hmerged
  have h' := hleads.reachable
  refine performs_unlessPoison h' hothers ?_
  refine performs_ite (fun _ => performs_coefficient h' _) fun _ => ?_
  refine (performs_nodes h' hothers).read fun ns hns => ?_
  rw [any_eq_of_nodes (fun _ _ hn => hn.isSum_eq) hns]
  exact performs_ite (fun _ => performs_distribute s hmul h' _ hothers)
    fun _ => performs_sortedProduct h' _ hothers

theorem performs_plainMul : PerformsMul plainMul Reduction.plainMul := by
  intro pool h hs ts hts
  refine (performs_absorb h .one hts).read fun done hdone => ?_
  obtain ⟨c, others⟩ := done
  obtain ⟨rfl, hothers⟩ := hdone
  refine performs_unlessPoison h hothers
    (performs_ifMatrix h hothers (performs_matrixProduct h _ hothers) ?_)
  exact performs_ite (fun _ => performs_coefficient h _) fun _ => performs_sortedProduct h _ hothers

end Products

end Interned

end EquationSolver
