import EquationSolver.Proofs.Pool.Interning
import EquationSolver.Proofs.Reduction.Operands

/-!
# Sums and products are grounded

Sums and products of known terms build what they build from known terms and from terms built
before.  As in their definitions, powers and smaller products are parameters.
-/

namespace EquationSolver

open Build

namespace Reduction

variable {k k' : Known}

/-! ### Sums -/

theorem children_eq_nil_of_poison? {operands : List Term} {poison : Term}
    (h : poison? operands = some poison) : poison.children = [] := by
  rcases eq_of_poison?_eq_some h with rfl | rfl <;> rfl

theorem grounds_poison {operands : List Term} {poison : Term}
    (h : poison? operands = some poison) : (make poison).Grounds k :=
  grounds_make (by simp [children_eq_nil_of_poison? h])

theorem children_ofDouble (x : Float) : (Term.ofDouble x).children = [] := by
  unfold Term.ofDouble
  split
  · split <;> rfl
  · rfl

theorem grounds_ofDouble (x : Float) : (make (Term.ofDouble x)).Grounds k :=
  grounds_make (by simp [children_ofDouble])

theorem grounds_toTerm (c : Coefficient) : (make c.toTerm).Grounds k := by
  cases c with
  | exact a => exact grounds_number a
  | approximate x => exact grounds_ofDouble x

theorem summands_mem {t : Term} (h : t ∈ k) : ∀ u ∈ summands t, u ∈ k :=
  forall_mem_summands h fun _ hu => k.child_mem h hu

/-- The body of a split term is known. -/
def KnownBody {α : Type} (k : Known) (part : Option Term × α) : Prop :=
  ∀ body ∈ part.1, body ∈ k

theorem isGrounded_splitTerm {t : Term} (h : t ∈ k) :
    (splitTerm t).IsGrounded k fun k' part => ∀ body ∈ part.2, body ∈ k' := by
  unfold splitTerm
  split
  case h_1 first rest =>
    have hrest : ∀ u ∈ rest, u ∈ k := fun u hu => k.child_mem h (List.mem_cons_of_mem first hu)
    split
    · refine (grounds_product hrest).bind fun k' _ hbody => isGrounded_pure ?_
      simpa using hbody
    · exact isGrounded_pure (by simpa using h)
  case h_2 =>
    split
    · exact isGrounded_pure (by simp)
    · exact isGrounded_pure (by simpa using h)

theorem grounds_joinTerm {c : Coefficient} {body : Option Term} (h : ∀ t ∈ body, t ∈ k) :
    (joinTerm c body).Grounds k := by
  unfold joinTerm
  split
  case h_1 => exact grounds_toTerm c
  case h_2 t =>
    have ht : t ∈ k := h t rfl
    split
    · exact isGrounded_pure ht
    · refine (grounds_toTerm c).bind fun k' hle hfirst => ?_
      split
      case h_1 factors =>
        refine grounds_product (List.forall_mem_cons.2 ⟨hfirst, fun u hu => ?_⟩)
        exact hle u (k.child_mem ht hu)
      case h_2 =>
        exact grounds_product (by simpa using ⟨hfirst, hle _ ht⟩)

theorem grounds_add {terms : List Term} (h : ∀ t ∈ terms, t ∈ k) : (add terms).Grounds k := by
  have hflat : ∀ u ∈ terms.flatMap summands, u ∈ k :=
    forall_mem_flatMap_summands (fun _ ht _ hu => k.child_mem ht hu) h
  unfold add
  dsimp only
  split
  case h_1 poison hpoison => exact grounds_poison hpoison
  case h_2 =>
    split
    · exact grounds_sum hflat
    · have hsplit : (each splitTerm (terms.flatMap summands)).IsGrounded k
          fun k' parts => ∀ part ∈ parts, ∀ t ∈ part.2, t ∈ k' :=
        isGrounded_each (fun _ _ hle _ hbody t ht => hle t (hbody t ht))
          (fun k' hle t ht => isGrounded_splitTerm (hle t (hflat t ht)))
      refine hsplit.bind fun k' _ hparts => ?_
      have hadd : IsAdditive fun body c => KnownBody k' (body, c) := fun _ _ _ hbody _ => hbody
      have hcollected := hadd.foldl_collect hparts (List.forall_mem_nil _)
      refine (groundsAll_each fun k'' hle part hpart => grounds_joinTerm fun t ht => ?_).bind
        fun k'' _ hjoined => grounds_sum fun t ht => ?_
      · exact hle t (hcollected part (List.mem_of_mem_filter hpart) t ht)
      · exact hjoined t ((sortWith_perm _ _ _).mem_iff.1 ht)

/-! ### Products -/

/-- Powers of known terms are grounded. -/
def GroundsPowers (pow : Term → Term → Build Term) : Prop :=
  ∀ (k : Known) (base exponent : Term), base ∈ k → exponent ∈ k → (pow base exponent).Grounds k

def GroundsProducts (mul : List Term → Build Term) : Prop :=
  ∀ (k : Known) (factors : List Term), (∀ t ∈ factors, t ∈ k) → (mul factors).Grounds k

mutual

theorem flatFactors_mem : ∀ t : Term, t ∈ k → ∀ u ∈ flatFactors t, u ∈ k
  | .product factors, h => by
    rw [flatFactors]
    exact flatFactorsOfAll_mem factors fun u hu => k.child_mem h hu
  | .number _, h | .decimal _, h | .constant _, h | .symbol _, h | .undefined, h
  | .nonreal, h | .sum _, h | .power _ _, h | .negation _, h | .quotient _ _, h
  | .apply _ _, h | .matrix _ _ _, h => by
    simpa [flatFactors] using h

theorem flatFactorsOfAll_mem : ∀ factors : List Term, (∀ t ∈ factors, t ∈ k) →
    ∀ u ∈ flatFactorsOfAll factors, u ∈ k
  | [], _ => by simp [flatFactorsOfAll]
  | t :: ts, h => by
    obtain ⟨ht, hts⟩ := List.forall_mem_cons.1 h
    intro u hu
    rw [flatFactorsOfAll] at hu
    exact (List.mem_append.1 hu).elim (flatFactors_mem t ht u) (flatFactorsOfAll_mem ts hts u)

end

theorem absorb_mem {c : Coefficient} {factors : List Term} (h : ∀ t ∈ factors, t ∈ k) :
    ∀ t ∈ (absorb c factors).2, t ∈ k :=
  fun t ht => flatFactorsOfAll_mem factors h t (List.mem_of_mem_filter ht)

theorem grounds_sortedProduct {c : Coefficient} {factors : List Term}
    (h : ∀ t ∈ factors, t ∈ k) : (sortedProduct c factors).Grounds k := by
  have hsorted : ∀ t ∈ sortBy Term.compare factors, t ∈ k :=
    fun t ht => h t ((sortBy_perm _ _).mem_iff.1 ht)
  unfold sortedProduct
  dsimp only
  split
  · exact grounds_toTerm c
  · split
    · exact grounds_product hsorted
    · refine (grounds_toTerm c).bind fun k' hle hfirst => grounds_product ?_
      exact List.forall_mem_cons.2 ⟨hfirst, fun t ht => hle t (hsorted t ht)⟩

theorem grounds_matrixProduct {c : Coefficient} {factors : List Term}
    (h : ∀ t ∈ factors, t ∈ k) : (matrixProduct c factors).Grounds k := by
  unfold matrixProduct
  split
  · exact grounds_product h
  · refine (grounds_toTerm c).bind fun k' hle hfirst => grounds_product ?_
    exact List.forall_mem_cons.2 ⟨hfirst, fun t ht => hle t (h t ht)⟩

/-- The parts of a group are known. -/
structure KnownGroup (k : Known) (group : PowerGroup Term) : Prop where
  base : group.base ∈ k
  exponents : ∀ t ∈ group.exponents, t ∈ k
  first : group.first ∈ k

theorem KnownGroup.mono {group : PowerGroup Term} (h : KnownGroup k group) (hle : k ≤ k') :
    KnownGroup k' group :=
  ⟨hle _ h.base, fun t ht => hle t (h.exponents t ht), hle _ h.first⟩

theorem asPower_mem {t : Term} (hone : .one ∈ k) (h : t ∈ k) :
    (asPower t).1 ∈ k ∧ (asPower t).2 ∈ k := by
  cases t with
  | power base exponent =>
    exact ⟨k.child_mem h (by simp [Term.children, asPower]),
      k.child_mem h (by simp [Term.children, asPower])⟩
  | _ => exact ⟨h, hone⟩

theorem knownGroup_addToGroups {t : Term} {groups : List (PowerGroup Term)} (hone : .one ∈ k)
    (ht : t ∈ k) (h : ∀ group ∈ groups, KnownGroup k group) :
    ∀ group ∈ addToGroups t groups, KnownGroup k group := by
  obtain ⟨hbase, hexponent⟩ := asPower_mem hone ht
  induction groups with
  | nil => simpa [addToGroups] using ⟨hbase, by simpa using hexponent, ht⟩
  | cons first rest ih =>
    obtain ⟨hfirst, hrest⟩ := List.forall_mem_cons.1 h
    rw [addToGroups]
    split
    · refine List.forall_mem_cons.2 ⟨⟨hfirst.base, fun u hu => ?_, hfirst.first⟩, hrest⟩
      rcases List.mem_append.1 hu with hu | hu
      · exact hfirst.exponents u hu
      · rw [List.mem_singleton.1 hu]
        exact hexponent
    · exact List.forall_mem_cons.2 ⟨hfirst, ih hrest⟩

theorem knownGroup_foldl {factors : List Term} {groups : List (PowerGroup Term)} (hone : .one ∈ k)
    (hfactors : ∀ t ∈ factors, t ∈ k) (h : ∀ group ∈ groups, KnownGroup k group) :
    ∀ group ∈ factors.foldl (fun groups t => addToGroups t groups) groups,
      KnownGroup k group := by
  induction factors generalizing groups with
  | nil => exact h
  | cons t ts ih =>
    obtain ⟨ht, hts⟩ := List.forall_mem_cons.1 hfactors
    exact ih hts (knownGroup_addToGroups hone ht h)

theorem grounds_mergeGroup {pow : Term → Term → Build Term} (hpow : GroundsPowers pow)
    {group : PowerGroup Term} (h : KnownGroup k group) : (mergeGroup pow group).Grounds k := by
  unfold mergeGroup
  split
  · exact isGrounded_pure h.first
  · refine (grounds_add h.exponents).bind fun k' hle hexponent => ?_
    exact hpow k' _ _ (hle _ h.base) hexponent

theorem isGrounded_mergePowers {pow : Term → Term → Build Term} (hpow : GroundsPowers pow)
    {factors : List Term} (h : ∀ t ∈ factors, t ∈ k) :
    (mergePowers pow factors).IsGrounded k fun k' merged => ∀ t ∈ merged.1, t ∈ k' := by
  have hone : (make .one).Grounds k := grounds_make (by simp [Term.one, Term.children])
  refine hone.bind fun k' hle hone => ?_
  have hgroups : ∀ group ∈ powerGroups factors, KnownGroup k' group :=
    knownGroup_foldl hone (fun t ht => hle t (h t ht)) (by simp)
  refine (groundsAll_each fun k'' hle group hgroup => ?_).bind
    fun k'' _ hmerged => isGrounded_pure hmerged
  exact grounds_mergeGroup hpow ((hgroups group hgroup).mono hle)

theorem isGrounded_mergeRepeatedly {pow : Term → Term → Build Term} (hpow : GroundsPowers pow)
    (passes : Nat) {c : Coefficient} {factors : List Term} (h : ∀ t ∈ factors, t ∈ k) :
    (mergeRepeatedly pow passes c factors).IsGrounded k
      fun k' merged => ∀ t ∈ merged.2, t ∈ k' := by
  induction passes generalizing c factors k with
  | zero => exact isGrounded_pure h
  | succ passes ih =>
    unfold mergeRepeatedly
    split
    · exact isGrounded_pure h
    · refine (isGrounded_mergePowers hpow h).bind fun k' _ hmerged => ?_
      generalize (mergePowers pow factors).value = merged at hmerged ⊢
      obtain ⟨merged, changed⟩ := merged
      dsimp only
      split
      · exact ih (absorb_mem hmerged)
      · exact isGrounded_pure (absorb_mem hmerged)

theorem groundsAll_pairwise {mul : List Term → Build Term} (hmul : GroundsProducts mul)
    {left right : List Term} (hleft : ∀ t ∈ left, t ∈ k) (hright : ∀ t ∈ right, t ∈ k) :
    (pairwise mul left right).GroundsAll k := by
  refine groundsAll_each fun k' hle pair hpair => hmul k' _ fun t ht => ?_
  obtain ⟨a, ha, hpair⟩ := List.mem_flatMap.1 hpair
  obtain ⟨b, hb, rfl⟩ := List.mem_map.1 hpair
  rcases List.mem_pair.1 ht with rfl | rfl
  · exact hle _ (hleft _ ha)
  · exact hle _ (hright _ hb)

theorem groundsAll_multiplySums {mul : List Term → Build Term} (hmul : GroundsProducts mul)
    {sums found : List Term} (hsums : ∀ t ∈ sums, t ∈ k) (hfound : ∀ t ∈ found, t ∈ k) :
    (multiplySums mul found sums).GroundsAll k := by
  induction sums generalizing found k with
  | nil => exact isGrounded_pure hfound
  | cons sum sums ih =>
    obtain ⟨hsum, hsums⟩ := List.forall_mem_cons.1 hsums
    refine (groundsAll_pairwise hmul hfound (summands_mem hsum)).bind fun k' hle hlonger => ?_
    exact ih (fun t ht => hle t (hsums t ht)) hlonger

theorem grounds_distribute {s : Settings} {mul : List Term → Build Term}
    (hmul : GroundsProducts mul) {c : Coefficient} {factors : List Term}
    (h : ∀ t ∈ factors, t ∈ k) : (distribute s mul c factors).Grounds k := by
  unfold distribute
  simp only [List.partition_eq_filter_filter]
  split
  · exact grounds_sortedProduct h
  · refine (grounds_sortedProduct fun t ht => h t (List.mem_of_mem_filter ht)).bind
      fun k' hle hfirst => ?_
    refine (groundsAll_multiplySums hmul (fun t ht => ?_) (by simpa using hfirst)).bind
      fun k'' _ hterms => grounds_add hterms
    exact hle t (h t (List.mem_of_mem_filter ht))

theorem groundsProducts_mulWith (s : Settings) {pow : Term → Term → Build Term}
    {mul : List Term → Build Term} (hpow : GroundsPowers pow) (hmul : GroundsProducts mul) :
    GroundsProducts (mulWith s pow mul) := by
  intro k factors h
  have hothers : ∀ t ∈ (absorb .one factors).2, t ∈ k := absorb_mem h
  unfold mulWith
  dsimp only
  split
  case h_1 poison hpoison => exact grounds_poison hpoison
  case h_2 =>
    split
    · exact grounds_matrixProduct hothers
    · refine (isGrounded_mergeRepeatedly hpow _ hothers).bind fun k' _ hmerged => ?_
      split
      case h_1 poison hpoison => exact grounds_poison hpoison
      case h_2 =>
        split
        · exact grounds_toTerm _
        · split
          · exact grounds_distribute hmul hmerged
          · exact grounds_sortedProduct hmerged

theorem groundsProducts_plainMul : GroundsProducts plainMul := by
  intro k factors h
  have hothers : ∀ t ∈ (absorb .one factors).2, t ∈ k := absorb_mem h
  unfold plainMul
  dsimp only
  split
  case h_1 poison hpoison => exact grounds_poison hpoison
  case h_2 =>
    split
    · exact grounds_matrixProduct hothers
    · split
      · exact grounds_toTerm _
      · exact grounds_sortedProduct hothers

end Reduction

end EquationSolver
