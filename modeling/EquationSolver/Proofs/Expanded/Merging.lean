import EquationSolver.Proofs.Expanded.Factors

/-!
# Merging the factors of expanded terms

Factors are grouped by their bases.  One pass leaves each symbol in one place, with the sum
of its exponents; a sum that occurs more than once becomes a power, which is a sum again when
it is multiplied out.
-/

namespace EquationSolver

open Term

/-! ### Nothing left to expand -/

namespace Term

/-- A product of sums, or a power of a sum or of a number: it could be multiplied out or
    computed. -/
def isUnexpanded : Term → Bool
  | .product factors => factors.any isSum
  | .power base _ => base.isSum || base.isNumeric
  | _ => false

end Term

/-- Nothing that was built is left unexpanded. -/
def Build.IsExpanded {α : Type} (b : Build α) : Prop :=
  ∀ t ∈ b.trace, t.isUnexpanded = false

namespace Build

variable {α β : Type}

theorem isExpanded_bind {x : Build α} {f : α → Build β} :
    (x >>= f).IsExpanded ↔ x.IsExpanded ∧ (f x.value).IsExpanded := by
  simp only [IsExpanded, trace_bind, List.mem_append, or_imp, forall_and]

theorem isExpanded_each {f : α → Build β} {items : List α} :
    (each f items).IsExpanded ↔ ∀ a ∈ items, (f a).IsExpanded := by
  induction items with
  | nil => simp [each, IsExpanded]
  | cons a rest ih =>
    simp only [each, isExpanded_bind, ih, List.forall_mem_cons]
    simp [IsExpanded]

theorem isExpanded_make {t : Term} : (make t).IsExpanded ↔ t.isUnexpanded = false := by
  simp [IsExpanded]

end Build

namespace Reduction

/-! ### Requirements on powers -/

/-- Powers of a symbol are written as such. -/
def RaisesSymbols (pow : Term → Term → Build Term) : Prop :=
  ∀ (name : String) (n : Nat), 2 ≤ n →
    (pow (.symbol name) (.number (n : Rat))).value = symbolPower (name, n)

/-- Powers of a sum are sums, unless they are left unexpanded. -/
def RaisesSums (pow : Term → Term → Build Term) : Prop :=
  ∀ (base : Term) (n : Nat), base.IsExpandedForm → base.isSum = true → 2 ≤ n →
    (pow base (.number (n : Rat))).IsExpanded →
      (pow base (.number (n : Rat))).value.IsExpandedForm ∧
        (pow base (.number (n : Rat))).value.isSum = true

/-- There are no sums to raise to a power, or their powers are sums. -/
def NeedsNoSums {α : Type} (pow : Term → Term → Build Term) (factors : List Term)
    (b : Build α) : Prop :=
  (∀ t ∈ factors, t.isSum = false) ∨ (RaisesSums pow ∧ b.IsExpanded)

/-! ### Groups of powers -/

/-- Powers of one base with positive exponents. -/
structure IsFactorGroup (group : PowerGroup Term) : Prop where
  nonempty : group.exponents ≠ []
  exponents : ∀ e ∈ group.exponents, ∃ n : Nat, 0 < n ∧ e = .number (n : Rat)
  first : IsFactor group.first
  base_eq : group.base = (asPower group.first).1

theorem IsFactor.asPower {t : Term} (h : IsFactor t) :
    ∃ n : Nat, 0 < n ∧ (asPower t).2 = .number (n : Rat) := by
  rcases h with ⟨p, hp, rfl⟩ | ⟨-, hsum⟩
  · refine ⟨p.2, hp, ?_⟩
    unfold symbolPower
    split
    case isTrue h => rw [h]; rfl
    case isFalse => rfl
  · refine ⟨1, one_pos, ?_⟩
    cases t <;> first | rfl | cases hsum

theorem asPower_symbolPower (p : String × Nat) : (asPower (symbolPower p)).1 = .symbol p.1 := by
  unfold symbolPower
  split <;> rfl

theorem asPower_sum {t : Term} (h : t.isSum = true) : (asPower t).1 = t := by
  cases t <;> first | rfl | cases h

theorem addToGroups_factor {t : Term} (ht : IsFactor t) {groups : List (PowerGroup Term)}
    (h : ∀ group ∈ groups, IsFactorGroup group) :
    ∀ group ∈ addToGroups t groups, IsFactorGroup group := by
  obtain ⟨n, hn, hexponent⟩ := ht.asPower
  induction groups with
  | nil =>
    intro group hgroup
    rw [List.mem_singleton.1 hgroup]
    exact ⟨by simp, by simpa using ⟨n, hn, hexponent⟩, ht, rfl⟩
  | cons g rest ih =>
    obtain ⟨hg, hrest⟩ := List.forall_mem_cons.1 h
    rw [addToGroups]
    split
    case isTrue =>
      refine List.forall_mem_cons.2 ⟨⟨by simp, ?_, hg.first, hg.base_eq⟩, hrest⟩
      intro e he
      rcases List.mem_append.1 he with he | he
      · exact hg.exponents e he
      · rw [List.mem_singleton.1 he]
        exact ⟨n, hn, hexponent⟩
    case isFalse => exact List.forall_mem_cons.2 ⟨hg, ih hrest⟩

/-- The bases of groups come from the factors, and a new factor adds no more than its own. -/
theorem first_of_mem_addToGroups {t : Term} {groups : List (PowerGroup Term)} {group : PowerGroup Term}
    (h : group ∈ addToGroups t groups) :
    (group.first = t ∧ group.base = (asPower t).1) ∨
      ∃ g ∈ groups, group.first = g.first ∧ group.base = g.base := by
  induction groups with
  | nil =>
    rw [List.mem_singleton.1 h]
    exact .inl ⟨rfl, rfl⟩
  | cons g rest ih =>
    rw [addToGroups] at h
    split at h
    case isTrue =>
      rcases List.mem_cons.1 h with rfl | h
      · exact .inr ⟨g, List.mem_cons_self, rfl, rfl⟩
      · exact .inr ⟨group, List.mem_cons_of_mem g h, rfl, rfl⟩
    case isFalse =>
      rcases List.mem_cons.1 h with rfl | h
      · exact .inr ⟨group, List.mem_cons_self, rfl, rfl⟩
      · rcases ih h with hnew | ⟨k, hk, hold⟩
        · exact .inl hnew
        · exact .inr ⟨k, List.mem_cons_of_mem g hk, hold⟩

theorem addToGroups_bases_differ {t : Term} {groups : List (PowerGroup Term)}
    (h : groups.Pairwise fun g g' => g.base ≠ g'.base) :
    (addToGroups t groups).Pairwise fun g g' => g.base ≠ g'.base := by
  induction groups with
  | nil => exact List.pairwise_singleton _ _
  | cons g rest ih =>
    obtain ⟨hg, hrest⟩ := List.pairwise_cons.1 h
    rw [addToGroups]
    split
    case isTrue => exact List.pairwise_cons.2 ⟨hg, hrest⟩
    case isFalse hne =>
      refine List.pairwise_cons.2 ⟨fun group hgroup => ?_, ih hrest⟩
      rcases first_of_mem_addToGroups hgroup with ⟨-, hbase⟩ | ⟨k, hk, -, hbase⟩
      · rw [hbase]
        exact hne
      · rw [hbase]
        exact hg k hk

/-- Factors are grouped by different bases. -/
structure IsGrouped (factors : List Term) (groups : List (PowerGroup Term)) : Prop where
  isFactorGroup : ∀ group ∈ groups, IsFactorGroup group
  first_mem : ∀ group ∈ groups, group.first ∈ factors
  bases_differ : groups.Pairwise fun g g' => g.base ≠ g'.base

theorem isGrouped_foldl {factors ts : List Term} {groups : List (PowerGroup Term)}
    (h : ∀ t ∈ factors, IsFactor t) (hmem : ∀ t ∈ ts, t ∈ factors)
    (hgroups : IsGrouped factors groups) :
    IsGrouped factors (ts.foldl (fun groups t => addToGroups t groups) groups) := by
  induction ts generalizing groups with
  | nil => exact hgroups
  | cons t ts ih =>
    obtain ⟨ht, hts⟩ := List.forall_mem_cons.1 hmem
    refine ih hts ⟨addToGroups_factor (h t ht) hgroups.isFactorGroup, fun group hgroup => ?_,
      addToGroups_bases_differ hgroups.bases_differ⟩
    rcases first_of_mem_addToGroups hgroup with ⟨hfirst, -⟩ | ⟨g, hg, hfirst, -⟩
    · rw [hfirst]
      exact ht
    · rw [hfirst]
      exact hgroups.first_mem g hg

theorem isGrouped_powerGroups {factors : List Term} (h : ∀ t ∈ factors, IsFactor t) :
    IsGrouped factors (powerGroups factors) :=
  isGrouped_foldl h (fun t ht => ht) ⟨by simp, by simp, List.Pairwise.nil⟩

/-! ### Merging -/

theorem IsFactorGroup.exponents_eq {group : PowerGroup Term} (h : IsFactorGroup group) :
    ∃ ns : List Nat, group.exponents = ns.map (fun n : Nat => .number (n : Rat)) ∧
      ∀ n ∈ ns, 0 < n := by
  have hexponents := h.exponents
  generalize group.exponents = exponents at hexponents
  induction exponents with
  | nil => exact ⟨[], rfl, by simp⟩
  | cons e rest ih =>
    obtain ⟨⟨n, hn, rfl⟩, hrest⟩ := List.forall_mem_cons.1 hexponents
    obtain ⟨ns, rfl, hns⟩ := ih hrest
    exact ⟨n :: ns, rfl, List.forall_mem_cons.2 ⟨hn, hns⟩⟩

theorem two_le_sum {ns : List Nat} (hpos : ∀ n ∈ ns, 0 < n) (hnil : ns ≠ [])
    (hsingle : ∀ n, ns ≠ [n]) : 2 ≤ ns.sum := by
  match ns, hnil, hsingle with
  | [n], _, hsingle => exact (hsingle n rfl).elim
  | m :: n :: ns, _, _ =>
    have hm := hpos m (by simp)
    have hn := hpos n (by simp)
    simp only [List.sum_cons]
    omega

/-- A group stays what it is, or becomes a power of its base with exponent two at least. -/
theorem IsFactorGroup.mergeGroup_eq (pow : Term → Term → Build Term) {group : PowerGroup Term}
    (h : IsFactorGroup group) : mergeGroup pow group = pure group.first ∨
      ∃ n : Nat, 2 ≤ n ∧
        (mergeGroup pow group).value = (pow group.base (.number (n : Rat))).value ∧
        ∀ t ∈ (pow group.base (.number (n : Rat))).trace, t ∈ (mergeGroup pow group).trace := by
  obtain ⟨ns, hns, hpos⟩ := h.exponents_eq
  have hnonempty := h.nonempty
  unfold mergeGroup
  split
  case h_1 => exact .inl rfl
  case h_2 hmany =>
    have hsum : (add group.exponents).value = .number ((ns.sum : Nat) : Rat) := by
      have hcast : (ns.map (fun n : Nat => (n : Rat))).sum = ((ns.sum : Nat) : Rat) := by
        simp [Nat.cast_list_sum]
      rw [hns, ← hcast, ← add_numbers, List.map_map]
      rfl
    refine .inr ⟨ns.sum, two_le_sum hpos ?_ ?_, ?_⟩
    · rintro rfl
      exact hnonempty hns
    · rintro n rfl
      exact hmany _ hns
    · rw [Build.value_bind, Build.trace_bind, hsum]
      exact ⟨rfl, fun t ht => List.mem_append_right _ ht⟩

/-- The factor of a group: a power of its base, which is a symbol, or a sum if the base is
    one. -/
theorem mergeGroup_factor {pow : Term → Term → Build Term} (hsymbols : RaisesSymbols pow)
    {group : PowerGroup Term} (h : IsFactorGroup group)
    (hsums : group.first.isSum = true → RaisesSums pow ∧ (mergeGroup pow group).IsExpanded) :
    IsFactor (mergeGroup pow group).value ∧
      (mergeGroup pow group).value.isSum = group.first.isSum ∧
      ∀ p, (mergeGroup pow group).value = symbolPower p → group.base = .symbol p.1 := by
  rcases h.mergeGroup_eq pow with heq | ⟨n, hn, heq, htrace⟩
  · rw [heq]
    refine ⟨h.first, rfl, fun p hp => ?_⟩
    rw [h.base_eq, ← asPower_symbolPower, ← hp, Build.value_pure]
  · rcases h.first with ⟨q, hq, hfirst⟩ | ⟨hform, hsum⟩
    · have hbase : group.base = .symbol q.1 := by
        rw [h.base_eq, hfirst, asPower_symbolPower]
      rw [heq, hbase, hsymbols q.1 n hn, hfirst]
      refine ⟨.inl ⟨(q.1, n), by omega, rfl⟩, ?_, fun p hp => ?_⟩
      · rw [isSum_symbolPower, isSum_symbolPower]
      · rw [← symbolPower_injective hp]
    · obtain ⟨hraises, hexpanded⟩ := hsums hsum
      have hbase : group.base = group.first := by
        rw [h.base_eq, asPower_sum hsum]
      have hpower := hraises group.base n (hbase ▸ hform) (hbase ▸ hsum) hn
        fun t ht => hexpanded t (htrace t ht)
      rw [heq, hsum]
      refine ⟨.inr hpower, hpower.2, fun p hp => ?_⟩
      rw [hp, isSum_symbolPower] at hpower
      cases hpower.2

/-- Merged factors are factors, and no symbol occurs in two of them. -/
theorem mergePowers_factors {pow : Term → Term → Build Term} (hsymbols : RaisesSymbols pow)
    {factors : List Term} (h : ∀ t ∈ factors, IsFactor t)
    (hsums : NeedsNoSums pow factors (mergePowers pow factors)) :
    (∀ t ∈ (mergePowers pow factors).value.1, IsFactor t) ∧
      SymbolsDiffer (mergePowers pow factors).value.1 ∧
      ((∀ t ∈ factors, t.isSum = false) →
        ∀ t ∈ (mergePowers pow factors).value.1, t.isSum = false) := by
  have hgrouped := isGrouped_powerGroups h
  have hmerged : (mergePowers pow factors).value.1 =
      (powerGroups factors).map fun group => (mergeGroup pow group).value := by
    simp [mergePowers]
  have hgroup : ∀ group ∈ powerGroups factors, IsFactor (mergeGroup pow group).value ∧
      (mergeGroup pow group).value.isSum = group.first.isSum ∧
      ∀ p, (mergeGroup pow group).value = symbolPower p → group.base = .symbol p.1 := by
    intro group hmem
    refine mergeGroup_factor hsymbols (hgrouped.isFactorGroup group hmem) fun hsum => ?_
    rcases hsums with hnone | ⟨hraises, hexpanded⟩
    · rw [hnone _ (hgrouped.first_mem group hmem)] at hsum
      cases hsum
    · unfold mergePowers at hexpanded
      simp only [Build.isExpanded_bind, Build.isExpanded_each] at hexpanded
      exact ⟨hraises, hexpanded.2.1 group hmem⟩
  rw [hmerged]
  refine ⟨?_, ?_, ?_⟩
  · intro t ht
    obtain ⟨group, hmem, rfl⟩ := List.mem_map.1 ht
    exact (hgroup group hmem).1
  · refine List.pairwise_map.2 (hgrouped.bases_differ.imp_of_mem ?_)
    intro g g' hg hg' hne p q hp hq hnames
    apply hne
    rw [(hgroup g hg).2.2 p hp, (hgroup g' hg').2.2 q hq, hnames]
  · intro hnone t ht
    obtain ⟨group, hmem, rfl⟩ := List.mem_map.1 ht
    rw [(hgroup group hmem).2.1]
    exact hnone _ (hgrouped.first_mem group hmem)

/-- What is known of factors that have been merged. -/
structure IsMerged (before : List Term) (c : Coefficient) (merged : Coefficient × List Term) :
    Prop where
  coefficient : merged.1 = c
  factors : ∀ t ∈ merged.2, IsFactor t
  sums : (∀ t ∈ before, t.isSum = false) → ∀ t ∈ merged.2, t.isSum = false

/-- Merging keeps the coefficient; if it is not zero, there is a pass, after which no symbol
    occurs in two factors. -/
theorem mergeRepeatedly_factors {pow : Term → Term → Build Term}
    (hsymbols : RaisesSymbols pow) (passes : Nat) (c : Coefficient) {factors : List Term}
    (h : ∀ t ∈ factors, IsFactor t)
    (hsums : NeedsNoSums pow factors (mergeRepeatedly pow passes c factors)) :
    IsMerged factors c (mergeRepeatedly pow passes c factors).value ∧
      ((SymbolsDiffer factors ∨ 0 < passes) → c.isZero = false →
        SymbolsDiffer (mergeRepeatedly pow passes c factors).value.2) := by
  induction passes generalizing factors with
  | zero =>
    refine ⟨⟨rfl, h, fun hnone => hnone⟩, fun hdiffer _ => ?_⟩
    rcases hdiffer with hdiffer | hpasses
    · exact hdiffer
    · cases hpasses
  | succ passes ih =>
    unfold mergeRepeatedly at hsums ⊢
    split
    case isTrue hzero =>
      refine ⟨⟨rfl, h, fun hnone => hnone⟩, fun _ hne => ?_⟩
      rw [hzero] at hne
      cases hne
    case isFalse hzero =>
      rw [if_neg hzero] at hsums
      have hpass : NeedsNoSums pow factors (mergePowers pow factors) :=
        hsums.imp_right (And.imp_right fun hexpanded => (Build.isExpanded_bind.1 hexpanded).1)
      obtain ⟨hfactors, hdiffer, hnone⟩ := mergePowers_factors hsymbols h hpass
      rw [Build.value_bind]
      rw [NeedsNoSums, Build.isExpanded_bind] at hsums
      generalize mergePowers pow factors = pass at hfactors hdiffer hnone hsums ⊢
      obtain ⟨⟨merged, changed⟩, trace⟩ := pass
      dsimp only at hfactors hdiffer hnone hsums ⊢
      rw [absorb_factors hfactors] at hsums ⊢
      dsimp only at hsums ⊢
      split
      case isTrue hchanged =>
        rw [if_pos hchanged] at hsums
        have hrest : NeedsNoSums pow merged (mergeRepeatedly pow passes c merged) :=
          hsums.imp hnone (And.imp_right And.right)
        obtain ⟨hmerged, hstill⟩ := ih hfactors hrest
        exact ⟨⟨hmerged.coefficient, hmerged.factors, fun h => hmerged.sums (hnone h)⟩,
          fun _ hne => hstill (.inl hdiffer) hne⟩
      case isFalse =>
        exact ⟨⟨rfl, hfactors, hnone⟩, fun _ _ => hdiffer⟩

end Reduction

end EquationSolver
