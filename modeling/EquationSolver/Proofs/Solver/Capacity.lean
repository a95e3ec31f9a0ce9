import EquationSolver.Proofs.Solver.Linear
import EquationSolver.Proofs.Sorting

/-!
# Room for unknowns and solutions

A set of variables never holds more than its capacity, a linear system has a term for each
unknown and a polynomial at most three roots.  So the solutions of one attempt, with the
discriminant of a polynomial behind its roots, fit into an empty registry.
-/

namespace EquationSolver

open Reduction (Settings)

/-! ### Unknowns -/

namespace VariableSet

variable {keep : String → Bool} {capacity : Nat}

/-- A set with a capacity and no more items. -/
structure HasRoom (capacity : Nat) (set : VariableSet String) : Prop where
  capacity_eq : set.capacity = capacity
  length_le : set.items.length ≤ capacity

theorem HasRoom.insertKept {set : VariableSet String} (h : set.HasRoom capacity)
    (name : String) : (insertKept keep set name).1.HasRoom capacity := by
  have hcapacity := h.capacity_eq
  unfold VariableSet.insertKept VariableSet.insert
  by_cases hkeep : keep name = true
  · rw [if_pos hkeep]
    by_cases hmem : name ∈ set.items
    · rw [if_pos hmem]
      exact h
    · rw [if_neg hmem]
      by_cases hroom : set.items.length < set.capacity
      · rw [if_pos hroom]
        refine ⟨hcapacity, ?_⟩
        rw [List.length_append]
        exact hcapacity ▸ hroom
      · rw [if_neg hroom]
        exact h
  · rw [if_neg hkeep]
    exact h

theorem nodup_insertKept {set : VariableSet String} (h : set.items.Nodup) (name : String) :
    (insertKept keep set name).1.items.Nodup := by
  unfold insertKept insert
  by_cases hkeep : keep name = true
  · rw [if_pos hkeep]
    by_cases hmem : name ∈ set.items
    · rw [if_pos hmem]
      exact h
    · rw [if_neg hmem]
      by_cases hroom : set.items.length < set.capacity
      · rw [if_pos hroom]
        exact List.nodup_append.2 ⟨h, by simp, fun a ha b hb heq =>
          hmem (List.mem_singleton.1 hb ▸ heq ▸ ha)⟩
      · rw [if_neg hroom]
        exact h
  · rw [if_neg hkeep]
    exact h

section Collecting

variable {P : VariableSet String → Prop}

/-- Collecting goes on with another collection unless there is an overflow. -/
theorem keeps_then {found : VariableSet String × Option CapacityExceeded}
    {next : VariableSet String → VariableSet String × Option CapacityExceeded}
    (h : P found.1) (hnext : ∀ {set : VariableSet String}, P set → P (next set).1) :
    P (match found with
      | (set, none) => next set
      | overflow => overflow).1 := by
  obtain ⟨set, overflow⟩ := found
  cases overflow with
  | none => exact hnext h
  | some e => exact h

mutual

/-- Collecting keeps what inserting keeps. -/
theorem collect_keeps
    (hinsert : ∀ {set : VariableSet String}, P set → ∀ name, P (insertKept keep set name).1) :
    ∀ (t : Term) {set : VariableSet String}, P set → P (collect keep set t).1
  | .number _, _, h | .decimal _, _, h | .constant _, _, h | .undefined, _, h
  | .nonreal, _, h => by
    rw [collect]
    exact h
  | .symbol name, _, h => by
    rw [collect]
    exact hinsert h name
  | .sum terms, _, h | .product terms, _, h | .matrix _ _ terms, _, h => by
    rw [collect]
    exact collectAll_keeps hinsert terms h
  | .power a b, _, h | .quotient a b, _, h => by
    rw [collect]
    exact keeps_then (collect_keeps hinsert a h) fun hset => collect_keeps hinsert b hset
  | .negation a, _, h | .apply _ a, _, h => by
    rw [collect]
    exact collect_keeps hinsert a h

theorem collectAll_keeps
    (hinsert : ∀ {set : VariableSet String}, P set → ∀ name, P (insertKept keep set name).1) :
    ∀ (terms : List Term) {set : VariableSet String}, P set → P (collectAll keep set terms).1
  | [], _, h => by
    rw [collectAll]
    exact h
  | t :: ts, _, h => by
    rw [collectAll]
    exact keeps_then (collect_keeps hinsert t h) fun hset => collectAll_keeps hinsert ts hset

end

end Collecting

theorem HasRoom.collect (t : Term) {set : VariableSet String} (h : set.HasRoom capacity) :
    (collect keep set t).1.HasRoom capacity :=
  collect_keeps (fun h name => h.insertKept name) t h

theorem nodup_collect (t : Term) {set : VariableSet String} (h : set.items.Nodup) :
    (collect keep set t).1.items.Nodup :=
  collect_keeps (P := fun set => set.items.Nodup) nodup_insertKept t h

end VariableSet

/-! ### Nonlinear systems -/

mutual

theorem Term.contains_eq_false {p : Term → Bool} (h : ∀ t, p t = false) :
    ∀ t : Term, t.contains p = false
  | .number _ | .decimal _ | .constant _ | .symbol _ | .undefined | .nonreal => by
    rw [Term.contains]
    · exact h _
    all_goals simp
  | .sum terms | .product terms | .matrix _ _ terms => by
    rw [Term.contains, h, Term.containsAny_eq_false h terms]
    rfl
  | .power a b | .quotient a b => by
    rw [Term.contains, h, Term.contains_eq_false h a, Term.contains_eq_false h b]
    rfl
  | .negation a | .apply _ a => by
    rw [Term.contains, h, Term.contains_eq_false h a]
    rfl

theorem Term.containsAny_eq_false {p : Term → Bool} (h : ∀ t, p t = false) :
    ∀ terms : List Term, Term.containsAny p terms = false
  | [] => by rw [Term.containsAny]
  | t :: ts => by
    rw [Term.containsAny, Term.contains_eq_false h t, Term.containsAny_eq_false h ts]
    rfl

end

theorem Term.dependsOn_nil (t : Term) : t.dependsOn [] = false := by
  refine Term.contains_eq_false (fun u => ?_) t
  cases u <;> rfl

namespace Coefficients

variable {names : List String}

/-- The unknown of an affine term is one of the names. -/
theorem AffineTerm.unknown_lt_of_foldlM : ∀ {factors : List Term} {t found : AffineTerm},
    factors.foldlM (AffineTerm.addFactor names) t = some found →
      (∀ i, t.unknown = some i → i < names.length) →
        ∀ i, found.unknown = some i → i < names.length
  | [], t, found, h, ht => by
    obtain rfl : t = found := Option.some.inj h
    exact ht
  | factor :: rest, t, found, h, ht => by
    rw [List.foldlM_cons] at h
    obtain ⟨next, hnext, hrest⟩ := Option.bind_eq_some_iff.1 h
    apply AffineTerm.unknown_lt_of_foldlM hrest
    unfold AffineTerm.addFactor at hnext
    split at hnext
    · cases hnext
      exact ht
    · split at hnext
      · cases hnext
        intro i hi
        exact (List.idxOf?_eq_some_iff.1 hi).1
      · cases hnext

theorem unknown_lt_of_affineTerm? {t : Term} {found : AffineTerm}
    (h : affineTerm? names t = some found) {i : Nat} (hi : found.unknown = some i) :
    i < names.length :=
  AffineTerm.unknown_lt_of_foldlM h (fun _ hnone => nomatch hnone) i hi

theorem exists_affineTerm?_nil (t : Term) : ∃ found, affineTerm? [] t = some found := by
  have hfold (factors : List Term) (start : AffineTerm) :
      ∃ found, factors.foldlM (AffineTerm.addFactor []) start = some found := by
    induction factors generalizing start with
    | nil => exact ⟨start, rfl⟩
    | cons factor rest ih =>
      rw [List.foldlM_cons]
      unfold AffineTerm.addFactor
      rw [Term.dependsOn_nil]
      exact ih _
  exact hfold (factors t) {}

theorem exists_mapM_eq_some {α β : Type} {f : α → Option β} {items : List α}
    (h : ∀ a ∈ items, ∃ b, f a = some b) : ∃ found, items.mapM f = some found := by
  induction items with
  | nil => exact ⟨[], rfl⟩
  | cons a rest ih =>
    obtain ⟨⟨b, hb⟩, hrest⟩ := List.forall_mem_cons.1 h
    obtain ⟨others, hothers⟩ := ih hrest
    exact ⟨b :: others, by rw [List.mapM_cons, hb, hothers]; rfl⟩

theorem exists_linear?_nil (s : Settings) (t : Term) : ∃ build, linear? s [] t = some build := by
  obtain ⟨found, hfound⟩ := exists_mapM_eq_some (f := affineTerm? [])
    fun (u : Term) (_ : u ∈ Reduction.summands t) => exists_affineTerm?_nil u
  exact ⟨_, by rw [linear?, hfound]; rfl⟩

/-- A polynomial has a leading coefficient, if only zero. -/
theorem ne_nil_of_polynomial? {s : Settings} {name : String} {t : Term}
    {build : Build (List Term)} (h : polynomial? s name t = some build) : build.value ≠ [] := by
  unfold polynomial? at h
  obtain ⟨terms, -, rfl⟩ := Option.map_eq_some_iff.1 h
  simp only [Build.value_bind, Build.value_pure, Build.value_each, List.range_succ_eq_map,
    List.map_cons, trimLeading]
  exact List.cons_ne_nil _ _

end Coefficients

/-- A system that is not linear has an equation and an unknown. -/
theorem Linear.ne_nil_of_augmentedRows {s : Settings} {unknowns : List String} :
    ∀ {forms : List Term}, (augmentedRows s unknowns forms).value = none →
      forms ≠ [] ∧ unknowns ≠ []
  | [], h => nomatch h
  | form :: rest, h => by
    refine ⟨List.cons_ne_nil form rest, ?_⟩
    rintro rfl
    obtain ⟨build, hbuild⟩ := Coefficients.exists_linear?_nil s form
    unfold augmentedRows at h
    rw [hbuild] at h
    simp only [Build.value_bind, Build.value_pure] at h
    exact (Linear.ne_nil_of_augmentedRows (Option.map_eq_none_iff.1 h)).2 rfl

end EquationSolver
