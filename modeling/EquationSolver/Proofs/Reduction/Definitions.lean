import EquationSolver.Proofs.Reduction.Memory
import EquationSolver.Proofs.Value.Symbols

/-!
# What a reduction reads of the definitions

A reduction looks up the names that occur in its term, in their definitions, and so on.  Where
two lists of definitions say the same of these names it builds the same terms and finds the same
result, whatever else is defined and in whatever order.  The bound on nested definitions has no
part in it: names that are being expanded are distinct and defined, so there are never more of
them than definitions.
-/

namespace EquationSolver

namespace Reduction

open Step

/-- Both lists say the same of the names, by terms that mention no other names. -/
structure AgreeOn (names : String → Prop) (definitions definitions' : Definitions) : Prop where
  lookup_eq : ∀ name, names name → definitions.lookup name = definitions'.lookup name
  closed : ∀ name definition, names name → definitions.lookup name = some definition →
    ∀ other, definition.Mentions other → names other

section Congruence

variable {s : Settings} {symbol symbol' : String → Step Term}

mutual

/-- Only the symbols that occur in a term are reduced with it. -/
theorem reduceTerm_congr : ∀ {t : Term}, (∀ name, t.Mentions name → symbol name = symbol' name) →
    reduceTerm s symbol t = reduceTerm s symbol' t
  | .number _, _ | .decimal _, _ | .constant _, _ | .undefined, _ | .nonreal, _ => by
    simp only [reduceTerm]
  | .symbol name, h => by
    rw [reduceTerm, reduceTerm, h name (by simp)]
  | .sum terms, h | .product terms, h | .matrix _ _ terms, h => by
    have hterms : reduceTerms s symbol terms = reduceTerms s symbol' terms :=
      reduceTerms_congr fun t ht name hname => h name (by simpa using ⟨t, ht, hname⟩)
    simp only [reduceTerm, hterms]
  | .power a b, h | .quotient a b, h => by
    have ha := reduceTerm_congr (t := a) fun name hname => h name (by simp [hname])
    have hb := reduceTerm_congr (t := b) fun name hname => h name (by simp [hname])
    simp only [reduceTerm, ha, hb]
  | .negation a, h | .apply _ a, h => by
    have ha := reduceTerm_congr (t := a) fun name hname => h name (by simpa using hname)
    simp only [reduceTerm, ha]

theorem reduceTerms_congr : ∀ {terms : List Term},
    (∀ t ∈ terms, ∀ name, t.Mentions name → symbol name = symbol' name) →
      reduceTerms s symbol terms = reduceTerms s symbol' terms
  | [], _ => by simp only [reduceTerms]
  | t :: ts, h => by
    obtain ⟨ht, hts⟩ := List.forall_mem_cons.1 h
    simp only [reduceTerms, reduceTerm_congr ht, reduceTerms_congr hts]

end

end Congruence

/-! ### Symbols -/

variable {s : Settings} {names : String → Prop} {definitions definitions' : Definitions}
  {expanding : List String} {name : String} {definition : Term}

theorem mem_of_lookup (h : definitions.lookup name = some definition) :
    (name, definition) ∈ definitions := by
  obtain ⟨before, after, rfl, -⟩ := List.lookup_eq_some_iff.1 h
  simp

/-- A symbol that occurs in its own definition is undefined there. -/
theorem reduceSymbol_of_mem_expanding (hs : s.symbols = .replaceDefined)
    (hdefinition : definitions.lookup name = some definition) (hname : name ∈ expanding)
    (levels : Nat) : reduceSymbol s definitions levels expanding name =
      ofBuild (Build.make .undefined) := by
  unfold reduceSymbol
  rw [hs, hdefinition]
  exact if_pos hname

/-- Any other symbol with a definition is reduced to the reduced form of it. -/
theorem reduceSymbol_of_definition (hs : s.symbols = .replaceDefined)
    (hdefinition : definitions.lookup name = some definition) (hname : name ∉ expanding)
    (levels : Nat) : reduceSymbol s definitions (levels + 1) expanding name =
      reduceTerm s (reduceSymbol s definitions levels (name :: expanding)) definition := by
  rw [reduceSymbol, hs, hdefinition]
  exact if_neg hname

/-- The names that are being expanded, each once, and as many levels left as there are other
    definitions. -/
structure IsExpanding (definitions : Definitions) (levels : Nat) (expanding : List String) :
    Prop where
  nodup : expanding.Nodup
  defined : ∀ name ∈ expanding, ∃ definition, definitions.lookup name = some definition
  levels_add : levels + expanding.length = definitions.length

theorem isExpanding_nil (definitions : Definitions) :
    IsExpanding definitions definitions.length [] :=
  ⟨List.nodup_nil, by simp, rfl⟩

namespace IsExpanding

variable {levels : Nat}

/-- There is a level left for a further name with a definition. -/
theorem exists_level (h : IsExpanding definitions levels expanding)
    (hdefinition : definitions.lookup name = some definition) (hname : name ∉ expanding) :
    ∃ lower, levels = lower + 1 ∧ IsExpanding definitions lower (name :: expanding) := by
  have hdefined : ∀ other ∈ name :: expanding,
      ∃ definition, definitions.lookup other = some definition :=
    List.forall_mem_cons.2 ⟨⟨definition, hdefinition⟩, h.defined⟩
  have hnodup : (name :: expanding).Nodup := List.nodup_cons.2 ⟨hname, h.nodup⟩
  have hsubset : name :: expanding ⊆ definitions.map Prod.fst := by
    intro other hother
    obtain ⟨definition, hlookup⟩ := hdefined other hother
    exact List.mem_map_of_mem (mem_of_lookup hlookup)
  have hlength := (List.subperm_of_subset hnodup hsubset).length_le
  have hlevels := h.levels_add
  rw [List.length_cons, List.length_map] at hlength
  obtain ⟨lower, rfl⟩ : ∃ lower, levels = lower + 1 := ⟨levels - 1, by omega⟩
  exact ⟨lower, rfl, hnodup, hdefined, by rw [List.length_cons]; omega⟩

end IsExpanding

/-- Definitions that agree on the names reduce each of them alike. -/
theorem AgreeOn.reduceSymbol_eq (h : AgreeOn names definitions definitions')
    {levels levels' : Nat} (hexpanding : IsExpanding definitions levels expanding)
    (hexpanding' : IsExpanding definitions' levels' expanding) (hname : names name) :
    reduceSymbol s definitions levels expanding name =
      reduceSymbol s definitions' levels' expanding name := by
  induction levels using Nat.strong_induction_on generalizing levels' expanding name with
  | _ levels ih =>
    cases hs : s.symbols with
    | keepAll => rw [reduceSymbol_keepAll hs, reduceSymbol_keepAll hs]
    | replaceDefined =>
      have hlookup' := h.lookup_eq name hname
      cases hlookup : definitions.lookup name with
      | none =>
        rw [hlookup] at hlookup'
        rw [reduceSymbol_of_undefined hlookup, reduceSymbol_of_undefined hlookup'.symm]
      | some definition =>
        rw [hlookup] at hlookup'
        by_cases hmem : name ∈ expanding
        · rw [reduceSymbol_of_mem_expanding hs hlookup hmem,
            reduceSymbol_of_mem_expanding hs hlookup'.symm hmem]
        · obtain ⟨lower, rfl, hlower⟩ := hexpanding.exists_level hlookup hmem
          obtain ⟨lower', rfl, hlower'⟩ := hexpanding'.exists_level hlookup'.symm hmem
          rw [reduceSymbol_of_definition hs hlookup hmem,
            reduceSymbol_of_definition hs hlookup'.symm hmem]
          apply reduceTerm_congr
          intro other hother
          exact ih lower (by omega) hlower hlower' (h.closed name definition hname hlookup other hother)

/-! ### Terms -/

/-- The names that a reduction of the term looks up are among the given ones; it looks up none
    where symbols are kept. -/
def LooksUp (s : Settings) (names : String → Prop) (t : Term) : Prop :=
  s.symbols = .replaceDefined → ∀ name, t.Mentions name → names name

theorem AgreeOn.reduceSymbol_start_eq (h : AgreeOn names definitions definitions')
    (hname : s.symbols = .replaceDefined → names name) :
    reduceSymbol s definitions definitions.length [] name =
      reduceSymbol s definitions' definitions'.length [] name := by
  cases hs : s.symbols with
  | keepAll => rw [reduceSymbol_keepAll hs, reduceSymbol_keepAll hs]
  | replaceDefined =>
    exact h.reduceSymbol_eq (isExpanding_nil definitions) (isExpanding_nil definitions') (hname hs)

/-- Definitions that agree on the names that a reduction looks up lead to the same reduction. -/
theorem AgreeOn.reduce_eq (h : AgreeOn names definitions definitions') {t : Term}
    (ht : LooksUp s names t) : reduce s definitions t = reduce s definitions' t := by
  have hsymbols : reduceWith s definitions t = reduceWith s definitions' t :=
    reduceTerm_congr fun name hname => h.reduceSymbol_start_eq fun hs => ht hs name hname
  rw [reduce, reduce, hsymbols]

theorem AgreeOn.reduceAll_eq (h : AgreeOn names definitions definitions') {terms : List Term}
    (hterms : ∀ t ∈ terms, LooksUp s names t) :
    reduceAll s definitions terms = reduceAll s definitions' terms := by
  have hsymbols : reduceTerms s (reduceSymbol s definitions definitions.length []) terms =
      reduceTerms s (reduceSymbol s definitions' definitions'.length []) terms :=
    reduceTerms_congr fun t ht name hname =>
      h.reduceSymbol_start_eq fun hs => hterms t ht hs name hname
  rw [reduceAll, reduceAll, hsymbols]

end Reduction

end EquationSolver
