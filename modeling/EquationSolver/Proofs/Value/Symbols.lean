import EquationSolver.Proofs.Order.Comparison
import EquationSolver.Proofs.Value.Real
import EquationSolver.Term.Content
import EquationSolver.Variables

/-!
# Symbols and values

A term without symbols has the same value whatever the symbols stand for.  The unknowns of an
equation are all its symbols, so the coefficients, in which no unknown occurs, are constants.
-/

namespace EquationSolver

namespace Term

/-! ### What occurs in a term -/

mutual

/-- What is contained in a term is one of its subterms. -/
theorem exists_of_contains {p : Term → Bool} : ∀ {t : Term}, t.contains p = true →
    ∃ u, p u = true ∧ ∀ q : Term → Bool, q u = true → t.contains q = true
  | .number _, h | .decimal _, h | .constant _, h | .symbol _, h | .undefined, h | .nonreal, h => by
    simp only [contains] at h
    exact ⟨_, h, fun q hq => by simpa only [contains] using hq⟩
  | .sum terms, h | .product terms, h | .matrix _ _ terms, h => by
    simp only [contains, Bool.or_eq_true] at h
    rcases h with h | h
    · exact ⟨_, h, fun q hq => by simp [contains, hq]⟩
    · obtain ⟨u, hu, hcontains⟩ := exists_of_containsAny h
      exact ⟨u, hu, fun q hq => by simp [contains, hcontains q hq]⟩
  | .power a b, h | .quotient a b, h => by
    simp only [contains, Bool.or_eq_true] at h
    rcases h with (h | h) | h
    · exact ⟨_, h, fun q hq => by simp [contains, hq]⟩
    · obtain ⟨u, hu, hcontains⟩ := exists_of_contains h
      exact ⟨u, hu, fun q hq => by simp [contains, hcontains q hq]⟩
    · obtain ⟨u, hu, hcontains⟩ := exists_of_contains h
      exact ⟨u, hu, fun q hq => by simp [contains, hcontains q hq]⟩
  | .negation a, h | .apply _ a, h => by
    simp only [contains, Bool.or_eq_true] at h
    rcases h with h | h
    · exact ⟨_, h, fun q hq => by simp [contains, hq]⟩
    · obtain ⟨u, hu, hcontains⟩ := exists_of_contains h
      exact ⟨u, hu, fun q hq => by simp [contains, hcontains q hq]⟩

theorem exists_of_containsAny {p : Term → Bool} : ∀ {terms : List Term},
    containsAny p terms = true →
      ∃ u, p u = true ∧ ∀ q : Term → Bool, q u = true → containsAny q terms = true
  | [], h => by simp [containsAny] at h
  | t :: ts, h => by
    simp only [containsAny, Bool.or_eq_true] at h
    rcases h with h | h
    · obtain ⟨u, hu, hcontains⟩ := exists_of_contains h
      exact ⟨u, hu, fun q hq => by simp [containsAny, hcontains q hq]⟩
    · obtain ⟨u, hu, hcontains⟩ := exists_of_containsAny h
      exact ⟨u, hu, fun q hq => by simp [containsAny, hcontains q hq]⟩

end

theorem containsAny_eq_false_iff {p : Term → Bool} {terms : List Term} :
    containsAny p terms = false ↔ ∀ t ∈ terms, t.contains p = false := by
  induction terms with
  | nil => simp [containsAny]
  | cons t ts ih => simp [containsAny, ih]

theorem containsAny_eq_true_iff {p : Term → Bool} {terms : List Term} :
    containsAny p terms = true ↔ ∃ t ∈ terms, t.contains p = true := by
  induction terms with
  | nil => simp [containsAny]
  | cons t ts ih => simp [containsAny, ih]

theorem contains_eq (p : Term → Bool) (t : Term) :
    t.contains p = (p t || containsAny p t.children) := by
  cases t <;> simp [contains, containsAny, children, Bool.or_assoc]

theorem contains_eq_false_of_mem_children {p : Term → Bool} {t u : Term}
    (h : t.contains p = false) (hu : u ∈ t.children) : u.contains p = false := by
  rw [contains_eq, Bool.or_eq_false_iff, containsAny_eq_false_iff] at h
  exact h.2 u hu

/-- A term contains nothing of a kind if no term within it is of that kind. -/
theorem contains_eq_false_iff {p : Term → Bool} {t : Term} :
    t.contains p = false ↔ t.Everywhere fun u => p u = false := by
  induction hsize : sizeOf t using Nat.strong_induction_on generalizing t with
  | _ size ih =>
    have hchild {u : Term} (hu : u ∈ t.children) := ih _ (hsize ▸ sizeOf_lt_of_mem_children hu) rfl
    rw [contains_eq, Bool.or_eq_false_iff, containsAny_eq_false_iff]
    constructor
    · rintro ⟨ht, hchildren⟩
      exact .of_parts ht fun u hu => (hchild hu).1 (hchildren u hu)
    · exact fun h => ⟨h.self, fun u hu => (hchild hu).2 (h.of_mem_children hu)⟩

/-- The symbol occurs in the term. -/
def Mentions (t : Term) (name : String) : Prop :=
  t.dependsOn [name] = true

section Mentions

variable {name other : String} {terms : List Term} {a b : Term}

@[simp] theorem mentions_symbol : (Term.symbol other).Mentions name ↔ other = name := by
  simp [Mentions, dependsOn, contains]

@[simp] theorem mentions_sum : (Term.sum terms).Mentions name ↔ ∃ t ∈ terms, t.Mentions name := by
  simp only [Mentions, dependsOn, contains, Bool.false_or, containsAny_eq_true_iff]

@[simp] theorem mentions_product :
    (Term.product terms).Mentions name ↔ ∃ t ∈ terms, t.Mentions name := by
  simp only [Mentions, dependsOn, contains, Bool.false_or, containsAny_eq_true_iff]

@[simp] theorem mentions_matrix {rows columns : Nat} :
    (Term.matrix rows columns terms).Mentions name ↔ ∃ t ∈ terms, t.Mentions name := by
  simp only [Mentions, dependsOn, contains, Bool.false_or, containsAny_eq_true_iff]

@[simp] theorem mentions_power :
    (Term.power a b).Mentions name ↔ a.Mentions name ∨ b.Mentions name := by
  simp only [Mentions, dependsOn, contains, Bool.false_or, Bool.or_eq_true]

@[simp] theorem mentions_quotient :
    (Term.quotient a b).Mentions name ↔ a.Mentions name ∨ b.Mentions name := by
  simp only [Mentions, dependsOn, contains, Bool.false_or, Bool.or_eq_true]

@[simp] theorem mentions_negation : (Term.negation a).Mentions name ↔ a.Mentions name := by
  simp only [Mentions, dependsOn, contains, Bool.false_or]

@[simp] theorem mentions_apply {f : Function} :
    (Term.apply f a).Mentions name ↔ a.Mentions name := by
  simp only [Mentions, dependsOn, contains, Bool.false_or]

end Mentions

theorem exists_mentions {t : Term} (h : t.containsSymbol = true) : ∃ name, t.Mentions name := by
  obtain ⟨u, hu, hcontains⟩ := exists_of_contains h
  cases u with
  | symbol name => exact ⟨name, hcontains _ (by simp)⟩
  | _ => simp at hu

theorem Mentions.dependsOn {t : Term} {name : String} {names : List String} (h : t.Mentions name)
    (hname : name ∈ names) : t.dependsOn names = true := by
  obtain ⟨u, hu, hcontains⟩ := exists_of_contains h
  cases u with
  | symbol other =>
    obtain rfl : other = name := by simpa using hu
    exact hcontains _ (by simpa using hname)
  | _ => simp at hu

theorem dependsOn_eq_false {t : Term} {names : List String} (h : t.containsSymbol = false) :
    t.dependsOn names = false := by
  by_contra hdepends
  obtain ⟨u, hu, hcontains⟩ := exists_of_contains (Bool.eq_true_of_not_eq_false hdepends)
  cases u with
  | symbol name => exact absurd (hcontains _ rfl) (Bool.eq_false_iff.1 h)
  | _ => simp at hu

/-- A term all whose symbols are among the names it does not depend on has none. -/
theorem containsSymbol_eq_false {t : Term} {names : List String}
    (hnames : ∀ name, t.Mentions name → name ∈ names) (h : t.dependsOn names = false) :
    t.containsSymbol = false := by
  by_contra hsymbol
  obtain ⟨name, hname⟩ := exists_mentions (by simpa using hsymbol)
  rw [hname.dependsOn (hnames name hname)] at h
  cases h

end Term

/-! ### Values without symbols -/

namespace Valuation

variable (ρ ρ' : String → ℝ)

mutual

/-- What symbols stand for does not matter to a term without any. -/
theorem value_real_congr : ∀ t : Term, t.containsSymbol = false →
    (real ρ).value t = (real ρ').value t
  | .number a, _ => by simp
  | .constant c, _ => by simp [value, real]
  | .symbol name, h => by simp [Term.containsSymbol, Term.contains] at h
  | .sum terms, h => by
    simp only [Term.containsSymbol, Term.contains, Bool.or_eq_false_iff] at h
    rw [value_sum, value_sum,
      map_value_real_congr terms (Term.containsAny_eq_false_iff.1 h.2)]
  | .product factors, h => by
    simp only [Term.containsSymbol, Term.contains, Bool.or_eq_false_iff] at h
    rw [value_product, value_product,
      map_value_real_congr factors (Term.containsAny_eq_false_iff.1 h.2)]
  | .power base exponent, h => by
    simp only [Term.containsSymbol, Term.contains, Bool.or_eq_false_iff] at h
    cases exponent with
    | number q =>
      rw [value_power, value_power, value_real_congr base h.1.2]
      rfl
    | _ => simp [value]
  | .negation a, h => by
    simp only [Term.containsSymbol, Term.contains, Bool.or_eq_false_iff] at h
    rw [value, value, value_real_congr a h.2]
  | .quotient a b, h => by
    simp only [Term.containsSymbol, Term.contains, Bool.or_eq_false_iff] at h
    rw [value, value, value_real_congr a h.1.2, value_real_congr b h.2]
  | .decimal _, _ | .undefined, _ | .nonreal, _ | .apply _ _, _ | .matrix _ _ _, _ => by
    simp [value]

theorem map_value_real_congr : ∀ terms : List Term, (∀ t ∈ terms, t.containsSymbol = false) →
    terms.map (real ρ).value = terms.map (real ρ').value
  | [], _ => rfl
  | t :: ts, h => by
    obtain ⟨ht, hts⟩ := List.forall_mem_cons.1 h
    rw [List.map_cons, List.map_cons, value_real_congr t ht, map_value_real_congr ts hts]

end

mutual

/-- All subterms of a term with a value have values. -/
theorem contains_eq_false_of_hasValue {K : Type*} [Field K] {V : Valuation K} {p : Term → Bool}
    (hp : ∀ t, V.HasValue t → p t = false) : ∀ t : Term, V.HasValue t → t.contains p = false
  | .number a, h => by simpa only [Term.contains] using hp (.number a) h
  | .symbol name, h => by simpa only [Term.contains] using hp (.symbol name) h
  | .constant c, h => by simpa only [Term.contains] using hp (.constant c) h
  | .sum terms, h => by
    rw [Term.contains, hp _ h, containsAny_eq_false_of_haveValues hp terms (hasValue_sum.1 h)]
    rfl
  | .product factors, h => by
    rw [Term.contains, hp _ h,
      containsAny_eq_false_of_haveValues hp factors (hasValue_product.1 h).1]
    rfl
  | .power base exponent, h => by
    obtain ⟨q, rfl, hbase, -⟩ := h.exponent_eq
    have hexponent : (Term.number q).contains p = false := by
      simpa only [Term.contains] using hp (.number q) (hasValue_number q)
    rw [Term.contains, hp _ h, contains_eq_false_of_hasValue hp base hbase, hexponent]
    rfl
  | .negation a, h => by
    have ha : V.HasValue a := by simpa [HasValue] using h
    rw [Term.contains, hp _ h, contains_eq_false_of_hasValue hp a ha]
    rfl
  | .quotient a b, h => by
    obtain ⟨ha, hb, -⟩ : V.HasValue a ∧ V.HasValue b ∧ V.value b ≠ 0 := by
      simpa [HasValue] using h
    rw [Term.contains, hp _ h, contains_eq_false_of_hasValue hp a ha,
      contains_eq_false_of_hasValue hp b hb]
    rfl
  | .decimal _, h | .undefined, h | .nonreal, h | .apply _ _, h | .matrix _ _ _, h => by
    simp [HasValue] at h

theorem containsAny_eq_false_of_haveValues {K : Type*} [Field K] {V : Valuation K}
    {p : Term → Bool} (hp : ∀ t, V.HasValue t → p t = false) : ∀ terms : List Term,
      (∀ t ∈ terms, V.HasValue t) → Term.containsAny p terms = false
  | [], _ => by rw [Term.containsAny]
  | t :: ts, h => by
    obtain ⟨ht, hts⟩ := List.forall_mem_cons.1 h
    rw [Term.containsAny, contains_eq_false_of_hasValue hp t ht,
      containsAny_eq_false_of_haveValues hp ts hts]
    rfl

end

/-- The imaginary unit has no real value. -/
theorem containsImaginaryUnit_of_hasValue {t : Term} (h : (real ρ).HasValue t) :
    t.containsImaginaryUnit = false := by
  refine contains_eq_false_of_hasValue (fun u hu => ?_) t h
  cases u with
  | constant c =>
    have hc : c ≠ .i := by simpa [HasValue, real] using hu
    cases c <;> first | rfl | exact absurd rfl hc
  | _ => rfl

end Valuation

/-! ### Collected symbols -/

namespace VariableSet

variable {set set' : VariableSet String}

theorem of_insertKept {name : String}
    (h : insertKept (fun _ => true) set name = (set', none)) :
    set.items ⊆ set'.items ∧ name ∈ set'.items := by
  unfold insertKept insert at h
  rw [if_pos rfl] at h
  by_cases hmem : name ∈ set.items
  · rw [if_pos hmem] at h
    cases h
    exact ⟨List.Subset.refl _, hmem⟩
  · rw [if_neg hmem] at h
    by_cases hroom : set.items.length < set.capacity
    · rw [if_pos hroom] at h
      cases h
      exact ⟨List.subset_append_left _ _, List.mem_append_right _ List.mem_cons_self⟩
    · rw [if_neg hroom] at h
      cases h

/-- A collection without overflow has come through its first part without one. -/
theorem exists_of_then {found : VariableSet String × Option CapacityExceeded}
    {next : VariableSet String → VariableSet String × Option CapacityExceeded}
    (h : (match found with
      | (set, none) => next set
      | overflow => overflow) = (set', none)) :
    ∃ middle, found = (middle, none) ∧ next middle = (set', none) := by
  obtain ⟨middle, overflow⟩ := found
  cases overflow with
  | none => exact ⟨middle, rfl, h⟩
  | some e => cases h

mutual

/-- A collection without overflow holds all symbols of the term. -/
theorem of_collect : ∀ {t : Term} {set set' : VariableSet String},
    collect (fun _ => true) set t = (set', none) →
      set.items ⊆ set'.items ∧ ∀ name, t.Mentions name → name ∈ set'.items
  | .number _, _, _, h | .decimal _, _, _, h | .constant _, _, _, h | .undefined, _, _, h
  | .nonreal, _, _, h => by
    rw [collect] at h
    cases h
    exact ⟨List.Subset.refl _, fun name hname => by
      simp [Term.Mentions, Term.dependsOn, Term.contains] at hname⟩
  | .symbol name, _, _, h => by
    rw [collect] at h
    obtain ⟨hsubset, hmem⟩ := of_insertKept h
    exact ⟨hsubset, fun other hother => Term.mentions_symbol.1 hother ▸ hmem⟩
  | .sum terms, _, _, h | .product terms, _, _, h | .matrix _ _ terms, _, _, h => by
    rw [collect] at h
    obtain ⟨hsubset, hmem⟩ := of_collectAll h
    refine ⟨hsubset, fun name hname => ?_⟩
    obtain ⟨t, ht, hmentions⟩ : ∃ t ∈ terms, t.Mentions name := by simpa using hname
    exact hmem t ht name hmentions
  | .power a b, _, _, h | .quotient a b, _, _, h => by
    rw [collect] at h
    obtain ⟨middle, hfirst, hsecond⟩ := exists_of_then h
    obtain ⟨hsubset, hmem⟩ := of_collect hfirst
    obtain ⟨hsubset', hmem'⟩ := of_collect hsecond
    refine ⟨List.Subset.trans hsubset hsubset', fun name hname => ?_⟩
    have hparts : a.Mentions name ∨ b.Mentions name := by simpa using hname
    exact hparts.elim (fun ha => hsubset' (hmem name ha)) (hmem' name)
  | .negation a, _, _, h | .apply _ a, _, _, h => by
    rw [collect] at h
    obtain ⟨hsubset, hmem⟩ := of_collect h
    exact ⟨hsubset, fun name hname => hmem name (by simpa using hname)⟩

theorem of_collectAll : ∀ {terms : List Term} {set set' : VariableSet String},
    collectAll (fun _ => true) set terms = (set', none) →
      set.items ⊆ set'.items ∧ ∀ t ∈ terms, ∀ name, t.Mentions name → name ∈ set'.items
  | [], _, _, h => by
    rw [collectAll] at h
    cases h
    exact ⟨List.Subset.refl _, fun t ht => nomatch ht⟩
  | t :: ts, _, _, h => by
    rw [collectAll] at h
    obtain ⟨middle, hfirst, hrest⟩ := exists_of_then h
    obtain ⟨hsubset, hmem⟩ := of_collect hfirst
    obtain ⟨hsubset', hmem'⟩ := of_collectAll hrest
    exact ⟨List.Subset.trans hsubset hsubset', List.forall_mem_cons.2
      ⟨fun name hname => hsubset' (hmem name hname), hmem'⟩⟩

end

end VariableSet

end EquationSolver
