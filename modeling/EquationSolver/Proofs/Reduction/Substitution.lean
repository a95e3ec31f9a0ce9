import EquationSolver.Proofs.Pool.Independence
import EquationSolver.Proofs.Reduction.Idempotence
import EquationSolver.Proofs.Reduction.Meaning
import EquationSolver.Proofs.Solver.Sides

/-!
# Replacing definitions is substitution

Where no definition leads back to itself, the definitions can be written out: every defined symbol
has a term in its place in which no defined symbol is left.  A reduction that replaces defined
symbols never builds that term.  It reduces definitions when it meets them and remembers what it has
reduced, and still it comes to the reduced form of the term with all definitions written out, with
its symbols kept: the same handle.
-/

namespace EquationSolver

/-! ### Terms in place of symbols -/

namespace Term

mutual

/-- The term with other terms in the places of its symbols. -/
def substitute (replacement : String → Term) : Term → Term
  | .symbol name => replacement name
  | .sum terms => .sum (substituteAll replacement terms)
  | .product factors => .product (substituteAll replacement factors)
  | .power a b => .power (substitute replacement a) (substitute replacement b)
  | .negation a => .negation (substitute replacement a)
  | .quotient a b => .quotient (substitute replacement a) (substitute replacement b)
  | .apply f a => .apply f (substitute replacement a)
  | .matrix rows columns entries => .matrix rows columns (substituteAll replacement entries)
  | t => t

def substituteAll (replacement : String → Term) : List Term → List Term
  | [] => []
  | t :: ts => substitute replacement t :: substituteAll replacement ts

end

variable {replacement replacement' : String → Term}

mutual

/-- Only what replaces the symbols that occur in a term matters. -/
theorem substitute_congr : ∀ {t : Term},
    (∀ name, t.Mentions name → replacement name = replacement' name) →
      t.substitute replacement = t.substitute replacement'
  | .number _, _ | .decimal _, _ | .constant _, _ | .undefined, _ | .nonreal, _ => by
    simp only [substitute]
  | .symbol name, h => by
    simp only [substitute]
    exact h name (by simp)
  | .sum terms, h | .product terms, h | .matrix _ _ terms, h => by
    have hterms : substituteAll replacement terms = substituteAll replacement' terms :=
      substituteAll_congr fun t ht name hname => h name (by simpa using ⟨t, ht, hname⟩)
    simp only [substitute, hterms]
  | .power a b, h | .quotient a b, h => by
    have ha := substitute_congr (t := a) fun name hname => h name (by simp [hname])
    have hb := substitute_congr (t := b) fun name hname => h name (by simp [hname])
    simp only [substitute, ha, hb]
  | .negation a, h | .apply _ a, h => by
    have ha := substitute_congr (t := a) fun name hname => h name (by simpa using hname)
    simp only [substitute, ha]

theorem substituteAll_congr : ∀ {terms : List Term},
    (∀ t ∈ terms, ∀ name, t.Mentions name → replacement name = replacement' name) →
      substituteAll replacement terms = substituteAll replacement' terms
  | [], _ => by simp only [substituteAll]
  | t :: ts, h => by
    obtain ⟨ht, hts⟩ := List.forall_mem_cons.1 h
    simp only [substituteAll, substitute_congr ht, substituteAll_congr hts]

end

end Term

open Term (substitute substituteAll)

namespace Reduction

variable {s : Settings} {definitions : Definitions} {replacement : String → Term}

/-- Definitions written out: in the place of a defined symbol stands its definition, with the
    definitions of the symbols in it written out. -/
structure IsExpansion (definitions : Definitions) (replacement : String → Term) : Prop where
  defined : ∀ name definition, definitions.lookup name = some definition →
    replacement name = definition.substitute replacement
  undefined : ∀ name, definitions.lookup name = none → replacement name = .symbol name

/-- Definitions that do not lead back to themselves can be written out. -/
theorem exists_isExpansion (h : ∀ name, ¬IsCircular definitions name) :
    ∃ replacement, IsExpansion definitions replacement := by
  obtain ⟨replacement, -, hundefined, hdefined⟩ := exists_meaning substitute
    (fun _ _ _ => Term.substitute_congr) definitions .symbol .undefined
  exact ⟨replacement, fun name definition => hdefined name definition (h name), hundefined⟩

/-! ### Reduction after substitution -/

mutual

/-- Reducing a term with other terms in the places of its symbols is reducing the term with the
    symbols standing for the reduced forms of these. -/
theorem reduceUnder_substitute (meaning : String → Term) : ∀ t : Term,
    reduceUnder s meaning (t.substitute replacement) =
      reduceUnder s (fun name => reduceUnder s meaning (replacement name)) t
  | .number _ | .decimal _ | .constant _ | .undefined | .nonreal => by
    simp only [substitute, reduceUnder]
  | .symbol name => by simp only [substitute, reduceUnder_symbol]
  | .sum terms | .product terms | .matrix _ _ terms => by
    simp only [substitute, reduceUnder, reduceAllUnder_substitute meaning terms]
  | .power a b | .quotient a b => by
    simp only [substitute, reduceUnder, reduceUnder_substitute meaning a,
      reduceUnder_substitute meaning b]
  | .negation a | .apply _ a => by
    simp only [substitute, reduceUnder, reduceUnder_substitute meaning a]

theorem reduceAllUnder_substitute (meaning : String → Term) : ∀ terms : List Term,
    reduceAllUnder s meaning (substituteAll replacement terms) =
      reduceAllUnder s (fun name => reduceUnder s meaning (replacement name)) terms
  | [] => by simp only [substituteAll, reduceAllUnder]
  | t :: ts => by
    simp only [substituteAll, reduceAllUnder, reduceUnder_substitute meaning t,
      reduceAllUnder_substitute meaning ts]

end

/-- A defined symbol means the reduced form of what is written out for it. -/
theorem IsExpansion.isMeaningAt (h : IsExpansion definitions replacement) {name : String}
    (hcircular : ¬IsCircular definitions name) (hs : s.symbols = .replaceDefined) :
    IsMeaningAt s definitions (fun name => reduceUnder s .symbol (replacement name)) name where
  kept hkept := by rw [h.undefined name (hkept hs), reduceUnder_symbol]
  defined _ definition hlookup := by
    rw [h.defined name definition hlookup, reduceUnder_substitute]
  circular _ hname := absurd hname hcircular

theorem isMeaningAt_symbol (hs : s.symbols = .keepAll) (definitions : Definitions) (name : String) :
    IsMeaningAt s definitions .symbol name where
  kept _ := rfl
  defined hreplace := nomatch hs.symm.trans hreplace
  circular hreplace := nomatch hs.symm.trans hreplace

/-! ### Sums, products, powers and functions -/

/-- The settings with another way to treat defined symbols. -/
def Settings.withSymbols (s : Settings) (policy : SymbolPolicy) : Settings :=
  { s with symbols := policy }

section WithSymbols

variable (s : Settings) (policy : SymbolPolicy)

/-- Products and powers do not depend on how symbols are treated. -/
theorem within_withSymbols (depth : Nat) :
    mulWithin (s.withSymbols policy) depth = mulWithin s depth ∧
      powWithin (s.withSymbols policy) depth = powWithin s depth := by
  induction depth with
  | zero => exact ⟨rfl, rfl⟩
  | succ depth ih =>
    obtain ⟨hmul, hpow⟩ := ih
    constructor
    · funext factors
      rw [mulWithin, mulWithin, hmul, hpow]
      rfl
    · funext base exponent
      rw [powWithin, powWithin, hmul, hpow]
      rfl

theorem mul_withSymbols : mul (s.withSymbols policy) = mul s :=
  (within_withSymbols s policy maxDepth).1

theorem pow_withSymbols : pow (s.withSymbols policy) = pow s :=
  (within_withSymbols s policy maxDepth).2

theorem apply_withSymbols : apply (s.withSymbols policy) = apply s := by
  funext f argument
  have hsine : exactSine? (s.withSymbols policy) = exactSine? s := by
    funext step
    unfold exactSine? firstQuarterSine?
    rw [mul_withSymbols, pow_withSymbols]
  have hcosine : exactCosine? (s.withSymbols policy) = exactCosine? s := by
    funext step
    unfold exactCosine?
    rw [hsine]
  have htangent : exactTangent? (s.withSymbols policy) = exactTangent? s := by
    funext step
    unfold exactTangent?
    rw [hsine, hcosine, mul_withSymbols, pow_withSymbols]
  have hangle : angle (s.withSymbols policy) = angle s := by
    funext halfTurns
    unfold angle
    rw [mul_withSymbols]
    rfl
  have hinverse : exactInverse? (s.withSymbols policy) = exactInverse? s := by
    funext f argument
    unfold exactInverse?
    rw [hangle]
    rfl
  have hroot : exactCubeRoot? (s.withSymbols policy) = exactCubeRoot? s := by
    funext argument
    unfold exactCubeRoot?
    rw [mul_withSymbols, pow_withSymbols]
  unfold apply exactValue?
  rw [hsine, hcosine, htangent, hinverse, hroot]
  rfl

mutual

/-- Given what symbols stand for, it does not matter how they are treated. -/
theorem reduceUnder_withSymbols (meaning : String → Term) : ∀ t : Term,
    reduceUnder (s.withSymbols policy) meaning t = reduceUnder s meaning t
  | .number _ | .decimal _ | .constant _ | .undefined | .nonreal | .symbol _ => by
    simp only [reduceUnder]
  | .sum terms | .product terms | .matrix _ _ terms => by
    simp only [reduceUnder, reduceAllUnder_withSymbols meaning terms, mul_withSymbols]
  | .power a b | .quotient a b => by
    simp only [reduceUnder, reduceUnder_withSymbols meaning a, reduceUnder_withSymbols meaning b,
      mul_withSymbols, pow_withSymbols]
  | .negation a | .apply _ a => by
    simp only [reduceUnder, reduceUnder_withSymbols meaning a, mul_withSymbols, apply_withSymbols]

theorem reduceAllUnder_withSymbols (meaning : String → Term) : ∀ terms : List Term,
    reduceAllUnder (s.withSymbols policy) meaning terms = reduceAllUnder s meaning terms
  | [] => by simp only [reduceAllUnder]
  | t :: ts => by
    simp only [reduceAllUnder, reduceUnder_withSymbols meaning t,
      reduceAllUnder_withSymbols meaning ts]

end

end WithSymbols

/-- Replacing defined symbols comes to the same as keeping all symbols of the term in which the
    definitions have been written out. -/
theorem IsExpansion.reduce_eq (h : IsExpansion definitions replacement)
    (hcircular : ∀ name, ¬IsCircular definitions name) (s : Settings) (t : Term) :
    (reduce (s.withSymbols .replaceDefined) definitions t).value =
      (reduce (s.withSymbols .keepAll) definitions (t.substitute replacement)).value := by
  rw [value_reduce fun name _ => h.isMeaningAt (hcircular name) rfl,
    value_reduce fun name _ => isMeaningAt_symbol rfl definitions name, reduceUnder_substitute]
  simp only [reduceUnder_withSymbols]

end Reduction

/-! ### Handles -/

namespace Context

variable {context : Context} {handle handle' : Handle} {t u : Term}

/-- A reduced form that is in the pool is found there. -/
theorem exists_reduceHandle_eq {s : Reduction.Settings} {result : Handle}
    (h : context.pool.IsWellFormed) (ht : context.pool.get? handle = some t)
    (hresult : context.pool.get? result =
      some (Reduction.reduce s context.definedTerms t).value) :
    ∃ after, context.reduceHandle s handle = .ok (result, after) := by
  obtain ⟨result', after, hreduce, hgrows, -, hresult'⟩ := exists_record_reduce (s := s) h ht
  have hlive : result.index < after.pool.size :=
    hgrows.index_lt (Array.getElem?_eq_some_iff.1 hresult).1
  have hsame : result = result' := (hgrows.isWellFormed.get?_inj hlive).1
    ((hgrows.pool result _ hresult).trans hresult'.symm)
  exact ⟨after, hsame ▸ hreduce⟩

/-- Terms with the same reduced form are reduced to the same handle, one after the other. -/
theorem reduceHandle_eq_of_value_eq {s s' : Reduction.Settings} (h : context.pool.IsWellFormed)
    (hdefines : context.DefinesTerms) (ht : context.pool.tree? handle = some t)
    (hu : context.pool.tree? handle' = some u)
    (hvalue : (Reduction.reduce s context.definedTerms t).value =
      (Reduction.reduce s' context.definedTerms u).value) :
    ∃ result after again, context.reduceHandle s handle = .ok (result, after) ∧
      after.reduceHandle s' handle' = .ok (result, again) := by
  rw [h.tree?_eq_get?] at ht hu
  obtain ⟨result, after, hreduce, hgrows, hafter, hresult⟩ := exists_record_reduce (s := s) h ht
  have hdefinitions : after.definedTerms = context.definedTerms := hafter ▸ (hdefines.record _).2
  rw [hvalue, ← hdefinitions] at hresult
  obtain ⟨again, hagain⟩ :=
    exists_reduceHandle_eq hgrows.isWellFormed (hgrows.pool handle' u hu) hresult
  exact ⟨result, after, again, hreduce, hagain⟩

/-- Where no definition leads back to itself, all definitions can be written out, and reducing a
    term with defined symbols replaced returns the handle that reducing the written-out term with
    all symbols kept returns, whichever of the two is reduced first. -/
theorem reduceHandle_replaces_definitions (h : context.pool.IsWellFormed)
    (hdefines : context.DefinesTerms)
    (hcircular : ∀ name, ¬Reduction.IsCircular context.definedTerms name) :
    (∃ replacement, Reduction.IsExpansion context.definedTerms replacement) ∧
    ∀ replacement, Reduction.IsExpansion context.definedTerms replacement →
      ∀ (s : Reduction.Settings) (handle handle' : Handle) (t : Term),
        context.pool.tree? handle = some t →
        context.pool.tree? handle' = some (t.substitute replacement) →
          (∃ result after again,
            context.reduceHandle (s.withSymbols .replaceDefined) handle = .ok (result, after) ∧
            after.reduceHandle (s.withSymbols .keepAll) handle' = .ok (result, again)) ∧
          ∃ result after again,
            context.reduceHandle (s.withSymbols .keepAll) handle' = .ok (result, after) ∧
            after.reduceHandle (s.withSymbols .replaceDefined) handle = .ok (result, again) := by
  refine ⟨Reduction.exists_isExpansion hcircular, ?_⟩
  intro replacement hreplacement s handle handle' t ht ht'
  have hvalue := hreplacement.reduce_eq hcircular s t
  exact ⟨reduceHandle_eq_of_value_eq h hdefines ht ht' hvalue,
    reduceHandle_eq_of_value_eq h hdefines ht' ht hvalue.symm⟩

/-- With `a` defined as `b + 1` and `b` as 2, the expression `a` has the handle of `2 + 1`. -/
theorem reduceHandle_replaces_definitions_chain :
    let ts : List Term := [.symbol "b", .number 1, .sum [.symbol "b", .number 1], .number 2,
      .symbol "a", .sum [.number 2, .number 1]]
    let definitions : Definitions := [("a", .sum [.symbol "b", .number 1]), ("b", .number 2)]
    let context := Context.ofTerms ts definitions
    ∃ result after again,
      context.reduceHandle {} (context.pool.handleOf (.symbol "a")) = .ok (result, after) ∧
      after.reduceHandle { symbols := .keepAll }
        (context.pool.handleOf (.sum [.number 2, .number 1])) = .ok (result, again) := by
  intro ts definitions context
  have hparts : ∀ (i : Nat) (hi : i < ts.length), ∀ u ∈ ts[i].children, u ∈ ts.take i := by decide
  have hpool : context.pool.IsWellFormed := Pool.isWellFormed_internAll hparts
  have hdefinitions : ∀ d ∈ definitions, d.2 ∈ ts := by decide
  obtain ⟨hdefines, hterms⟩ := Context.definesTerms_ofTerms ts hparts hdefinitions
  have htree {t : Term} (ht : t ∈ ts) :
      context.pool.tree? (context.pool.handleOf t) = some t :=
    (hpool.tree?_eq_get? _).trans (Pool.get?_handleOf_internAll hparts ht)
  have hlookup {name : String} {definition : Term}
      (h : context.definedTerms.lookup name = some definition) :
      (name = "a" ∧ definition = .sum [.symbol "b", .number 1]) ∨
        (name = "b" ∧ definition = .number 2) := by
    rw [hterms] at h
    obtain ⟨before, after, heq, -⟩ := List.lookup_eq_some_iff.1 h
    have hmem : (name, definition) ∈ definitions := by simp [heq]
    simpa [definitions] using hmem
  have hrefers {name other : String}
      (h : Reduction.RefersTo context.definedTerms name other) : name = "a" ∧ other = "b" := by
    obtain ⟨definition, hdefinition, hother⟩ := h
    rcases hlookup hdefinition with ⟨rfl, rfl⟩ | ⟨rfl, rfl⟩
    · simpa [Term.Mentions, Term.dependsOn, Term.contains, Term.containsAny, eq_comm] using hother
    · simp [Term.Mentions, Term.dependsOn, Term.contains] at hother
  have hcircular (name : String) : ¬Reduction.IsCircular context.definedTerms name := by
    intro h
    obtain ⟨_, hfirst, -⟩ := Relation.TransGen.head'_iff.1 h
    obtain ⟨_, -, hlast⟩ := Relation.TransGen.tail'_iff.1 h
    exact absurd ((hrefers hfirst).1.symm.trans (hrefers hlast).2) (by decide)
  let replacement (name : String) : Term :=
    if name = "a" then .sum [.number 2, .number 1]
    else if name = "b" then .number 2 else .symbol name
  have hreplacement : Reduction.IsExpansion context.definedTerms replacement := by
    constructor
    · intro name definition h
      rcases hlookup h with ⟨rfl, rfl⟩ | ⟨rfl, rfl⟩ <;> rfl
    · intro name h
      rw [hterms] at h
      have ha : name ≠ "a" := by
        rintro rfl
        cases h
      have hb : name ≠ "b" := by
        rintro rfl
        cases h
      simp [replacement, ha, hb]
  exact ((reduceHandle_replaces_definitions hpool hdefines hcircular).2 replacement hreplacement {}
    _ _ (.symbol "a") (htree (by decide)) (htree (by decide))).1

end Context

end EquationSolver
