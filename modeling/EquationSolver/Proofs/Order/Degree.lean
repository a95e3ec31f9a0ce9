import EquationSolver.Proofs.Order.Nodes
import EquationSolver.Proofs.Sorting

/-!
# Degrees on words

A degree is a signed word of 64 bits.  That of a power stops at the ends of the range of words, but
those of the factors of a product are added one after the other as they are, and a sum may leave
the range.  A pool can compute the degree at a handle node by node with additions that have no
result where they do.  What this comes to is the degree, and it comes to something exactly if the
degrees of the factors add up within the range in every product that the degree is computed from.
Terms of a sum are compared by their degrees unless one of the two alone is a number, and a sum is
sorted on words where the degrees of all its terms add up.
-/

namespace EquationSolver

namespace Integer

/-- A signed word of 64 bits. -/
def IsWord (a : Int) : Prop :=
  minSigned ≤ a ∧ a ≤ maxSigned

instance (a : Int) : Decidable (IsWord a) :=
  inferInstanceAs (Decidable (minSigned ≤ a ∧ a ≤ maxSigned))

/-- The sum of two words, if it is a word. -/
def addWords? (a b : Int) : Option Int :=
  toInt64Range? (a + b)

theorem addWords?_eq_some_iff {a b c : Int} :
    addWords? a b = some c ↔ IsWord (a + b) ∧ c = a + b := by
  unfold addWords? toInt64Range?
  split
  case isTrue h => simp [IsWord, h, eq_comm]
  case isFalse h => simp [IsWord, h]

theorem wrapSigned_of_isWord {a : Int} (h : IsWord a) : wrapSigned a = a :=
  if_pos h

end Integer

namespace Term

/-! ### The terms that a degree is computed from -/

/-- The terms whose degrees the degree of a term is computed from.  A power whose exponent is no
    word has none. -/
def degreeParts : Term → List Term
  | .power base exponent =>
    if (exponent.rational?.bind Rational.toInt64Range?).isSome then [base] else []
  | .product factors => factors
  | .sum terms => terms
  | _ => []

/-- The degrees of the factors of a product, added one after the other, are words. -/
def FactorsAddUp : Term → Prop
  | .product factors => ∀ firsts, firsts <+: factors → Integer.IsWord (degreeSum firsts)
  | _ => True

/-- The same of every product that the degree of a term is computed from. -/
def AddsUp (t : Term) : Prop :=
  ∀ u, Relation.ReflTransGen (fun t u => u ∈ t.degreeParts) t u → u.FactorsAddUp

variable {t : Term} {ts : List Term}

theorem addsUp_iff : t.AddsUp ↔ t.FactorsAddUp ∧ ∀ u ∈ t.degreeParts, u.AddsUp := by
  constructor
  · intro h
    exact ⟨h t .refl, fun u hu v hv => h v (hv.head hu)⟩
  · rintro ⟨ht, hparts⟩ v hv
    rcases Relation.ReflTransGen.cases_head hv with rfl | ⟨u, hu, hv⟩
    · exact ht
    · exact hparts u hu v hv

theorem addsUp_of_degreeParts (hparts : t.degreeParts = []) (ht : t.FactorsAddUp) : t.AddsUp := by
  rw [addsUp_iff, hparts]
  exact ⟨ht, nofun⟩

theorem addsUp_product : (product ts).AddsUp ↔
    (∀ firsts, firsts <+: ts → Integer.IsWord (degreeSum firsts)) ∧ ∀ u ∈ ts, u.AddsUp :=
  addsUp_iff

theorem addsUp_sum : (sum ts).AddsUp ↔ ∀ u ∈ ts, u.AddsUp := by
  rw [addsUp_iff]
  exact and_iff_right trivial

theorem addsUp_power {base exponent : Term} : (power base exponent).AddsUp ↔
    ((exponent.rational?.bind Rational.toInt64Range?).isSome → base.AddsUp) := by
  rw [addsUp_iff, degreeParts]
  split
  case isTrue h => simp [FactorsAddUp, h]
  case isFalse h => simp [FactorsAddUp, h]

/-- The degree of a product whose factors add up is the sum of theirs. -/
theorem degree_product_of_addsUp (h : (product ts).AddsUp) :
    (product ts).degree = degreeSum ts := by
  rw [degree, Integer.wrapSigned_of_isWord ((addsUp_product.1 h).1 ts List.prefix_rfl)]

end Term

namespace Pool

/-! ### Degrees at handles -/

/-- A word and the degrees at handles, added one after the other as long as the sums are words. -/
def addDegrees? (degree? : Handle → Option Int) : Int → List Handle → Option Int
  | total, [] => some total
  | total, factor :: factors => do
    let degree ← degree? factor
    let total ← Integer.addWords? total degree
    addDegrees? degree? total factors

/-- The degree at a handle, computed on words by the nodes below it, down to a depth. -/
def degreeWithin? (pool : Pool) : Nat → Handle → Option Int
  | 0, _ => none
  | depth + 1, handle =>
    match pool.node? handle with
    | some (.symbol _) => some 1
    | some (.power base exponent) =>
      match pool.wordAt? exponent with
      | some e => (pool.degreeWithin? depth base).map fun d => Integer.clampSigned (d * e)
      | none => some 0
    | some (.product factors) => addDegrees? (pool.degreeWithin? depth) 0 factors
    | some (.sum terms) => (terms.mapM (pool.degreeWithin? depth)).map fun ds => ds.max?.getD 0
    | some _ => some 0
    | none => none

/-- The degree at a handle, computed on words.  Children come before their nodes, so that the index
    bounds the depth. -/
def wordDegree? (pool : Pool) (handle : Handle) : Option Int :=
  pool.degreeWithin? (handle.index + 1) handle

/-- The order of two terms of a sum, with degrees on words.  They are computed only if the terms are
    not the same and none of them alone is a number. -/
def compareWords? (pool : Pool) (a b : Handle) : Option Ordering :=
  if a = b then some .eq
  else
    match Ord.compare (pool.isNumericAt a).toNat (pool.isNumericAt b).toNat with
    | .eq => do
      let degreeB ← pool.wordDegree? b
      let degreeA ← pool.wordDegree? a
      return (Ord.compare degreeB degreeA).then
        ((compareLists pool.compareHandles (pool.bodyOf a) (pool.bodyOf b)).then
          (pool.compareHandles a b))
    | byKind => some byKind

variable {pool : Pool} {s t : Term} {a b : Handle} {d : Int}

theorem addDegrees?_eq_some_iff {degree? : Handle → Option Int} {factors : List Term} {total : Int}
    (h : ∀ t ∈ factors, ∀ d, degree? (pool.handleOf t) = some d ↔ t.AddsUp ∧ d = t.degree)
    (htotal : Integer.IsWord total) :
    addDegrees? degree? total (factors.map pool.handleOf) = some d ↔
      (∀ t ∈ factors, t.AddsUp) ∧
        (∀ firsts, firsts <+: factors → Integer.IsWord (total + Term.degreeSum firsts)) ∧
        d = total + Term.degreeSum factors := by
  induction factors generalizing total with
  | nil =>
    simp [addDegrees?, Term.degreeSum, htotal, eq_comm]
  | cons t ts ih =>
    obtain ⟨ht, hts⟩ := List.forall_mem_cons.1 h
    simp only [List.map_cons, addDegrees?, Option.bind_eq_bind, Option.bind_eq_some_iff, ht,
      Integer.addWords?_eq_some_iff, List.forall_mem_cons, Term.degreeSum, ← Int.add_assoc]
    constructor
    · rintro ⟨_, ⟨hadds, rfl⟩, _, ⟨hword, rfl⟩, hrest⟩
      obtain ⟨hall, hsums, rfl⟩ := (ih hts hword).1 hrest
      refine ⟨⟨hadds, hall⟩, fun firsts hfirsts => ?_, rfl⟩
      rcases List.prefix_cons_iff.1 hfirsts with rfl | ⟨rest, rfl, hrest⟩
      · simpa [Term.degreeSum] using htotal
      · rw [Term.degreeSum, ← Int.add_assoc]
        exact hsums rest hrest
    · rintro ⟨⟨hadds, hall⟩, hsums, rfl⟩
      have hword : Integer.IsWord (total + t.degree) := by
        simpa [Term.degreeSum] using hsums [t] (List.prefix_cons_iff.2 (.inr ⟨[], rfl, List.nil_prefix⟩))
      refine ⟨_, ⟨hadds, rfl⟩, _, ⟨hword, rfl⟩, (ih hts hword).2 ⟨hall, fun firsts hfirsts => ?_, rfl⟩⟩
      have hsum := hsums (t :: firsts) (List.cons_prefix_cons.2 ⟨rfl, hfirsts⟩)
      rwa [Term.degreeSum, ← Int.add_assoc] at hsum

theorem mapM_degrees_eq_some_iff {degree? : Handle → Option Int} {terms : List Term}
    {degrees : List Int}
    (h : ∀ t ∈ terms, ∀ d, degree? (pool.handleOf t) = some d ↔ t.AddsUp ∧ d = t.degree) :
    (terms.map pool.handleOf).mapM degree? = some degrees ↔
      (∀ t ∈ terms, t.AddsUp) ∧ degrees = terms.map Term.degree := by
  induction terms generalizing degrees with
  | nil => simp [eq_comm]
  | cons t ts ih =>
    obtain ⟨ht, hts⟩ := List.forall_mem_cons.1 h
    simp only [List.map_cons, List.mapM_cons, Option.bind_eq_bind, Option.bind_eq_some_iff, ht,
      ih hts, List.forall_mem_cons]
    constructor
    · rintro ⟨_, ⟨hadds, rfl⟩, _, ⟨hall, rfl⟩, hcons⟩
      exact ⟨⟨hadds, hall⟩, (Option.some.inj hcons).symm⟩
    · rintro ⟨⟨hadds, hall⟩, rfl⟩
      exact ⟨_, ⟨hadds, rfl⟩, _, ⟨hall, rfl⟩, rfl⟩

theorem some_eq_some_iff_and {α : Type} {P : Prop} {x y : α} (hP : P) :
    some x = some y ↔ P ∧ y = x := by
  rw [Option.some.injEq, eq_comm, and_iff_right hP]

namespace Reachable

variable (h : pool.Reachable)

include h

/-- Down to a depth beyond the index, words come to the degree if it adds up. -/
theorem degreeWithin?_eq_some_iff {depth : Nat} (hdepth : a.index < depth)
    (ha : pool.get? a = some s) :
    pool.degreeWithin? depth a = some d ↔ s.AddsUp ∧ d = s.degree := by
  induction depth generalizing a s d with
  | zero => omega
  | succ depth ih =>
    obtain ⟨n, hnode, hn⟩ := h.exists_node ha
    have hchildren : ∀ u ∈ s.children, ∀ d,
        pool.degreeWithin? depth (pool.handleOf u) = some d ↔ u.AddsUp ∧ d = u.degree := by
      intro u hu d
      obtain ⟨hget, hlt⟩ := h.get?_handleOf_child ha hu
      exact ih (by omega) hget
    rw [degreeWithin?, hnode]
    cases s with
    | symbol name =>
      obtain ⟨place, -, rfl⟩ := Option.map_eq_some_iff.1 hn
      exact some_eq_some_iff_and (Term.addsUp_of_degreeParts rfl trivial)
    | power base exponent =>
      cases hn
      obtain ⟨hget, -⟩ := h.get?_handleOf_child ha (u := exponent) (by simp [Term.children])
      have hbase := hchildren base (by simp [Term.children])
      dsimp only
      rw [h.wordAt?_eq hget, Term.addsUp_power, Term.degree]
      cases exponent.rational?.bind Rational.toInt64Range? with
      | none => exact some_eq_some_iff_and (by simp)
      | some e =>
        simp only [Option.map_eq_some_iff, hbase, Option.isSome_some, forall_const]
        constructor
        · rintro ⟨_, ⟨hadds, rfl⟩, rfl⟩
          exact ⟨hadds, rfl⟩
        · rintro ⟨hadds, rfl⟩
          exact ⟨_, ⟨hadds, rfl⟩, rfl⟩
    | product factors =>
      cases hn
      have hzero : Integer.IsWord 0 := by decide
      have hsum := addDegrees?_eq_some_iff (d := d) hchildren hzero
      simp only [Int.zero_add] at hsum
      refine hsum.trans ⟨?_, ?_⟩
      · rintro ⟨hall, hsums, rfl⟩
        have hadds := Term.addsUp_product.2 ⟨hsums, hall⟩
        exact ⟨hadds, (Term.degree_product_of_addsUp hadds).symm⟩
      · rintro ⟨hadds, rfl⟩
        obtain ⟨hsums, hall⟩ := Term.addsUp_product.1 hadds
        exact ⟨hall, hsums, Term.degree_product_of_addsUp hadds⟩
    | sum terms =>
      cases hn
      dsimp only
      rw [Option.map_eq_some_iff, Term.addsUp_sum, Term.degree, Term.degreeMax_eq]
      constructor
      · rintro ⟨degrees, hdegrees, rfl⟩
        obtain ⟨hall, rfl⟩ := (mapM_degrees_eq_some_iff hchildren).1 hdegrees
        exact ⟨hall, rfl⟩
      · rintro ⟨hall, rfl⟩
        exact ⟨_, (mapM_degrees_eq_some_iff hchildren).2 ⟨hall, rfl⟩, rfl⟩
    | _ =>
      cases hn
      exact some_eq_some_iff_and (Term.addsUp_of_degreeParts rfl trivial)

theorem wordDegree?_eq_some_iff (ha : pool.get? a = some s) :
    pool.wordDegree? a = some d ↔ s.AddsUp ∧ d = pool.degreeAt a := by
  rw [wordDegree?, h.degreeWithin?_eq_some_iff (Nat.lt_succ_self _) ha, h.degreeAt_eq ha]

/-- On words, two terms of a sum compare as they do, if the degrees add up where they are needed. -/
theorem compareWords?_eq_some_iff (ha : pool.get? a = some s) (hb : pool.get? b = some t)
    {o : Ordering} : pool.compareWords? a b = some o ↔
      (a ≠ b → s.isNumeric = t.isNumeric → s.AddsUp ∧ t.AddsUp) ∧
        o = pool.compareTermHandles a b := by
  unfold compareWords? compareTermHandles
  by_cases hab : a = b
  · rw [if_pos hab, if_pos hab]
    exact some_eq_some_iff_and fun hne => absurd hab hne
  rw [if_neg hab, if_neg hab, h.isNumericAt_eq ha, h.isNumericAt_eq hb]
  by_cases hkind : s.isNumeric = t.isNumeric
  · have hcompare : Ord.compare s.isNumeric.toNat t.isNumeric.toNat = .eq :=
      Nat.compare_eq_eq.2 (congrArg Bool.toNat hkind)
    simp only [hcompare, Option.bind_eq_bind, Option.bind_eq_some_iff, Ordering.eq_then,
      h.wordDegree?_eq_some_iff ha, h.wordDegree?_eq_some_iff hb]
    constructor
    · rintro ⟨_, ⟨ht, rfl⟩, _, ⟨hs, rfl⟩, ho⟩
      exact ⟨fun _ _ => ⟨hs, ht⟩, (Option.some.inj ho).symm⟩
    · rintro ⟨hadds, rfl⟩
      obtain ⟨hs, ht⟩ := hadds hab hkind
      exact ⟨_, ⟨ht, rfl⟩, _, ⟨hs, rfl⟩, rfl⟩
  · have hcompare : Ord.compare s.isNumeric.toNat t.isNumeric.toNat = .lt ∨
        Ord.compare s.isNumeric.toNat t.isNumeric.toNat = .gt := by
      revert hkind
      cases s.isNumeric <;> cases t.isNumeric <;> decide
    rcases hcompare with hcompare | hcompare <;> rw [hcompare]
    all_goals exact some_eq_some_iff_and fun _ heq => absurd heq hkind

/-- The terms of a sum whose degrees add up are compared on words, and sorted as they are. -/
theorem sortBy_compareWords? {terms : List Term} (hterms : ∀ u ∈ terms, u ∈ pool.terms ∧ u.AddsUp) :
    (∀ u ∈ terms, ∀ v ∈ terms,
      pool.compareWords? (pool.handleOf u) (pool.handleOf v) = some (Term.compareTerms u v)) ∧
    ∀ fallback, sortBy (fun a b => (pool.compareWords? a b).getD fallback)
      (terms.map pool.handleOf) = (Term.sortTerms terms).map pool.handleOf := by
  have hget : ∀ u ∈ terms, pool.get? (pool.handleOf u) = some u := fun u hu =>
    h.isWellFormed.sound.get?_handleOf (hterms u hu).1
  have hcompare : ∀ u ∈ terms, ∀ v ∈ terms,
      pool.compareWords? (pool.handleOf u) (pool.handleOf v) = some (Term.compareTerms u v) := by
    intro u hu v hv
    rw [h.compareWords?_eq_some_iff (hget u hu) (hget v hv),
      h.compareTermHandles_eq (hget u hu) (hget v hv)]
    exact ⟨fun _ _ => ⟨(hterms u hu).2, (hterms v hv).2⟩, rfl⟩
  refine ⟨hcompare, fun fallback => ?_⟩
  rw [Term.sortTerms_eq]
  refine sortBy_map fun u hu v hv => ?_
  rw [hcompare u hu v hv, Option.getD_some]

/-- Whatever integers the exponents are, computing the degree at a handle leaves the words only where
    the degrees of the factors of a product do not add up: powers and sums never leave them.  Two
    terms of a sum are compared within the words just when their degrees add up or are not needed,
    and a sum whose terms add up is sorted within them. -/
theorem degree_staysWord (ha : pool.get? a = some s) (hb : pool.get? b = some t) :
    (∀ d, pool.wordDegree? a = some d ↔ s.AddsUp ∧ d = pool.degreeAt a) ∧
    (∀ o, pool.compareWords? a b = some o ↔
      (a ≠ b → s.isNumeric = t.isNumeric → s.AddsUp ∧ t.AddsUp) ∧
        o = pool.compareTermHandles a b) ∧
    ∀ terms : List Term, (∀ u ∈ terms, u ∈ pool.terms ∧ u.AddsUp) →
      (∀ u ∈ terms, ∀ v ∈ terms,
        pool.compareWords? (pool.handleOf u) (pool.handleOf v) = some (Term.compareTerms u v)) ∧
      ∀ fallback, sortBy (fun a b => (pool.compareWords? a b).getD fallback)
        (terms.map pool.handleOf) = (Term.sortTerms terms).map pool.handleOf :=
  ⟨fun _ => h.wordDegree?_eq_some_iff ha, fun _ => h.compareWords?_eq_some_iff ha hb,
    fun _ hterms => h.sortBy_compareWords? hterms⟩

end Reachable

/-! ### The largest degree -/

/-- The power of `x` with the largest exponent but one, which is the largest word but one. -/
def highPower : Term :=
  .power (.symbol "x") (.number 0x7FFFFFFFFFFFFFFE)

/-- The pool of that power times `x`. -/
def highPowers : Pool :=
  ({} : Pool).internAll [.symbol "x", .number 0x7FFFFFFFFFFFFFFE, highPower,
    .product [highPower, .symbol "x"]]

theorem terms_highPowers : highPowers.terms = #[.symbol "x", .number 0x7FFFFFFFFFFFFFFE, highPower,
    .product [highPower, .symbol "x"]] :=
  terms_internAll (by decide) (by decide)

theorem reachable_highPowers : highPowers.Reachable :=
  reachable_internAll (by decide) (by decide)

theorem addsUp_highPowers : (Term.product [highPower, .symbol "x"]).AddsUp := by
  have hsymbol : (Term.symbol "x").AddsUp := Term.addsUp_of_degreeParts rfl trivial
  have hpower : highPower.AddsUp := Term.addsUp_power.2 fun _ => hsymbol
  refine Term.addsUp_product.2 ⟨fun firsts hfirsts => ?_, by simp [hsymbol, hpower]⟩
  rcases List.prefix_cons_iff.1 hfirsts with rfl | ⟨rest, rfl, hrest⟩
  · decide
  rcases List.prefix_cons_iff.1 hrest with rfl | ⟨none, rfl, hnone⟩
  · decide
  · rw [List.prefix_nil.1 hnone]
    decide

/-- The factors add up to the largest word. -/
theorem degree_staysWord_highPowers : highPowers.Reachable ∧
    highPowers.get? ⟨3⟩ = some (.product [highPower, .symbol "x"]) ∧
    highPowers.get? ⟨0⟩ = some (.symbol "x") ∧
    highPowers.wordDegree? ⟨3⟩ = some (highPowers.degreeAt ⟨3⟩) := by
  have hproduct : highPowers.get? ⟨3⟩ = some (.product [highPower, .symbol "x"]) := by
    rw [get?, terms_highPowers]
    rfl
  have hsymbol : highPowers.get? ⟨0⟩ = some (.symbol "x") := by
    rw [get?, terms_highPowers]
    rfl
  exact ⟨reachable_highPowers, hproduct, hsymbol,
    ((reachable_highPowers.degree_staysWord hproduct hsymbol).1 _).2 ⟨addsUp_highPowers, rfl⟩⟩

/-- With the largest exponent they do not, and the product comes after `z` among the terms of a
    sum. -/
example : Term.compareTerms
    (.product [.power (.symbol "x") (.number 0x7FFFFFFFFFFFFFFF), .symbol "y"]) (.symbol "z") =
      .gt := by
  decide

end Pool

end EquationSolver
