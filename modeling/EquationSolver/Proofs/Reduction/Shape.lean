import EquationSolver.Proofs.Reduction.Inheritance
import EquationSolver.Proofs.Reduction.Results
import EquationSolver.Proofs.Reduction.Tally

/-!
# The shape of reduced terms

Negations and quotients are written as products and powers, and these are computed as far as that
can be done at a glance: a product has no product and at most one number among its factors, which
comes first, and no power has a trivial base or exponent.  Only an operand that is a matrix leaves
products and powers as they are.

The like terms of a sum are collected.  Where its coefficients are exact, no two of its terms have
the same body, and none has the coefficient zero.
-/

namespace EquationSolver

namespace Reduction

variable {s : Settings} {c : Coefficient} {t : Term} {factors terms : List Term}

/-- Factors that have been multiplied together as far as they are numbers or products: none of them
    is a product, and only the first is a number, but neither the exact zero nor the exact one. -/
structure AreMultiplied (factors : List Term) : Prop where
  not_product : ∀ t ∈ factors, ∀ ts, t ≠ .product ts
  not_numeric : ∀ t ∈ factors.tail, t.isNumeric = false
  nontrivial : ∀ t ∈ factors.head?, t.isZero = false ∧ t.isOne = false

/-- The shape of a reduced term.  Where no operand is a matrix, the factors of a product have been
    multiplied together and a power has a nontrivial base and exponent. -/
def IsShaped : Term → Prop
  | .negation _ | .quotient _ _ => False
  | .product factors => 2 ≤ factors.length ∧ (hasMatrix factors = false → AreMultiplied factors)
  | .power base exponent => hasMatrix [base, exponent] = false →
      exponent.isZero = false ∧ exponent.isOne = false ∧ base.isOne = false
  | _ => True

/-! ### Numbers and factors -/

theorem everywhere_isShaped_of_isAtom (h : t.isAtom = true) : t.Everywhere IsShaped := by
  refine .of_isAtom h ?_
  cases t with
  | number | decimal | constant | symbol | undefined | nonreal => trivial
  | _ => cases h

theorem nontrivial_of_not_numeric (h : t.isNumeric = false) :
    t.isZero = false ∧ t.isOne = false := by
  cases t with
  | number a => cases h
  | _ => exact ⟨rfl, rfl⟩

theorem nontrivial_toTerm (hzero : c.isZero = false) (hone : c.isOne = false) :
    c.toTerm.isZero = false ∧ c.toTerm.isOne = false := by
  cases c with
  | exact a => exact ⟨hzero, hone⟩
  | approximate x =>
    have hterm : (Coefficient.approximate x).toTerm = Term.ofDouble x := rfl
    rw [hterm, Term.ofDouble]
    split_ifs <;> exact ⟨rfl, rfl⟩

theorem AreFlat.areMultiplied (h : AreFlat factors) : AreMultiplied factors where
  not_product := h.not_product
  not_numeric t ht := h.not_numeric t (List.mem_of_mem_tail ht)
  nontrivial t ht := nontrivial_of_not_numeric (h.not_numeric t (List.mem_of_mem_head? ht))

theorem AreFlat.areMultiplied_cons (h : AreFlat factors) (hzero : c.isZero = false)
    (hone : c.isOne = false) : AreMultiplied (c.toTerm :: factors) where
  not_product := by
    refine List.forall_mem_cons.2 ⟨fun ts hterm => ?_, h.not_product⟩
    have hatom := isAtom_toTerm c
    rw [hterm] at hatom
    cases hatom
  not_numeric := h.not_numeric
  nontrivial t ht := by
    obtain rfl : c.toTerm = t := Option.some.inj ht
    exact nontrivial_toTerm hzero hone

theorem everywhere_productOf (h : ∀ t ∈ factors, t.Everywhere IsShaped)
    (hfactors : hasMatrix factors = false → AreMultiplied factors) :
    (Term.productOf factors).Everywhere IsShaped :=
  .productOf h trivial fun hlength => ⟨hlength, hfactors⟩

theorem everywhere_sortedProduct (hzero : c.isZero = false) (hflat : AreFlat factors)
    (h : ∀ t ∈ factors, t.Everywhere IsShaped) :
    (sortedProduct c factors).value.Everywhere IsShaped := by
  have hperm := sortBy_perm Term.compare factors
  have hsorted : ∀ t ∈ sortBy Term.compare factors, t.Everywhere IsShaped :=
    fun t ht => h t (hperm.mem_iff.1 ht)
  have hflat : AreFlat (sortBy Term.compare factors) :=
    ⟨fun t ht => hflat.not_numeric t (hperm.mem_iff.1 ht),
      fun t ht => hflat.not_product t (hperm.mem_iff.1 ht)⟩
  have hfirst : c.toTerm.Everywhere IsShaped := everywhere_isShaped_of_isAtom (isAtom_toTerm c)
  refine sortedProduct_cases (fun _ => hfirst) (fun _ _ => ?_) fun _ hone => ?_
  · exact everywhere_productOf hsorted fun _ => hflat.areMultiplied
  · exact everywhere_productOf (List.forall_mem_cons.2 ⟨hfirst, hsorted⟩)
      fun _ => hflat.areMultiplied_cons hzero hone

theorem everywhere_matrixProduct (hmatrix : hasMatrix factors = true)
    (h : ∀ t ∈ factors, t.Everywhere IsShaped) :
    (matrixProduct c factors).value.Everywhere IsShaped := by
  have hfirst : c.toTerm.Everywhere IsShaped := everywhere_isShaped_of_isAtom (isAtom_toTerm c)
  refine matrixProduct_cases ?_ ?_
  · exact everywhere_productOf h fun hnone => absurd hmatrix (by simp [hnone])
  · refine everywhere_productOf (List.forall_mem_cons.2 ⟨hfirst, h⟩) fun hnone => ?_
    rw [hasMatrix_toTerm_cons] at hnone
    exact absurd hmatrix (by simp [hnone])

/-! ### Terms of sums -/

/-- A body as it is split off a term of a sum: no number, and the factors of a product without
    matrices are flat. -/
structure IsBody (t : Term) : Prop where
  shaped : t.Everywhere IsShaped
  not_numeric : t.isNumeric = false
  flat : ∀ factors, t = .product factors → hasMatrix factors = false → AreFlat factors

/-- The factors behind the number of a product are a body. -/
theorem isBody_productOf {first : Term} {rest : List Term}
    (h : (Term.product (first :: rest)).Everywhere IsShaped) (hfirst : first.isNumeric = true) :
    IsBody (Term.productOf rest) := by
  obtain ⟨hlength, hmultiplied⟩ := h.self
  have hrest : ∀ t ∈ rest, t.Everywhere IsShaped :=
    fun t ht => h.of_mem_children (List.mem_cons_of_mem _ ht)
  have hflat : hasMatrix rest = false → AreFlat rest := by
    intro hnone
    have hall : hasMatrix (first :: rest) = false := by
      cases first <;> first | exact hnone | cases hfirst
    exact ⟨(hmultiplied hall).not_numeric,
      fun t ht => (hmultiplied hall).not_product t (List.mem_cons_of_mem _ ht)⟩
  match rest, hlength, hrest, hflat with
  | [t], _, hrest, hflat =>
    refine ⟨hrest t List.mem_cons_self, ?_, ?_⟩
    · cases t with
      | number a => exact (hflat rfl).not_numeric _ List.mem_cons_self
      | decimal bits => exact (hflat rfl).not_numeric _ List.mem_cons_self
      | _ => rfl
    · rintro factors rfl -
      exact absurd rfl ((hflat rfl).not_product _ List.mem_cons_self factors)
  | t :: u :: ts, _, hrest, hflat =>
    refine ⟨everywhere_productOf hrest fun hnone => (hflat hnone).areMultiplied, rfl, ?_⟩
    intro factors hfactors hnone
    cases hfactors
    exact hflat hnone

theorem isBody_splitTerm (h : t.Everywhere IsShaped) :
    ∀ body ∈ (splitTerm t).value.2, IsBody body := by
  refine splitTerm_cases (P := fun body _ => ∀ t ∈ body, IsBody t) (fun _ _ => by simp) ?_ ?_
  · rintro first rest c rfl hc
    simpa using isBody_productOf h (isNumeric_of_of? hc)
  · intro hnone hfirst
    have hbody : IsBody t := by
      refine ⟨h, isNumeric_of_of?_eq_none hnone, ?_⟩
      rintro factors rfl hmatrix
      cases factors with
      | nil => exact areFlat_nil
      | cons first rest =>
        have hmultiplied := h.self.2 hmatrix
        have hnumeric := isNumeric_of_of?_eq_none (hfirst first rest rfl)
        exact ⟨List.forall_mem_cons.2 ⟨hnumeric, hmultiplied.not_numeric⟩, hmultiplied.not_product⟩
    simpa using hbody

theorem everywhere_joinTerm {body : Option Term} (hbody : ∀ t ∈ body, IsBody t)
    (hzero : c.isZero = false) : (joinTerm c body).value.Everywhere IsShaped := by
  have hfirst : c.toTerm.Everywhere IsShaped := everywhere_isShaped_of_isAtom (isAtom_toTerm c)
  refine joinTerm_cases (fun _ => hfirst) (fun t ht _ => (hbody t ht).shaped) ?_ ?_
  · intro factors hfactors hone
    have hbody := hbody _ hfactors
    refine everywhere_productOf (List.forall_mem_cons.2
      ⟨hfirst, fun t ht => hbody.shaped.of_mem_children ht⟩) fun hnone => ?_
    rw [hasMatrix_toTerm_cons] at hnone
    exact (hbody.flat _ rfl hnone).areMultiplied_cons hzero hone
  · intro t ht hproduct hone
    have hbody := hbody t ht
    have hflat : AreFlat [t] := ⟨List.forall_mem_singleton.2 hbody.not_numeric,
      List.forall_mem_singleton.2 hproduct⟩
    exact everywhere_productOf (IsInherited.pair hfirst hbody.shaped)
      fun _ => hflat.areMultiplied_cons hzero hone

theorem everywhere_add (h : ∀ t ∈ terms, t.Everywhere IsShaped) :
    (add terms).value.Everywhere IsShaped := by
  have hflat : ∀ u ∈ terms.flatMap summands, u.Everywhere IsShaped :=
    forall_mem_flatMap_summands (fun _ ht _ hu => ht.of_mem_children hu) h
  have hadd : IsAdditive fun body _ => ∀ t ∈ body, IsBody t := fun _ _ _ hbody _ => hbody
  have hparts := hadd.collectedParts fun u hu => isBody_splitTerm (hflat u hu)
  refine add_cases (fun poison hpoison => ?_) (fun _ => .sumOf hflat trivial trivial) ?_
  · rcases eq_of_poison?_eq_some hpoison with rfl | rfl <;> exact everywhere_isShaped_of_isAtom rfl
  · intro _ ts hts
    refine .sumOf (fun t ht => ?_) trivial trivial
    obtain ⟨part, hpart, rfl⟩ := List.mem_map.1 (hts.mem_iff.1 ht)
    exact everywhere_joinTerm (hparts part hpart).1 (hparts part hpart).2

/-! ### Reduced terms -/

theorem isInherited_isShaped (s : Settings) :
    IsInherited s (Term.Everywhere IsShaped) fun _ => True where
  part h hu := h.of_mem_children hu
  number _ := everywhere_isShaped_of_isAtom rfl
  constant _ := everywhere_isShaped_of_isAtom rfl
  undefined := everywhere_isShaped_of_isAtom rfl
  nonreal := everywhere_isShaped_of_isAtom rfl
  double _ x := everywhere_isShaped_of_isAtom (isAtom_ofDouble x)
  read _ _ := trivial
  times _ _ := trivial
  written {c} _ := everywhere_isShaped_of_isAtom (isAtom_toTerm c)
  rest h := (isBody_productOf h rfl).shaped
  add := everywhere_add
  sortedProduct _ hzero hflat _ h := everywhere_sortedProduct hzero hflat h
  matrixProduct _ _ hmatrix h := everywhere_matrixProduct hmatrix h
  power hbase hexponent hkept := .of_parts hkept.nontrivial (IsInherited.pair hbase hexponent)

theorem isHandedOn_isShaped (s : Settings) : IsHandedOn s (Term.Everywhere IsShaped) where
  number _ := everywhere_isShaped_of_isAtom rfl
  undefined := everywhere_isShaped_of_isAtom rfl
  add _ := everywhere_add
  mul _ := (isInherited_isShaped s).mul
  pow _ _ := (isInherited_isShaped s).pow
  apply _ _ ha := (isInherited_isShaped s).apply ha fun _ =>
    .of_parts trivial (List.forall_mem_singleton.2 ha)
  matrix _ _ _ h := .of_parts trivial h

/-- In a reduced term there are no negations and no quotients, and all products and powers without
    a matrix among their operands have been computed: no factor is a product, only the first can be
    a number but not zero or one, no exponent is zero or one and no base is one. -/
theorem everywhere_isShaped_reduce (s : Settings) (definitions : Definitions) (t : Term) :
    (reduce s definitions t).value.Everywhere IsShaped :=
  (isHandedOn_isShaped s).reduce (fun _ _ => everywhere_isShaped_of_isAtom rfl)
    (fun _ _ _ _ hatom _ => everywhere_isShaped_of_isAtom hatom)
    fun _ _ hatom _ => everywhere_isShaped_of_isAtom hatom

/-! ### Like terms -/

/-- A term that is no approximate number, no mark and no matrix. -/
def IsExactNode : Term → Prop
  | .decimal _ | .undefined | .nonreal | .matrix _ _ _ => False
  | _ => True

theorem IsExactNode.isPlain (h : IsExactNode t) : IsPlain t := by
  cases t <;> trivial

theorem hasMatrix_children (h : t.Everywhere IsExactNode) : hasMatrix t.children = false :=
  hasMatrix_eq_false fun _ hu => (h.of_mem_children hu).self.isPlain

/-- The terms have different bodies, and none of them has the coefficient zero. -/
structure AreCollected (terms : List Term) : Prop where
  nodup : (terms.map fun t => (splitTerm t).value.2).Nodup
  nonzero : ∀ t ∈ terms, (splitTerm t).value.1.isZero = false

/-- If the term is an exact sum, no two of its terms are like terms. -/
def HasUnlikeTerms (t : Term) : Prop :=
  ∀ terms, t = .sum terms → t.Everywhere IsExactNode → AreCollected terms

theorem hasUnlikeTerms_of_isSum (h : t.isSum = false) : HasUnlikeTerms t := by
  rintro terms rfl
  cases h

theorem everywhere_hasUnlikeTerms_of_isAtom (h : t.isAtom = true) : t.Everywhere HasUnlikeTerms := by
  refine .of_isAtom h (hasUnlikeTerms_of_isSum ?_)
  cases t <;> first | rfl | cases h

theorem everywhere_hasUnlikeTerms_productOf (h : ∀ t ∈ factors, t.Everywhere HasUnlikeTerms) :
    (Term.productOf factors).Everywhere HasUnlikeTerms :=
  .productOf h (hasUnlikeTerms_of_isSum rfl) fun _ => hasUnlikeTerms_of_isSum rfl

theorem everywhere_of_productOf {P : Term → Prop} (h : (Term.productOf factors).Everywhere P) :
    ∀ t ∈ factors, t.Everywhere P := by
  match factors, h with
  | [], _ => exact List.forall_mem_nil _
  | [t], h => exact List.forall_mem_singleton.2 h
  | t :: u :: ts, h => exact fun v hv => h.of_mem_children hv

/-- The coefficient of an exact term is exact. -/
theorem isExact_of_toTerm (h : c.toTerm.Everywhere IsExactNode) : ∃ a, c = .exact a := by
  cases c with
  | exact a => exact ⟨a, rfl⟩
  | approximate x =>
    have hnode : IsExactNode (Term.ofDouble x) := h.self
    unfold Term.ofDouble at hnode
    split_ifs at hnode
    all_goals cases hnode

theorem IsBody.exists_bodyOf (h : IsBody t) (hexact : t.Everywhere IsExactNode) :
    ∃ rest, AreFlat rest ∧ Term.bodyOf rest = some t := by
  by_cases hproduct : ∃ factors, t = .product factors
  · obtain ⟨factors, rfl⟩ := hproduct
    refine ⟨factors, h.flat factors rfl (hasMatrix_children hexact), ?_⟩
    match factors, h.shaped.self.1 with
    | _ :: _ :: _, _ => rfl
  · refine ⟨[t], ⟨List.forall_mem_singleton.2 h.not_numeric, List.forall_mem_singleton.2 ?_⟩, rfl⟩
    exact fun factors heq => hproduct ⟨factors, heq⟩

/-- An exact term that has been joined is split into its coefficient and its body again. -/
theorem splitTerm_joinTerm {body : Option Term} (hbody : ∀ t ∈ body, IsBody t)
    (hexact : (joinTerm c body).value.Everywhere IsExactNode) :
    (splitTerm (joinTerm c body).value).value = (c, body) := by
  have hparts : ((∃ a, c = .exact a) ∨ c.isOne = true) ∧
      ∀ t ∈ body, t.Everywhere IsExactNode := by
    revert hexact
    refine joinTerm_cases (P := fun u => u.Everywhere IsExactNode → _) ?_ ?_ ?_ ?_
    · rintro rfl hexact
      exact ⟨.inl (isExact_of_toTerm hexact), nofun⟩
    · rintro t rfl hone hexact
      exact ⟨.inr hone, by simpa using hexact⟩
    · rintro factors rfl - hexact
      obtain ⟨hfirst, hrest⟩ := List.forall_mem_cons.1 (everywhere_of_productOf hexact)
      have hproduct : (Term.product factors).Everywhere IsExactNode := .of_parts trivial hrest
      exact ⟨.inl (isExact_of_toTerm hfirst), by simpa using hproduct⟩
    · rintro t rfl - - hexact
      obtain ⟨hfirst, hrest⟩ := List.forall_mem_cons.1 (everywhere_of_productOf hexact)
      exact ⟨.inl (isExact_of_toTerm hfirst), by simpa using hrest⟩
  obtain ⟨a, rfl⟩ : ∃ a, c = .exact a := by
    rcases hparts.1 with hc | hone
    · exact hc
    · exact ⟨1, Coefficient.eq_one_of_isOne hone⟩
  obtain ⟨rest, hflat, rfl⟩ : ∃ rest, AreFlat rest ∧ Term.bodyOf rest = body := by
    cases body with
    | none => exact ⟨[], areFlat_nil, rfl⟩
    | some t => exact (hbody t rfl).exists_bodyOf (hparts.2 t rfl)
  rw [hflat.joinTerm_bodyOf, hflat.splitTerm_scaledBy rfl]

/-- The terms that have been joined from what is collected have different bodies. -/
theorem areCollected_of_perm {ts : List Term}
    (hperm : ts.Perm ((collectedParts terms).map fun part => (joinTerm part.2 part.1).value))
    (hparts : ∀ part ∈ collectedParts terms, (∀ t ∈ part.1, IsBody t) ∧ part.2.isZero = false)
    (hexact : ∀ t ∈ ts, t.Everywhere IsExactNode) : AreCollected ts := by
  have hsplit : ∀ part ∈ collectedParts terms,
      (splitTerm (joinTerm part.2 part.1).value).value = (part.2, part.1) := fun part hpart =>
    splitTerm_joinTerm (hparts part hpart).1
      (hexact _ (hperm.mem_iff.2 (List.mem_map_of_mem hpart)))
  constructor
  case nodup =>
    have hbodies : (((collectedParts terms).map fun part => (joinTerm part.2 part.1).value).map
        fun t => (splitTerm t).value.2) = (collectedParts terms).map Prod.fst := by
      rw [List.map_map]
      exact List.map_congr_left fun part hpart => congrArg Prod.snd (hsplit part hpart)
    exact (hperm.map _).nodup_iff.2 (hbodies ▸ nodup_collectedParts terms)
  case nonzero =>
    intro t ht
    obtain ⟨part, hpart, rfl⟩ := List.mem_map.1 (hperm.mem_iff.1 ht)
    rw [hsplit part hpart]
    exact (hparts part hpart).2

theorem everywhere_hasUnlikeTerms_joinTerm {body : Option Term}
    (h : ∀ t ∈ body, t.Everywhere HasUnlikeTerms) :
    (joinTerm c body).value.Everywhere HasUnlikeTerms := by
  have hfirst := everywhere_hasUnlikeTerms_of_isAtom (isAtom_toTerm c)
  refine joinTerm_cases (fun _ => hfirst) (fun t ht _ => h t ht) ?_ ?_
  · intro factors hfactors _
    exact everywhere_hasUnlikeTerms_productOf
      (List.forall_mem_cons.2 ⟨hfirst, fun t ht => (h _ hfactors).of_mem_children ht⟩)
  · intro t ht _ _
    exact everywhere_hasUnlikeTerms_productOf (IsInherited.pair hfirst (h t ht))

theorem everywhere_hasUnlikeTerms_splitTerm (h : t.Everywhere HasUnlikeTerms) :
    ∀ body ∈ (splitTerm t).value.2, body.Everywhere HasUnlikeTerms := by
  refine splitTerm_cases (P := fun body _ => ∀ u ∈ body, u.Everywhere HasUnlikeTerms)
    (fun _ _ => by simp) ?_ (fun _ _ => by simpa using h)
  rintro first rest c rfl -
  have hrest : ∀ u ∈ rest, u.Everywhere HasUnlikeTerms :=
    fun u hu => h.of_mem_children (List.mem_cons_of_mem _ hu)
  simpa using everywhere_hasUnlikeTerms_productOf hrest

theorem everywhere_hasUnlikeTerms_add (h : ∀ t ∈ terms, t.Everywhere IsShaped)
    (hunlike : ∀ t ∈ terms, t.Everywhere HasUnlikeTerms) :
    (add terms).value.Everywhere HasUnlikeTerms := by
  have hshaped : ∀ u ∈ terms.flatMap summands, u.Everywhere IsShaped :=
    forall_mem_flatMap_summands (fun _ ht _ hu => ht.of_mem_children hu) h
  have hflat : ∀ u ∈ terms.flatMap summands, u.Everywhere HasUnlikeTerms :=
    forall_mem_flatMap_summands (fun _ ht _ hu => ht.of_mem_children hu) hunlike
  have hzero : HasUnlikeTerms .zero := hasUnlikeTerms_of_isSum rfl
  refine add_cases (fun poison hpoison => ?_) (fun hmatrix => ?_) fun _ ts hts => ?_
  · rcases eq_of_poison?_eq_some hpoison with rfl | rfl
    all_goals exact everywhere_hasUnlikeTerms_of_isAtom rfl
  · refine .sumOf hflat hzero ?_
    -- a matrix among the terms is not exact
    rintro _ ⟨⟩ hexact
    exact absurd (hasMatrix_children hexact) (by simp [Term.children, hmatrix])
  · have hbody : IsAdditive fun body _ => ∀ t ∈ body, IsBody t ∧ t.Everywhere HasUnlikeTerms :=
      fun _ _ _ hbody _ => hbody
    have hparts := hbody.collectedParts fun u hu t ht =>
      ⟨isBody_splitTerm (hshaped u hu) t ht,
        everywhere_hasUnlikeTerms_splitTerm (hflat u hu) t ht⟩
    refine .sumOf (fun t ht => ?_) hzero ?_
    · obtain ⟨part, hpart, rfl⟩ := List.mem_map.1 (hts.mem_iff.1 ht)
      exact everywhere_hasUnlikeTerms_joinTerm fun t ht => ((hparts part hpart).1 t ht).2
    · rintro _ ⟨⟩ hexact
      exact areCollected_of_perm hts
        (fun part hpart => ⟨fun t ht => ((hparts part hpart).1 t ht).1, (hparts part hpart).2⟩)
        fun t ht => hexact.of_mem_children ht

theorem isInherited_hasUnlikeTerms (s : Settings) :
    IsInherited s (fun t => t.Everywhere IsShaped ∧ t.Everywhere HasUnlikeTerms) fun _ => True where
  part h hu := ⟨h.1.of_mem_children hu, h.2.of_mem_children hu⟩
  number _ := ⟨everywhere_isShaped_of_isAtom rfl, everywhere_hasUnlikeTerms_of_isAtom rfl⟩
  constant _ := ⟨everywhere_isShaped_of_isAtom rfl, everywhere_hasUnlikeTerms_of_isAtom rfl⟩
  undefined := ⟨everywhere_isShaped_of_isAtom rfl, everywhere_hasUnlikeTerms_of_isAtom rfl⟩
  nonreal := ⟨everywhere_isShaped_of_isAtom rfl, everywhere_hasUnlikeTerms_of_isAtom rfl⟩
  double _ x := ⟨everywhere_isShaped_of_isAtom (isAtom_ofDouble x),
    everywhere_hasUnlikeTerms_of_isAtom (isAtom_ofDouble x)⟩
  read _ _ := trivial
  times _ _ := trivial
  written {c} _ := ⟨everywhere_isShaped_of_isAtom (isAtom_toTerm c),
    everywhere_hasUnlikeTerms_of_isAtom (isAtom_toTerm c)⟩
  rest h := ⟨(isBody_productOf h.1 rfl).shaped, everywhere_hasUnlikeTerms_productOf
    fun _ ht => h.2.of_mem_children (List.mem_cons_of_mem _ ht)⟩
  add h := ⟨everywhere_add fun t ht => (h t ht).1,
    everywhere_hasUnlikeTerms_add (fun t ht => (h t ht).1) fun t ht => (h t ht).2⟩
  sortedProduct {c factors} _ hzero hflat _ h := by
    have hsorted : ∀ t ∈ sortBy Term.compare factors, t.Everywhere HasUnlikeTerms :=
      fun t ht => (h t ((sortBy_perm Term.compare factors).mem_iff.1 ht)).2
    have hfirst := everywhere_hasUnlikeTerms_of_isAtom (isAtom_toTerm c)
    refine ⟨everywhere_sortedProduct hzero hflat fun t ht => (h t ht).1, ?_⟩
    exact sortedProduct_cases (fun _ => hfirst)
      (fun _ _ => everywhere_hasUnlikeTerms_productOf hsorted)
      fun _ _ => everywhere_hasUnlikeTerms_productOf (List.forall_mem_cons.2 ⟨hfirst, hsorted⟩)
  matrixProduct {c factors} _ _ hmatrix h := by
    have hfactors : ∀ t ∈ factors, t.Everywhere HasUnlikeTerms := fun t ht => (h t ht).2
    have hfirst := everywhere_hasUnlikeTerms_of_isAtom (isAtom_toTerm c)
    refine ⟨everywhere_matrixProduct hmatrix fun t ht => (h t ht).1, ?_⟩
    exact matrixProduct_cases (everywhere_hasUnlikeTerms_productOf hfactors)
      (everywhere_hasUnlikeTerms_productOf (List.forall_mem_cons.2 ⟨hfirst, hfactors⟩))
  power hbase hexponent hkept := ⟨(isInherited_isShaped s).power hbase.1 hexponent.1 hkept,
    .of_parts (hasUnlikeTerms_of_isSum rfl) (IsInherited.pair hbase.2 hexponent.2)⟩

theorem isHandedOn_hasUnlikeTerms (s : Settings) :
    IsHandedOn s fun t => t.Everywhere IsShaped ∧ t.Everywhere HasUnlikeTerms where
  number := (isInherited_hasUnlikeTerms s).number
  undefined := (isInherited_hasUnlikeTerms s).undefined
  add _ := (isInherited_hasUnlikeTerms s).add
  mul _ := (isInherited_hasUnlikeTerms s).mul
  pow _ _ := (isInherited_hasUnlikeTerms s).pow
  apply _ _ ha := (isInherited_hasUnlikeTerms s).apply ha fun _ =>
    ⟨.of_parts trivial (List.forall_mem_singleton.2 ha.1),
      .of_parts (hasUnlikeTerms_of_isSum rfl) (List.forall_mem_singleton.2 ha.2)⟩
  matrix rows columns ts h := ⟨(isHandedOn_isShaped s).matrix rows columns ts fun t ht => (h t ht).1,
    .of_parts (hasUnlikeTerms_of_isSum rfl) fun t ht => (h t ht).2⟩

/-- In a reduced term like terms have been collected. -/
theorem everywhere_hasUnlikeTerms_reduce (s : Settings) (definitions : Definitions) (t : Term) :
    (reduce s definitions t).value.Everywhere HasUnlikeTerms := by
  have hatom {u : Term} (h : u.isAtom = true) :
      u.Everywhere IsShaped ∧ u.Everywhere HasUnlikeTerms :=
    ⟨everywhere_isShaped_of_isAtom h, everywhere_hasUnlikeTerms_of_isAtom h⟩
  exact ((isHandedOn_hasUnlikeTerms s).reduce (fun _ _ => hatom rfl)
    (fun _ _ _ _ h _ => hatom h) fun _ _ h _ => hatom h).2

/-- The coefficient of an exact term other than zero is not zero. -/
theorem isZero_splitTerm (hshaped : t.Everywhere IsShaped) (hexact : t.Everywhere IsExactNode)
    (hne : t.isZero = false) : (splitTerm t).value.1.isZero = false := by
  have hread {u : Term} {c : Coefficient} (hnode : IsExactNode u) (hu : u.isZero = false)
      (hc : Coefficient.of? u = some c) : c.isZero = false := by
    cases u with
    | number a => exact Option.some.inj hc ▸ hu
    | decimal bits => exact hnode.elim
    | _ => cases hc
  refine splitTerm_cases (P := fun _ c => c.isZero = false) ?_ ?_ ?_
  · exact fun c hc => hread hexact.self hne hc
  · rintro first rest c rfl hc
    have hmultiplied := hshaped.self.2 (hasMatrix_children hexact)
    exact hread (hexact.of_mem_children List.mem_cons_self).self
      (hmultiplied.nontrivial first rfl).1 hc
  · exact fun _ _ => rfl

/-- In a reduced exact term other than zero, like terms have been collected. -/
theorem areCollected_summands (hshaped : t.Everywhere IsShaped)
    (hunlike : t.Everywhere HasUnlikeTerms) (hexact : t.Everywhere IsExactNode)
    (hne : t.isZero = false) : AreCollected (summands t) := by
  have hsingle : AreCollected [t] := ⟨List.nodup_singleton _,
    List.forall_mem_singleton.2 (isZero_splitTerm hshaped hexact hne)⟩
  cases t with
  | sum terms => exact hunlike.self terms rfl hexact
  | _ => exact hsingle

end Reduction

end EquationSolver
