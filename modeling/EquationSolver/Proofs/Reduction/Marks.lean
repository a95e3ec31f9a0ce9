import EquationSolver.Proofs.Reduction.Decimals
import EquationSolver.Proofs.Reduction.Results

/-!
# What marks absorb

An undefined operand makes a result undefined, and otherwise a nonreal one makes it nonreal.  So a
reduced term without matrices that is not nonreal has nothing nonreal within it, and one that is not
undefined has nothing undefined within it either, as long as all numbers are exact.  The coefficient
of approximate numbers can grow too large for a double, though.  It is written as undefined then, in
front of its factors or among the terms of a sum, where no operand is left that would be absorbed.
-/

namespace EquationSolver

namespace Reduction

open Term

variable {s : Settings} {approximate : Prop} {c : Coefficient} {t : Term}
  {factors terms : List Term}

/-- Numbers, of which approximate ones may have grown too large, in front of factors that are not
    marks. -/
def AreUnmarkedBehindNumbers (approximate : Prop) (factors : List Term) : Prop :=
  ∃ coefficients rest, factors = coefficients ++ rest ∧ rest ≠ [] ∧ poison? rest = none ∧
    ∀ t ∈ coefficients, t.isNumeric = true ∨ t = .undefined ∧ approximate

/-- The marks that a reduced term without a matrix among its parts may have for parts: none but
    approximate numbers that have grown too large, in a sum or in front of the factors of a
    product. -/
def AbsorbsMarks (approximate : Prop) : Term → Prop
  | .sum terms => hasMatrix terms = false → .nonreal ∉ terms ∧ (.undefined ∈ terms → approximate)
  | .product factors => hasMatrix factors = false → AreUnmarkedBehindNumbers approximate factors
  | .matrix _ _ _ => True
  | t => poison? t.children = none

/-- There are no marks within the term but those that it may have, and approximate numbers only if
    there can be any. -/
structure IsAbsorbed (approximate : Prop) (t : Term) : Prop where
  exact : approximate ∨ t.IsDecimalFree
  marks : t.Everywhere (AbsorbsMarks approximate)

/-! ### Atoms and coefficients -/

theorem absorbsMarks_of_isAtom (h : t.isAtom = true) : AbsorbsMarks approximate t := by
  cases t with
  | number | decimal | constant | symbol | undefined | nonreal => rfl
  | _ => cases h

theorem isAbsorbed_of_isAtom (h : t.isAtom = true) (hexact : approximate ∨ t.IsDecimalFree) :
    IsAbsorbed approximate t :=
  ⟨hexact, .of_isAtom h (absorbsMarks_of_isAtom h)⟩

theorem IsAbsorbed.of_mem_children (h : IsAbsorbed approximate t) {u : Term}
    (hu : u ∈ t.children) : IsAbsorbed approximate u :=
  ⟨h.exact.imp_right (isDecimalFree_of_mem_children · hu), h.marks.of_mem_children hu⟩

theorem exact_of_forall (h : ∀ t ∈ terms, IsAbsorbed approximate t) :
    approximate ∨ ∀ t ∈ terms, t.IsDecimalFree := by
  by_cases happroximate : approximate
  · exact .inl happroximate
  · exact .inr fun t ht => (h t ht).exact.resolve_left happroximate

theorem isAbsorbed_of_children (hatom : t.isAtom = false) (ht : AbsorbsMarks approximate t)
    (h : ∀ u ∈ t.children, IsAbsorbed approximate u) : IsAbsorbed approximate t where
  exact := by
    refine (exact_of_forall h).imp_right fun hfree => ?_
    rw [IsDecimalFree, containsDecimal, contains_eq, Bool.or_eq_false_iff, containsAny_eq_false_iff]
    refine ⟨?_, hfree⟩
    cases t with
    | decimal bits => cases hatom
    | _ => rfl
  marks := .of_parts ht fun u hu => (h u hu).marks

/-- A coefficient is written as a number, unless it has grown too large. -/
theorem isNumeric_toTerm_or (hc : approximate ∨ c.IsExact) :
    c.toTerm.isNumeric = true ∨ c.toTerm = .undefined ∧ approximate := by
  cases c with
  | exact a => exact .inl rfl
  | approximate x =>
    have happroximate : approximate := hc.resolve_right fun ⟨a, ha⟩ => Coefficient.noConfusion ha
    have hterm : (Coefficient.approximate x).toTerm = Term.ofDouble x := rfl
    rw [hterm, Term.ofDouble]
    split_ifs
    · exact .inl rfl
    · exact .inl rfl
    · exact .inr ⟨rfl, happroximate⟩

theorem isAbsorbed_toTerm (hc : approximate ∨ c.IsExact) : IsAbsorbed approximate c.toTerm :=
  isAbsorbed_of_isAtom (isAtom_toTerm c) (hc.imp_right Coefficient.IsExact.isDecimalFree)

/-- A coefficient is not nonreal, and it is undefined only if it has grown too large. -/
theorem toTerm_ne_mark (hc : approximate ∨ c.IsExact) :
    c.toTerm ≠ .nonreal ∧ (c.toTerm = .undefined → approximate) := by
  rcases isNumeric_toTerm_or hc with hnumeric | ⟨hundefined, happroximate⟩
  · refine ⟨fun hterm => ?_, fun hterm => ?_⟩ <;> simp [hterm, isNumeric] at hnumeric
  · exact ⟨by simp [hundefined], fun _ => happroximate⟩

/-! ### Factors behind numbers -/

theorem areUnmarkedBehindNumbers_of_poison? (h : poison? factors = none) (hne : factors ≠ []) :
    AreUnmarkedBehindNumbers approximate factors :=
  ⟨[], factors, rfl, hne, h, List.forall_mem_nil _⟩

theorem AreUnmarkedBehindNumbers.cons (h : AreUnmarkedBehindNumbers approximate factors)
    (hc : approximate ∨ c.IsExact) :
    AreUnmarkedBehindNumbers approximate (c.toTerm :: factors) := by
  obtain ⟨coefficients, rest, rfl, hne, hrest, hcoefficients⟩ := h
  exact ⟨c.toTerm :: coefficients, rest, rfl, hne, hrest,
    List.forall_mem_cons.2 ⟨isNumeric_toTerm_or hc, hcoefficients⟩⟩

theorem AreUnmarkedBehindNumbers.tail {first : Term}
    (h : AreUnmarkedBehindNumbers approximate (first :: factors)) (hne : factors ≠ []) :
    AreUnmarkedBehindNumbers approximate factors := by
  obtain ⟨coefficients, rest, heq, hrest, hpoison, hcoefficients⟩ := h
  cases coefficients with
  | nil =>
    obtain rfl : first :: factors = rest := heq
    exact areUnmarkedBehindNumbers_of_poison?
      (poison?_eq_none_of_subset (List.subset_cons_self _ _) hpoison) hne
  | cons _ coefficients =>
    cases heq
    exact ⟨coefficients, rest, rfl, hrest, hpoison, (List.forall_mem_cons.1 hcoefficients).2⟩

theorem AreUnmarkedBehindNumbers.poison?_singleton
    (h : AreUnmarkedBehindNumbers approximate [t]) : poison? [t] = none := by
  obtain ⟨coefficients, rest, heq, hne, hpoison, -⟩ := h
  rcases List.append_eq_singleton_iff.1 heq.symm with ⟨-, rfl⟩ | ⟨-, hnil⟩
  · exact hpoison
  · exact absurd hnil hne

theorem isAbsorbed_productOf (h : ∀ t ∈ factors, IsAbsorbed approximate t)
    (hfactors : factors ≠ [] → hasMatrix factors = false →
      AreUnmarkedBehindNumbers approximate factors) :
    IsAbsorbed approximate (productOf factors) where
  exact := (exact_of_forall h).imp_right isDecimalFree_productOf
  marks := .productOf (fun t ht => (h t ht).marks) rfl
    fun hlength => hfactors (List.ne_nil_of_length_pos (by omega))

/-- A number times factors that are not marks. -/
theorem isAbsorbed_productOf_cons (hc : approximate ∨ c.IsExact)
    (h : ∀ t ∈ factors, IsAbsorbed approximate t)
    (hfactors : hasMatrix factors = false → AreUnmarkedBehindNumbers approximate factors) :
    IsAbsorbed approximate (productOf (c.toTerm :: factors)) := by
  refine isAbsorbed_productOf (List.forall_mem_cons.2 ⟨isAbsorbed_toTerm hc, h⟩) fun _ hmatrix => ?_
  rw [hasMatrix_toTerm_cons] at hmatrix
  exact (hfactors hmatrix).cons hc

theorem isAbsorbed_sortedProduct (hc : approximate ∨ c.IsExact) (hpoison : poison? factors = none)
    (h : ∀ t ∈ factors, IsAbsorbed approximate t) :
    IsAbsorbed approximate (sortedProduct c factors).value := by
  have hsubset : sortBy Term.compare factors ⊆ factors := (sortBy_perm _ _).subset
  have hsorted : ∀ t ∈ sortBy Term.compare factors, IsAbsorbed approximate t :=
    fun t ht => h t (hsubset ht)
  have hunmarked (hne : sortBy Term.compare factors ≠ []) :
      AreUnmarkedBehindNumbers approximate (sortBy Term.compare factors) :=
    areUnmarkedBehindNumbers_of_poison? (poison?_eq_none_of_subset hsubset hpoison) hne
  refine sortedProduct_cases (fun _ => isAbsorbed_toTerm hc) (fun hne _ => ?_) fun hne _ => ?_
  · exact isAbsorbed_productOf hsorted fun _ _ => hunmarked hne
  · exact isAbsorbed_productOf_cons hc hsorted fun _ => hunmarked hne

theorem isAbsorbed_matrixProduct (hc : approximate ∨ c.IsExact) (hmatrix : hasMatrix factors = true)
    (h : ∀ t ∈ factors, IsAbsorbed approximate t) :
    IsAbsorbed approximate (matrixProduct c factors).value := by
  have hnone (hnone : hasMatrix factors = false) : AreUnmarkedBehindNumbers approximate factors :=
    absurd hmatrix (by simp [hnone])
  exact matrixProduct_cases (isAbsorbed_productOf h fun _ => hnone)
    (isAbsorbed_productOf_cons hc h hnone)

/-! ### Terms of sums -/

/-- A coefficient and a body that are split off a term of a sum that is not a mark. -/
structure IsUnmarkedPart (approximate : Prop) (body : Option Term) (c : Coefficient) : Prop where
  exact : approximate ∨ c.IsExact
  absorbed : ∀ t ∈ body, IsAbsorbed approximate t
  unmarked : ∀ t ∈ body, poison? [t] = none

theorem isAdditive_isUnmarkedPart : IsAdditive (IsUnmarkedPart approximate) := by
  intro body c d hc hd
  have hexact := or_and_left.2 ⟨hc.exact, hd.exact⟩
  exact ⟨hexact.imp_right fun h => (h.1.add (K := ℚ) h.2).1, hc.absorbed, hc.unmarked⟩

/-- The factors behind the number of a product. -/
theorem isAbsorbed_productOf_tail {first : Term} {rest : List Term}
    (h : IsAbsorbed approximate (.product (first :: rest))) (hfirst : first.isNumeric = true) :
    IsAbsorbed approximate (productOf rest) ∧ poison? [productOf rest] = none := by
  have hrest (hne : rest ≠ []) (hmatrix : hasMatrix rest = false) :
      AreUnmarkedBehindNumbers approximate rest := by
    refine AreUnmarkedBehindNumbers.tail (h.marks.self ?_) hne
    cases first <;> first | exact hmatrix | cases hfirst
  have habsorbed : ∀ t ∈ rest, IsAbsorbed approximate t :=
    fun t ht => h.of_mem_children (List.mem_cons_of_mem _ ht)
  refine ⟨isAbsorbed_productOf habsorbed hrest, ?_⟩
  match rest, hrest with
  | [], _ => rfl
  | [t], hrest =>
    cases hmatrix : hasMatrix [t] with
    | false => exact (hrest (List.cons_ne_nil t []) hmatrix).poison?_singleton
    | true =>
      cases t with
      | matrix => rfl
      | _ => cases hmatrix
  | _ :: _ :: _, _ => rfl

theorem isUnmarkedPart_splitTerm (h : IsAbsorbed approximate t) (ht : poison? [t] = none) :
    IsUnmarkedPart approximate (splitTerm t).value.2 (splitTerm t).value.1 := by
  refine splitTerm_cases (P := IsUnmarkedPart approximate) ?_ ?_ ?_
  · exact fun c hc => ⟨h.exact.imp_right (Coefficient.isExact_of · hc), by simp, by simp⟩
  · rintro first rest c rfl hc
    obtain ⟨habsorbed, hunmarked⟩ := isAbsorbed_productOf_tail h (isNumeric_of_of? hc)
    refine ⟨?_, by simpa using habsorbed, by simpa using hunmarked⟩
    exact (h.of_mem_children List.mem_cons_self).exact.imp_right (Coefficient.isExact_of · hc)
  · exact fun _ _ => ⟨.inr Coefficient.isExact_one, by simpa using h, by simpa using ht⟩

/-- A coefficient and a body are joined to a term that is not a mark, unless there is no body and
    the coefficient has grown too large. -/
theorem isAbsorbed_joinTerm {body : Option Term} (h : IsUnmarkedPart approximate body c) :
    IsAbsorbed approximate (joinTerm c body).value ∧ (joinTerm c body).value ≠ .nonreal ∧
      ((joinTerm c body).value = .undefined → approximate) := by
  have hnumber := And.intro (isAbsorbed_toTerm h.exact) (toTerm_ne_mark h.exact)
  refine joinTerm_cases (P := fun t => IsAbsorbed approximate t ∧ t ≠ .nonreal ∧
    (t = .undefined → approximate)) (fun _ => hnumber) ?_ ?_ ?_
  · intro t ht _
    obtain ⟨hundefined, hnonreal⟩ := poison?_eq_none_iff.1 (h.unmarked t ht)
    refine ⟨h.absorbed t ht, ?_, ?_⟩
    · rintro rfl
      exact hnonreal List.mem_cons_self
    · rintro rfl
      exact absurd List.mem_cons_self hundefined
  · intro factors hfactors _
    have hbody := h.absorbed _ hfactors
    refine ⟨isAbsorbed_productOf_cons h.exact (fun _ => hbody.of_mem_children) hbody.marks.self, ?_⟩
    cases factors with
    | nil => exact toTerm_ne_mark h.exact
    | cons => exact ⟨Term.noConfusion, Term.noConfusion⟩
  · intro t ht _ _
    refine ⟨isAbsorbed_productOf_cons h.exact (List.forall_mem_singleton.2 (h.absorbed t ht))
      fun _ => ?_, Term.noConfusion, Term.noConfusion⟩
    exact areUnmarkedBehindNumbers_of_poison? (h.unmarked t ht) (List.cons_ne_nil _ _)

theorem isAbsorbed_sumOf (h : ∀ t ∈ terms, IsAbsorbed approximate t)
    (hterms : hasMatrix terms = false →
      .nonreal ∉ terms ∧ (.undefined ∈ terms → approximate)) :
    IsAbsorbed approximate (sumOf terms) where
  exact := (exact_of_forall h).imp_right isDecimalFree_sumOf
  marks := .sumOf (fun t ht => (h t ht).marks) rfl hterms

theorem isAbsorbed_add (h : ∀ t ∈ terms, IsAbsorbed approximate t) :
    IsAbsorbed approximate (add terms).value := by
  have hflat : ∀ u ∈ terms.flatMap summands, IsAbsorbed approximate u :=
    forall_mem_flatMap_summands (fun _ ht _ hu => ht.of_mem_children hu) h
  refine add_cases (fun poison hpoison => ?_) (fun hmatrix => ?_) fun hplain ts hts => ?_
  · rcases eq_of_poison?_eq_some hpoison with rfl | rfl
    all_goals exact isAbsorbed_of_isAtom rfl (.inr rfl)
  · exact isAbsorbed_sumOf hflat fun hnone => absurd hmatrix (by simp [hnone])
  · have hjoined : ∀ t ∈ ts, IsAbsorbed approximate t ∧ t ≠ .nonreal ∧
        (t = .undefined → approximate) := by
      intro t ht
      obtain ⟨part, hpart, rfl⟩ := List.mem_map.1 (hts.mem_iff.1 ht)
      have hparts := isAdditive_isUnmarkedPart.collectedParts fun u hu =>
        isUnmarkedPart_splitTerm (hflat u hu)
          (poison?_eq_none (List.forall_mem_singleton.2 (hplain u hu)))
      exact isAbsorbed_joinTerm (hparts part hpart).1
    refine isAbsorbed_sumOf (fun t ht => (hjoined t ht).1) fun _ => ⟨fun hmem => ?_, fun hmem => ?_⟩
    · exact (hjoined _ hmem).2.1 rfl
    · exact (hjoined _ hmem).2.2 rfl

/-! ### Reduced terms -/

theorem isInherited_isAbsorbed (s : Settings) (approximate : Prop) :
    IsInherited s (IsAbsorbed approximate) fun c => approximate ∨ c.IsExact where
  part h hu := h.of_mem_children hu
  number _ := isAbsorbed_of_isAtom rfl (.inr rfl)
  constant _ := isAbsorbed_of_isAtom rfl (.inr rfl)
  undefined := isAbsorbed_of_isAtom rfl (.inr rfl)
  nonreal := isAbsorbed_of_isAtom rfl (.inr rfl)
  double h x := isAbsorbed_of_isAtom (isAtom_ofDouble x)
    (.inl (h.exact.resolve_right (not_isDecimalFree_decimal _)))
  read h hc := h.exact.imp_right (Coefficient.isExact_of · hc)
  times hc hd := (or_and_left.2 ⟨hc, hd⟩).imp_right fun h => (h.1.mul (K := ℚ) h.2).1
  written := isAbsorbed_toTerm
  rest h := (isAbsorbed_productOf_tail h rfl).1
  add := isAbsorbed_add
  sortedProduct hc _ _ hpoison h := isAbsorbed_sortedProduct hc hpoison h
  matrixProduct hc _ hmatrix h := isAbsorbed_matrixProduct hc hmatrix h
  power hbase hexponent hkept := isAbsorbed_of_children rfl hkept.unmarked
    (IsInherited.pair hbase hexponent)

theorem isHandedOn_isAbsorbed (s : Settings) (approximate : Prop) :
    IsHandedOn s (IsAbsorbed approximate) where
  number _ := isAbsorbed_of_isAtom rfl (.inr rfl)
  undefined := isAbsorbed_of_isAtom rfl (.inr rfl)
  add _ := isAbsorbed_add
  mul _ := (isInherited_isAbsorbed s approximate).mul
  pow _ _ := (isInherited_isAbsorbed s approximate).pow
  apply _ _ ha := (isInherited_isAbsorbed s approximate).apply ha fun hunmarked =>
    isAbsorbed_of_children rfl hunmarked (List.forall_mem_singleton.2 ha)
  matrix _ _ _ h := isAbsorbed_of_children rfl trivial h

/-- The atoms of a term are exact, unless there are approximate numbers in it. -/
theorem atomsHave_isAbsorbed (h : approximate ∨ t.IsDecimalFree) :
    t.AtomsHave (IsAbsorbed approximate) := by
  intro u hu hatom _
  exact isAbsorbed_of_isAtom hatom (h.imp_right fun hfree => hfree.of_isWithin hu)

theorem isAbsorbed_reduce (s : Settings) (definitions : Definitions) (t : Term) :
    IsAbsorbed (t.containsDecimal = true ∨ ∃ d ∈ definitions, d.2.containsDecimal = true)
      (reduce s definitions t).value := by
  have hsymbol (name : String) : IsAbsorbed
      (t.containsDecimal = true ∨ ∃ d ∈ definitions, d.2.containsDecimal = true) (.symbol name) :=
    isAbsorbed_of_isAtom rfl (.inr rfl)
  refine (isHandedOn_isAbsorbed s _).reduce (fun name _ => hsymbol name) (fun d hd => ?_) ?_
  · apply atomsHave_isAbsorbed
    by_cases hdecimal : d.2.containsDecimal = true
    · exact .inl (.inr ⟨d, hd, hdecimal⟩)
    · exact .inr (Bool.eq_false_of_not_eq_true hdecimal)
  · apply atomsHave_isAbsorbed
    by_cases hdecimal : t.containsDecimal = true
    · exact .inl (.inl hdecimal)
    · exact .inr (Bool.eq_false_of_not_eq_true hdecimal)

/-! ### Marks within reduced terms -/

/-- In a term without matrices, no part is a matrix and none has a matrix among its parts. -/
theorem hasMatrix_children_of_isWithin {u : Term} (h : t.containsMatrix = false)
    (hu : u.IsWithin t) :
    (∀ rows columns entries, u ≠ .matrix rows columns entries) ∧ hasMatrix u.children = false := by
  have hwithin := contains_eq_false_iff.1 h
  refine ⟨?_, List.any_eq_false.2 fun v hv => ?_⟩
  · rintro rows columns entries rfl
    exact Bool.noConfusion (hwithin _ hu)
  · exact fun htrue => Bool.noConfusion ((hwithin v (hu.head hv)).symm.trans htrue)

/-- No part of a term that absorbs marks is nonreal, and none is undefined but an approximate number
    that has grown too large. -/
theorem AbsorbsMarks.of_children (h : AbsorbsMarks approximate t)
    (ht : ∀ rows columns entries, t ≠ .matrix rows columns entries)
    (hmatrix : hasMatrix t.children = false) :
    .nonreal ∉ t.children ∧ (.undefined ∈ t.children → approximate) := by
  have hnone {operands : List Term} (hpoison : poison? operands = none) :
      .nonreal ∉ operands ∧ (.undefined ∈ operands → approximate) := by
    obtain ⟨hundefined, hnonreal⟩ := poison?_eq_none_iff.1 hpoison
    exact ⟨hnonreal, fun hmem => absurd hmem hundefined⟩
  cases t with
  | sum terms => exact h hmatrix
  | product factors =>
    obtain ⟨coefficients, rest, rfl, -, hrest, hcoefficients⟩ := h hmatrix
    have hrest := hnone hrest
    refine ⟨fun hmem => ?_, fun hmem => ?_⟩
    · rcases List.mem_append.1 hmem with hmem | hmem
      · rcases hcoefficients _ hmem with hnumeric | ⟨hundefined, -⟩
        · cases hnumeric
        · cases hundefined
      · exact hrest.1 hmem
    · rcases List.mem_append.1 hmem with hmem | hmem
      · rcases hcoefficients _ hmem with hnumeric | ⟨-, happroximate⟩
        · cases hnumeric
        · exact happroximate
      · exact hrest.2 hmem
  | matrix rows columns entries => exact absurd rfl (ht rows columns entries)
  | _ => exact hnone h

/-- A reduced term without matrices has something nonreal within it only if it is nonreal, and
    something undefined only if it is undefined or approximate numbers have grown too large.  Such a
    number stands in a sum or in front of the factors of a product, and is the only kind of mark
    that is not absorbed. -/
theorem reduce_absorbs_marks (s : Settings) (definitions : Definitions) (t : Term)
    (hmatrix : (reduce s definitions t).value.containsMatrix = false) :
    let approximate := t.containsDecimal = true ∨ ∃ d ∈ definitions, d.2.containsDecimal = true
    let result := (reduce s definitions t).value
    (Term.nonreal.IsWithin result → result = .nonreal) ∧
      (Term.undefined.IsWithin result → result = .undefined ∨ approximate) ∧
      result.Everywhere (AbsorbsMarks approximate) := by
  intro approximate result
  have hmarks : result.Everywhere (AbsorbsMarks approximate) :=
    (isAbsorbed_reduce s definitions t).marks
  have hchildren {u : Term} (hu : u.IsWithin result) :
      .nonreal ∉ u.children ∧ (.undefined ∈ u.children → approximate) := by
    obtain ⟨hne, hnone⟩ := hasMatrix_children_of_isWithin hmatrix hu
    exact (hmarks u hu).of_children hne hnone
  refine ⟨fun hnonreal => ?_, fun hundefined => ?_, hmarks⟩
  · rcases Relation.ReflTransGen.cases_head hnonreal with heq | ⟨u, hu, hwithin⟩
    · exact heq.symm
    · exact absurd hu (hchildren hwithin).1
  · rcases Relation.ReflTransGen.cases_head hundefined with heq | ⟨u, hu, hwithin⟩
    · exact .inl heq.symm
    · exact .inr ((hchildren hwithin).2 hu)

/-- The square of `1e200` is no double: the product with `x` keeps it as an undefined
    coefficient. -/
theorem reduce_absorbs_marks_overflow :
    let t : Term := .product [.decimal 0x6974e718d7d7625a, .decimal 0x6974e718d7d7625a, .symbol "x"]
    let result := (reduce {} [] t).value
    result = .product [.undefined, .symbol "x"] ∧
      result.Everywhere (AbsorbsMarks (t.containsDecimal = true ∨
        ∃ d ∈ ([] : Definitions), d.2.containsDecimal = true)) := by
  intro t result
  have hvalue : result = .product [.undefined, .symbol "x"] := by
    refine (reduce_nil {} t).trans ?_
    decide +kernel
  have hmatrix : result.containsMatrix = false := by
    rw [hvalue]
    decide
  exact ⟨hvalue, (reduce_absorbs_marks {} [] t hmatrix).2.2⟩

end Reduction

end EquationSolver
