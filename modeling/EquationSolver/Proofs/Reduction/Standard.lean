import EquationSolver.Proofs.Expanded.Factors
import EquationSolver.Reduction.Power

/-!
# Terms in standard form

A term in standard form is a number times factors that a product keeps as they are.  It is split
into the number and a body that are joined to the same term again, and a sum collects the numbers of
each body.  So terms with different bodies stay what they are in a sum.
-/

namespace EquationSolver

open Term

/-! ### Numbers times factors -/

namespace Term

/-- A number times factors, as they stand in a product in standard form. -/
def scaled (c : Rat) : List Term → Term
  | [] => .number c
  | t :: ts => if c = 1 then productOf (t :: ts) else .product (.number c :: t :: ts)

theorem scaled_cons (c : Rat) (t : Term) (ts : List Term) : scaled c (t :: ts) =
    if c = 1 then productOf (t :: ts) else .product (.number c :: t :: ts) := rfl

/-- A coefficient times factors. -/
def scaledBy (c : Coefficient) : List Term → Term
  | [] => c.toTerm
  | t :: ts => if c.isOne then productOf (t :: ts) else .product (c.toTerm :: t :: ts)

theorem scaledBy_cons (c : Coefficient) (t : Term) (ts : List Term) : scaledBy c (t :: ts) =
    if c.isOne then productOf (t :: ts) else .product (c.toTerm :: t :: ts) := rfl

theorem scaledBy_exact (c : Rat) (factors : List Term) :
    scaledBy (.exact c) factors = scaled c factors := by
  cases factors with
  | nil => rfl
  | cons t ts =>
    rw [scaledBy_cons, scaled_cons]
    simp only [Coefficient.isOne, decide_eq_true_eq, Coefficient.toTerm]

/-- What is left of a term in standard form without its number. -/
def bodyOf : List Term → Option Term
  | [] => none
  | t :: ts => some (productOf (t :: ts))

theorem bodyOf_cons (t : Term) (ts : List Term) :
    bodyOf (t :: ts) = some (productOf (t :: ts)) := rfl

end Term

/-- A coefficient that a term can have: it is not zero, and it is read off its term again. -/
structure Coefficient.IsProper (c : Coefficient) : Prop where
  isZero_eq : c.isZero = false
  of?_eq : Coefficient.of? c.toTerm = some c

theorem Coefficient.isProper_exact {a : Rat} (h : a ≠ 0) : (Coefficient.exact a).IsProper :=
  ⟨decide_eq_false h, rfl⟩

theorem Coefficient.eq_one_of_isOne {c : Coefficient} (h : c.isOne = true) : c = .one := by
  cases c with
  | exact a => exact congrArg Coefficient.exact (of_decide_eq_true h)
  | approximate x => cases h

namespace Reduction

variable {s : Settings} {factors : List Term} {a c : Rat}

/-- Factors without numbers and products among them, so that a product is nested in no other. -/
structure AreFlat (factors : List Term) : Prop where
  not_numeric : ∀ t ∈ factors, t.isNumeric = false
  not_product : ∀ t ∈ factors, ∀ ts, t ≠ .product ts

/-- Factors that a product keeps as they are: there are no numbers, products or marks among them,
    no two have the same base, and they are in order. -/
structure AreStandard (factors : List Term) : Prop extends AreFlat factors where
  plain : ∀ t ∈ factors, IsPlain t
  bases_differ : factors.Pairwise fun t u => (asPower t).1 ≠ (asPower u).1
  sorted : sortBy Term.compare factors = factors

theorem areStandard_nil : AreStandard [] where
  plain := nofun
  not_numeric := nofun
  not_product := nofun
  bases_differ := .nil
  sorted := rfl

theorem areStandard_singleton {t : Term} (hplain : IsPlain t) (hnumeric : t.isNumeric = false)
    (hproduct : ∀ ts, t ≠ .product ts) : AreStandard [t] where
  plain := List.forall_mem_singleton.2 hplain
  not_numeric := List.forall_mem_singleton.2 hnumeric
  not_product := List.forall_mem_singleton.2 hproduct
  bases_differ := List.pairwise_singleton _ _
  sorted := List.perm_singleton.1 (sortBy_perm _ _)

theorem of?_eq_none {t : Term} (h : t.isNumeric = false) : Coefficient.of? t = none := by
  cases t <;> simp_all [Term.isNumeric, Coefficient.of?]

/-! ### Flattening -/

theorem AreFlat.flatFactorsOfAll_eq (h : AreFlat factors) :
    flatFactorsOfAll factors = factors := by
  have hflat : ∀ t ∈ factors, flatFactors t = [t] :=
    fun t ht => flatFactors_of_ne (h.not_product t ht)
  rw [flatFactorsOfAll_eq_flatMap, List.flatMap_congr hflat, List.flatMap_singleton']

/-- Flattened, a number times factors is the number, unless it is one, and the factors. -/
theorem AreFlat.flatFactors_scaled (h : AreFlat factors) (c : Rat) :
    ∃ numbers : List Rat, numbers.prod = c ∧
      flatFactors (scaled c factors) = numbers.map Term.number ++ factors := by
  cases factors with
  | nil => exact ⟨[c], by simp, by simp [scaled, flatFactors]⟩
  | cons t ts =>
    rw [scaled_cons]
    split
    case isTrue hone =>
      refine ⟨[], by simp [hone], ?_⟩
      cases ts with
      | nil => exact flatFactors_of_ne (h.not_product t List.mem_cons_self)
      | cons u us => exact h.flatFactorsOfAll_eq
    case isFalse =>
      refine ⟨[c], by simp, ?_⟩
      rw [flatFactors, flatFactorsOfAll, h.flatFactorsOfAll_eq]
      simp [flatFactors]

theorem multiplyNumbers_append (c : Coefficient) (ts us : List Term) :
    multiplyNumbers c (ts ++ us) = multiplyNumbers (multiplyNumbers c ts) us :=
  List.foldl_append

theorem multiplyNumbers_numbers (a : Rat) (numbers : List Rat) :
    multiplyNumbers (.exact a) (numbers.map Term.number) = .exact (a * numbers.prod) := by
  induction numbers generalizing a with
  | nil => simp [multiplyNumbers]
  | cons b rest ih =>
    rw [List.prod_cons, ← mul_assoc, ← ih (a * b)]
    rfl

theorem AreFlat.multiplyNumbers_eq (h : AreFlat factors) (c : Coefficient) :
    multiplyNumbers c factors = c := by
  have hnone : ∀ t ∈ factors, Coefficient.of? t = none :=
    fun t ht => of?_eq_none (h.not_numeric t ht)
  clear h
  induction factors with
  | nil => rfl
  | cons t ts ih =>
    obtain ⟨ht, hts⟩ := List.forall_mem_cons.1 hnone
    rw [multiplyNumbers, List.foldl_cons, ht]
    exact ih hts

theorem AreFlat.filter_eq (h : AreFlat factors) :
    (factors.filter fun t => !t.isNumeric) = factors :=
  List.filter_eq_self.2 fun t ht => by rw [h.not_numeric t ht]; rfl

theorem filter_numbers (numbers : List Rat) :
    ((numbers.map Term.number).filter fun t => !t.isNumeric) = [] := by
  refine List.filter_eq_nil_iff.2 fun t ht => ?_
  obtain ⟨a, -, rfl⟩ := List.mem_map.1 ht
  exact Bool.false_ne_true

theorem AreFlat.absorb_eq (h : AreFlat factors) (c : Coefficient) :
    absorb c factors = (c, factors) := by
  rw [absorb, h.flatFactorsOfAll_eq, h.multiplyNumbers_eq, h.filter_eq]

/-- The numbers of two terms in standard form are multiplied, and their factors stay behind each
    other. -/
theorem AreFlat.absorb_pair {first second : List Term} (hfirst : AreFlat first)
    (hsecond : AreFlat second) (a c : Rat) :
    absorb .one [scaled a first, scaled c second] = (.exact (a * c), first ++ second) := by
  obtain ⟨numbers, hprod, hflat⟩ := hfirst.flatFactors_scaled a
  obtain ⟨numbers', hprod', hflat'⟩ := hsecond.flatFactors_scaled c
  have hone : Coefficient.one = .exact 1 := rfl
  rw [absorb, flatFactorsOfAll_eq_flatMap, List.flatMap_cons, List.flatMap_singleton, hflat, hflat']
  simp only [multiplyNumbers_append, List.filter_append, hone, multiplyNumbers_numbers,
    hfirst.multiplyNumbers_eq, hsecond.multiplyNumbers_eq, filter_numbers, hfirst.filter_eq,
    hsecond.filter_eq, hprod, hprod', one_mul, List.nil_append]

theorem areFlat_nil : AreFlat [] := ⟨nofun, nofun⟩

/-- A number in front of a term goes into its coefficient, and so does one behind it. -/
theorem AreFlat.absorb_number (h : AreFlat factors) (a c : Rat) :
    absorb .one [.number a, scaled c factors] = (.exact (a * c), factors) ∧
      absorb .one [scaled c factors, .number a] = (.exact (a * c), factors) := by
  constructor
  · exact areFlat_nil.absorb_pair h a c
  · have hpair := h.absorb_pair areFlat_nil c a
    rw [List.append_nil, mul_comm c a] at hpair
    exact hpair

/-! ### Merging -/

/-- The group of a factor that is alone. -/
def groupOf (t : Term) : PowerGroup Term :=
  ⟨(asPower t).1, [(asPower t).2], t⟩

theorem addToGroups_of_fresh {t : Term} : ∀ {groups : List (PowerGroup Term)},
    (∀ group ∈ groups, group.base ≠ (asPower t).1) →
      addToGroups t groups = groups ++ [groupOf t]
  | [], _ => rfl
  | group :: rest, h => by
    obtain ⟨hgroup, hrest⟩ := List.forall_mem_cons.1 h
    rw [addToGroups, if_neg hgroup, addToGroups_of_fresh hrest]
    rfl

/-- Factors with different bases are alone in their groups. -/
theorem foldl_addToGroups {ts : List Term} (done : List Term)
    (h : (done ++ ts).Pairwise fun t u => (asPower t).1 ≠ (asPower u).1) :
    ts.foldl (fun groups t => addToGroups t groups) (done.map groupOf) =
      (done ++ ts).map groupOf := by
  induction ts generalizing done with
  | nil => rw [List.append_nil]; rfl
  | cons t ts ih =>
    have hfresh : ∀ group ∈ done.map groupOf, group.base ≠ (asPower t).1 := by
      intro group hgroup
      obtain ⟨u, hu, rfl⟩ := List.mem_map.1 hgroup
      exact (List.pairwise_append.1 h).2.2 u hu t List.mem_cons_self
    rw [List.append_cons] at h
    have hstep := ih _ h
    rw [List.map_append, List.map_singleton] at hstep
    rw [List.foldl_cons, addToGroups_of_fresh hfresh, hstep, ← List.append_cons]

theorem mergePowers_of_bases_differ
    (hbases : factors.Pairwise fun t u => (asPower t).1 ≠ (asPower u).1)
    (pow : Term → Term → Build Term) : (mergePowers pow factors).value = (factors, false) := by
  have hgroups : powerGroups factors = factors.map groupOf :=
    foldl_addToGroups [] hbases
  have hmerged : (factors.map groupOf).map (fun group => (mergeGroup pow group).value) = factors := by
    rw [List.map_map]
    exact List.map_id' factors
  have hchanged : (factors.map groupOf).any (fun group => group.exponents.length ≠ 1) = false := by
    refine List.any_eq_false.2 fun group hgroup => ?_
    obtain ⟨t, -, rfl⟩ := List.mem_map.1 hgroup
    simp [groupOf]
  unfold mergePowers
  simp only [Build.value_bind, Build.value_pure, Build.value_each, hgroups, hmerged, hchanged]

/-- There is nothing to merge in flat factors with different bases. -/
theorem AreFlat.mergeRepeatedly_eq (h : AreFlat factors)
    (hbases : factors.Pairwise fun t u => (asPower t).1 ≠ (asPower u).1)
    (pow : Term → Term → Build Term) (passes : Nat) (c : Coefficient) :
    (mergeRepeatedly pow passes c factors).value = (c, factors) := by
  cases passes with
  | zero => rfl
  | succ passes =>
    unfold mergeRepeatedly
    split
    · rfl
    · rw [Build.value_bind, mergePowers_of_bases_differ hbases]
      dsimp only
      rw [h.absorb_eq]
      rfl

/-! ### Products -/

/-- The number of terms that the sums among the factors are multiplied out to. -/
def expandedCount (factors : List Term) : Nat :=
  ((factors.filter Term.isSum).map fun sum => (summands sum).length).foldl (· * ·) 1

/-- The sums among the factors are left alone. -/
def LeavesAlone (s : Settings) (factors : List Term) : Prop :=
  s.expands = true → factors.any Term.isSum = true →
    s.limits.maxExpandedTerms < expandedCount factors

theorem sortedProduct_value (c : Coefficient) (factors : List Term) :
    (sortedProduct c factors).value = scaledBy c (sortBy Term.compare factors) := by
  unfold sortedProduct
  cases sortBy Term.compare factors with
  | nil => rfl
  | cons t ts =>
    simp only [List.isEmpty_cons, Bool.false_eq_true, if_false]
    rw [scaledBy_cons]
    split
    · exact Build.value_product _
    · rfl

/-- The product of operands that are absorbed into flat factors with different bases has these
    factors in order. -/
theorem AreFlat.mulWith_eq (h : AreFlat factors) (hplain : ∀ t ∈ factors, IsPlain t)
    (hbases : factors.Pairwise fun t u => (asPower t).1 ≠ (asPower u).1)
    (hs : LeavesAlone s factors) {c : Coefficient} (hzero : c.isZero = false)
    (pow : Term → Term → Build Term) (mul : List Term → Build Term) {operands : List Term}
    (habsorb : absorb .one operands = (c, factors)) :
    (mulWith s pow mul operands).value = scaledBy c (sortBy Term.compare factors) := by
  unfold mulWith
  rw [habsorb]
  simp only [poison?_eq_none hplain, hasMatrix_eq_false hplain, Bool.false_eq_true, if_false,
    Build.value_bind, h.mergeRepeatedly_eq hbases, hzero]
  split
  case isFalse => exact sortedProduct_value c factors
  case isTrue hsums =>
    obtain ⟨hexpands, hany⟩ := Bool.and_eq_true_iff.1 hsums
    have hlimit := hs hexpands hany
    unfold distribute
    rw [List.partition_eq_filter_filter]
    dsimp only
    refine Eq.trans (congrArg Build.value (if_pos hlimit)) ?_
    exact sortedProduct_value c factors

/-- The product in standard form of operands that are absorbed into standard factors. -/
theorem AreStandard.mulWith_eq (h : AreStandard factors) (hs : LeavesAlone s factors)
    {c : Coefficient} (hzero : c.isZero = false) (pow : Term → Term → Build Term)
    (mul : List Term → Build Term) {operands : List Term}
    (habsorb : absorb .one operands = (c, factors)) :
    (mulWith s pow mul operands).value = scaledBy c factors := by
  rw [h.toAreFlat.mulWith_eq h.plain h.bases_differ hs hzero pow mul habsorb, h.sorted]

/-- A number times a term in standard form. -/
theorem AreStandard.mul_number (h : AreStandard factors) (hs : LeavesAlone s factors)
    (hac : a * c ≠ 0) (depth : Nat) :
    (mulWithin s (depth + 1) [.number a, scaled c factors]).value = scaled (a * c) factors ∧
      (mulWithin s (depth + 1) [scaled c factors, .number a]).value = scaled (a * c) factors := by
  have hzero : (Coefficient.exact (a * c)).isZero = false := decide_eq_false hac
  rw [← scaledBy_exact (a * c)]
  exact ⟨h.mulWith_eq hs hzero _ _ (h.absorb_number a c).1,
    h.mulWith_eq hs hzero _ _ (h.absorb_number a c).2⟩

/-! ### Splitting and joining -/

theorem AreFlat.splitTerm_scaledBy (h : AreFlat factors) {c : Coefficient}
    (hc : Coefficient.of? c.toTerm = some c) :
    (splitTerm (scaledBy c factors)).value = (c, bodyOf factors) := by
  cases factors with
  | nil =>
    show (splitTerm c.toTerm).value = (c, none)
    generalize c.toTerm = t at hc
    cases t <;> simp_all [splitTerm, Coefficient.of?]
  | cons t ts =>
    have hnone := of?_eq_none (h.not_numeric t List.mem_cons_self)
    rw [scaledBy_cons, bodyOf_cons]
    split
    case isTrue hone =>
      rw [Coefficient.eq_one_of_isOne hone]
      cases ts with
      | nil =>
        exact splitTerm_of_ne (h.not_product t List.mem_cons_self)
          (h.not_numeric t List.mem_cons_self)
      | cons u us => simp [productOf, splitTerm, hnone]
    case isFalse => simp [splitTerm, hc]

theorem AreFlat.joinTerm_bodyOf (h : AreFlat factors) (c : Coefficient) :
    (joinTerm c (bodyOf factors)).value = scaledBy c factors := by
  match factors with
  | [] => rfl
  | t :: ts =>
    rw [scaledBy_cons, bodyOf_cons]
    unfold joinTerm
    dsimp only
    split
    case isTrue => rfl
    case isFalse =>
      match ts with
      | [] =>
        have hproduct := h.not_product t List.mem_cons_self
        cases t <;> first | rfl | exact absurd rfl (hproduct _)
      | u :: us => rfl

/-- The body tells what the factors are. -/
theorem AreFlat.eq_of_bodyOf_eq {factors' : List Term} (h : AreFlat factors)
    (h' : AreFlat factors') (heq : bodyOf factors = bodyOf factors') : factors = factors' := by
  match factors, factors', heq with
  | [], [], _ => rfl
  | [t], [u], heq => exact congrArg (fun x => [x]) (Option.some.inj heq)
  | [t], u :: v :: us, heq =>
    exact absurd (Option.some.inj heq) (h.not_product t List.mem_cons_self _)
  | t :: u :: ts, [v], heq =>
    exact absurd (Option.some.inj heq).symm (h'.not_product v List.mem_cons_self _)
  | t :: u :: ts, v :: w :: vs, heq => exact Term.product.inj (Option.some.inj heq)

/-! ### Sums of terms in standard form -/

/-- A number with factors in standard form, which is no sum, and neither is its opposite. -/
structure IsStandardTerm (s : Settings) (m : Rat × List Term) : Prop where
  standard : AreStandard m.2
  leavesAlone : LeavesAlone s m.2
  ne_zero : m.1 ≠ 0
  not_sum : (m.1 = 1 ∨ m.1 = -1) → ∀ ts, m.2 ≠ [.sum ts]

/-- Where there are no sums among the factors, none can be left alone. -/
theorem isStandardTerm_of_no_sums {factors : List Term} (hc : c ≠ 0) (h : AreStandard factors)
    (hsums : ∀ t ∈ factors, t.isSum = false) : IsStandardTerm s (c, factors) where
  standard := h
  leavesAlone := fun _ hany => by
    obtain ⟨t, ht, hsum⟩ := List.any_eq_true.1 hany
    rw [hsums t ht] at hsum
    cases hsum
  ne_zero := hc
  not_sum := by
    rintro - ts rfl
    cases hsums (.sum ts) List.mem_cons_self

def termOf (m : Rat × List Term) : Term :=
  scaled m.1 m.2

/-- The number that a body has, with the body. -/
def itemOf (m : Rat × List Term) : Rat × Option Term :=
  (m.1, bodyOf m.2)

def multiply (a : Rat) (m : Rat × List Term) : Rat × List Term :=
  (a * m.1, m.2)

variable {m : Rat × List Term} {ms ms' : List (Rat × List Term)}

theorem IsStandardTerm.isSum_eq (h : IsStandardTerm s m) : (termOf m).isSum = false := by
  obtain ⟨c, factors⟩ := m
  unfold termOf
  match factors with
  | [] => rfl
  | [t] =>
    rw [scaled_cons]
    split
    case isTrue hone =>
      cases t with
      | sum ts => exact absurd rfl (h.not_sum (.inl hone) ts)
      | _ => rfl
    case isFalse => rfl
  | t :: u :: ts =>
    rw [scaled_cons]
    split <;> rfl

theorem IsStandardTerm.isPlain (h : IsStandardTerm s m) : IsPlain (termOf m) := by
  obtain ⟨c, factors⟩ := m
  unfold termOf
  match factors with
  | [] => trivial
  | [t] =>
    rw [scaled_cons]
    split
    · exact h.standard.plain t List.mem_cons_self
    · trivial
  | t :: u :: ts =>
    rw [scaled_cons]
    split <;> trivial

theorem IsStandardTerm.multiply (h : IsStandardTerm s m) (ha : a = 1 ∨ a = -1) :
    IsStandardTerm s (multiply a m) where
  standard := h.standard
  leavesAlone := h.leavesAlone
  ne_zero := by rcases ha with rfl | rfl <;> simpa [Reduction.multiply] using h.ne_zero
  not_sum := by
    intro hsign
    refine h.not_sum ?_
    rcases ha with rfl | rfl
    · simpa [Reduction.multiply] using hsign
    · have hsign : -m.1 = 1 ∨ -m.1 = -1 := neg_one_mul m.1 ▸ hsign
      exact hsign.symm.imp neg_inj.1 neg_eq_iff_eq_neg.1

/-- Multiplied by a number, a term in standard form is one again. -/
theorem IsStandardTerm.mul_number (h : IsStandardTerm s m) (ha : a ≠ 0) (depth : Nat) :
    (mulWithin s (depth + 1) [.number a, termOf m]).value = termOf (Reduction.multiply a m) ∧
      (mulWithin s (depth + 1) [termOf m, .number a]).value = termOf (Reduction.multiply a m) :=
  h.standard.mul_number h.leavesAlone (mul_ne_zero ha h.ne_zero) depth

theorem flatMap_summands_termOf (h : ∀ m ∈ ms, IsStandardTerm s m) :
    (ms.map termOf).flatMap summands = ms.map termOf := by
  have hsingle : ∀ t ∈ ms.map termOf, summands t = [t] := by
    intro t ht
    obtain ⟨m, hm, rfl⟩ := List.mem_map.1 ht
    exact summands_of_not_isSum (h m hm).isSum_eq
  rw [List.flatMap_congr hsingle, List.flatMap_singleton']

theorem isPlain_of_mem_map (h : ∀ m ∈ ms, IsStandardTerm s m) :
    ∀ t ∈ ms.map termOf, IsPlain t := by
  intro t ht
  obtain ⟨m, hm, rfl⟩ := List.mem_map.1 ht
  exact (h m hm).isPlain

/-- The body of a term, with its coefficient. -/
def partOf (m : Coefficient × List Term) : Option Term × Coefficient :=
  (bodyOf m.2, m.1)

section Unlike

variable {terms : List Term} {parts : List (Coefficient × List Term)}

/-- Adding coefficients times factors collects the coefficients. -/
theorem collectedParts_scaledBy (hflat : ∀ m ∈ parts, AreFlat m.2)
    (hread : ∀ m ∈ parts, Coefficient.of? m.1.toTerm = some m.1)
    (hterms : terms.flatMap summands = parts.map fun m => scaledBy m.1 m.2) :
    collectedParts terms =
      ((parts.map partOf).foldl (fun done part => collect part.2 part.1 done) []).filter
        fun part => !part.2.isZero := by
  unfold collectedParts
  rw [hterms, List.foldl_map, List.foldl_map]
  congr 1
  refine List.foldl_ext _ _ _ fun done m hm => ?_
  rw [(hflat m hm).splitTerm_scaledBy (hread m hm)]
  rfl

/-- Different bodies are collected one behind the other. -/
theorem foldl_collect_partOf {rest : List (Coefficient × List Term)}
    (before : List (Coefficient × List Term)) (hflat : ∀ m ∈ before ++ rest, AreFlat m.2)
    (hdiffer : (before ++ rest).Pairwise fun m n => m.2 ≠ n.2) :
    (rest.map partOf).foldl (fun done part => collect part.2 part.1 done) (before.map partOf) =
      (before ++ rest).map partOf := by
  induction rest generalizing before with
  | nil => rw [List.append_nil]; rfl
  | cons m rest ih =>
    have hnew : ∀ part ∈ before.map partOf, part.1 ≠ (partOf m).1 := by
      intro part hpart heq
      obtain ⟨n, hn, rfl⟩ := List.mem_map.1 hpart
      refine (List.pairwise_append.1 hdiffer).2.2 n hn m List.mem_cons_self ?_
      exact (hflat n (List.mem_append_left _ hn)).eq_of_bodyOf_eq
        (hflat m (List.mem_append_right _ List.mem_cons_self)) heq
    rw [List.append_cons] at hflat hdiffer ⊢
    rw [← ih _ hflat hdiffer, List.map_cons, List.foldl_cons, collect_of_fresh hnew,
      List.map_append]
    rfl

/-- Coefficients times factors, of which no two are like terms, are only sorted in a sum. -/
theorem add_of_unlike (hflat : ∀ m ∈ parts, AreFlat m.2) (hproper : ∀ m ∈ parts, m.1.IsProper)
    (hdiffer : parts.Pairwise fun m n => m.2 ≠ n.2)
    (hterms : terms.flatMap summands = parts.map fun m => scaledBy m.1 m.2)
    (hplain : ∀ t ∈ terms.flatMap summands, IsPlain t) :
    (add terms).value = Term.sumOf (Term.sortTerms (terms.flatMap summands)) := by
  have hkept : ((parts.map partOf).filter fun part => !part.2.isZero) = parts.map partOf := by
    refine List.filter_eq_self.2 fun part hpart => ?_
    obtain ⟨m, hm, rfl⟩ := List.mem_map.1 hpart
    simp [partOf, (hproper m hm).isZero_eq]
  have hparts : collectedParts terms = parts.map partOf := by
    rw [collectedParts_scaledBy hflat (fun m hm => (hproper m hm).of?_eq) hterms]
    exact (congrArg _ (foldl_collect_partOf [] hflat hdiffer)).trans hkept
  have hjoined : (parts.map partOf).map (fun part => (joinTerm part.2 part.1).value) =
      parts.map fun m => scaledBy m.1 m.2 := by
    rw [List.map_map]
    exact List.map_congr_left fun m hm => (hflat m hm).joinTerm_bodyOf m.1
  rw [add_value hplain, hparts, hjoined, hterms]

end Unlike

/-- A term with an exact coefficient. -/
def exactly (m : Rat × List Term) : Coefficient × List Term :=
  (.exact m.1, m.2)

theorem map_termOf (ms : List (Rat × List Term)) :
    ms.map termOf = (ms.map exactly).map fun m => scaledBy m.1 m.2 := by
  rw [List.map_map]
  exact List.map_congr_left fun m _ => (scaledBy_exact m.1 m.2).symm

theorem areFlat_of_mem_map_exactly (h : ∀ m ∈ ms, IsStandardTerm s m) :
    ∀ m ∈ ms.map exactly, AreFlat m.2 := by
  intro m hm
  obtain ⟨n, hn, rfl⟩ := List.mem_map.1 hm
  exact (h n hn).standard.toAreFlat

theorem isProper_of_mem_map_exactly (h : ∀ m ∈ ms, IsStandardTerm s m) :
    ∀ m ∈ ms.map exactly, m.1.IsProper := by
  intro m hm
  obtain ⟨n, hn, rfl⟩ := List.mem_map.1 hm
  exact Coefficient.isProper_exact (h n hn).ne_zero

/-- Adding terms in standard form collects their numbers. -/
theorem collectedParts_termOf {terms : List Term} (h : ∀ m ∈ ms, IsStandardTerm s m)
    (hterms : terms.flatMap summands = ms.map termOf) :
    collectedParts terms =
      ((ms.map itemOf).foldl (fun done item => collect (.exact item.1) item.2 done) []).filter
        fun part => !part.2.isZero := by
  rw [collectedParts_scaledBy (areFlat_of_mem_map_exactly h)
    (fun m hm => (isProper_of_mem_map_exactly h m hm).of?_eq) (hterms.trans (map_termOf ms)),
    List.map_map, List.foldl_map, List.foldl_map]
  rfl

/-- Terms in standard form with different bodies stay what they are in a sum, in some order. -/
theorem add_termOf (h : ∀ m ∈ ms, IsStandardTerm s m)
    (hdiffer : ms.Pairwise fun m n => m.2 ≠ n.2) :
    ∃ ms' : List (Rat × List Term), ms'.Perm ms ∧
      (add (ms.map termOf)).value = Term.sumOf (ms'.map termOf) := by
  have hsorted : Term.sortTerms (ms.map termOf) =
      (sortBy (fun m n => compareTerms (termOf m) (termOf n)) ms).map termOf := by
    rw [Term.sortTerms_eq]
    exact sortBy_map fun _ _ _ _ => rfl
  have hsummands := flatMap_summands_termOf h
  refine ⟨sortBy (fun m n => compareTerms (termOf m) (termOf n)) ms, sortBy_perm _ ms, ?_⟩
  rw [add_of_unlike (areFlat_of_mem_map_exactly h) (isProper_of_mem_map_exactly h)
    (List.pairwise_map.2 hdiffer) (hsummands.trans (map_termOf ms))
    (hsummands.symm ▸ isPlain_of_mem_map h), hsummands, hsorted]

end Reduction

end EquationSolver
