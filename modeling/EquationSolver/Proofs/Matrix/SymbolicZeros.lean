import EquationSolver.Proofs.Matrix.ExactZeros
import EquationSolver.Proofs.Reduction.Decimals
import EquationSolver.Proofs.Reduction.Standard
import EquationSolver.Proofs.Reduction.Tally

/-!
# Exact zeros among symbols

Clearing an entry adds its opposite to it.  For terms in standard form nothing is left: the opposite
of a number times factors has the same factors, and that of a sum that is multiplied out has the
same bodies, so that all coefficients add up to zero.  Elimination therefore leaves a matrix of
symbolic terms in reduced row echelon form as it stands, as long as no decimals are involved and the
terms that it clears are in standard form.  Products of sums that are left alone are not.
-/

namespace EquationSolver

open Term

namespace Reduction

variable {s : Settings} {a c : Rat} {m : Rat × List Term} {ms ms' : List (Rat × List Term)}

/-! ### Coefficients that are collected -/

theorem total_neg (body : Option Term) (items : List (Rat × Option Term)) :
    total body (items.map fun item => (-1 * item.1, item.2)) = -total body items := by
  induction items with
  | nil => simp [total]
  | cons item rest ih =>
    have hsingle (c : Rat) (other : Option Term) (items : List (Rat × Option Term)) :
        total body ((c, other) :: items) = (if other = body then c else 0) + total body items := by
      unfold total
      rw [List.filter_cons]
      split <;> simp_all
    obtain ⟨c, other⟩ := item
    rw [List.map_cons, hsingle, hsingle, ih]
    split <;> ring

/-- Nothing is left of terms whose numbers add up to zero for each body. -/
theorem add_eq_zero {terms : List Term} (h : ∀ m ∈ ms, IsStandardTerm s m)
    (hflat : terms.flatMap summands = ms.map termOf)
    (htotal : ∀ body, total body (ms.map itemOf) = 0) : (add terms).value = .zero := by
  have hparts : collectedParts terms = [] := by
    rw [collectedParts_termOf h hflat]
    refine List.filter_eq_nil_iff.2 fun part hpart => ?_
    rw [(isTally_foldl (ms.map itemOf)).total_eq part hpart, htotal]
    simp [Coefficient.isZero]
  rw [add_value (hflat ▸ isPlain_of_mem_map h), hparts]
  rfl

/-! ### Sums that are multiplied out -/

/-- Products with this many terms are multiplied out. -/
def MultipliesOut (s : Settings) (count : Nat) : Prop :=
  s.expands = true ∧ count ≤ s.limits.maxExpandedTerms

/-- A number is multiplied to each term of a sum that is multiplied out. -/
theorem mulWithin_sum {terms operands : List Term} (ha : a ≠ 0)
    (hs : MultipliesOut s terms.length)
    (habsorb : absorb .one operands = (.exact a, [.sum terms])) (depth : Nat) :
    (mulWithin s (depth + 1) operands).value =
      (add (terms.map fun t => (mulWithin s depth [.number a, t]).value)).value := by
  have hplain : ∀ t ∈ [Term.sum terms], IsPlain t := List.forall_mem_singleton.2 trivial
  have hzero : (Coefficient.exact a).isZero = false := decide_eq_false ha
  have hcount : ¬ s.limits.maxExpandedTerms < 1 * terms.length := by
    rw [one_mul]
    exact Nat.not_lt.2 hs.2
  have hpairs : ([Term.number a].flatMap fun b => terms.map fun t => (b, t)) =
      terms.map fun t => (.number a, t) := List.flatMap_singleton _ _
  show (mulWith s _ _ operands).value = _
  unfold mulWith
  rw [habsorb]
  simp only [poison?_eq_none hplain, hasMatrix_eq_false hplain, Bool.false_eq_true, if_false,
    Build.value_bind, mergeRepeatedly_sum, hzero, hs.1]
  show (distribute s (mulWithin s depth) (.exact a) [.sum terms]).value = _
  unfold distribute
  show (if s.limits.maxExpandedTerms < 1 * terms.length then _ else _ : Build Term).value = _
  rw [if_neg hcount]
  show (add (pairwise (mulWithin s depth) [.number a] terms).value).value = _
  rw [pairwise, Build.value_each, hpairs, List.map_map]
  rfl

/-- A sum of terms in standard form, none of them a sum and no two with the same body. -/
structure IsStandardSum (s : Settings) (ms : List (Rat × List Term)) : Prop where
  standard : ∀ m ∈ ms, IsStandardTerm s m
  bodies_differ : ms.Pairwise fun m n => m.2 ≠ n.2
  multipliesOut : MultipliesOut s ms.length
  two_le : 2 ≤ ms.length

theorem IsStandardSum.perm (h : IsStandardSum s ms) (hperm : ms'.Perm ms) : IsStandardSum s ms' where
  standard m hm := h.standard m (hperm.mem_iff.1 hm)
  bodies_differ := (hperm.pairwise_iff fun hne => hne.symm).2 h.bodies_differ
  multipliesOut := hperm.length_eq ▸ h.multipliesOut
  two_le := hperm.length_eq ▸ h.two_le

theorem IsStandardSum.multiply (h : IsStandardSum s ms) (ha : a = 1 ∨ a = -1) :
    IsStandardSum s (ms.map (Reduction.multiply a)) where
  standard m hm := by
    obtain ⟨n, hn, rfl⟩ := List.mem_map.1 hm
    exact (h.standard n hn).multiply ha
  bodies_differ := List.pairwise_map.2 h.bodies_differ
  multipliesOut := by simpa using h.multipliesOut
  two_le := by simpa using h.two_le

theorem IsStandardSum.sumOf_eq (h : IsStandardSum s ms) :
    Term.sumOf (ms.map termOf) = .sum (ms.map termOf) := by
  match ms, h.two_le with
  | m :: n :: rest, _ => rfl

/-- A sum in standard form that is multiplied by one or its opposite is one again. -/
theorem IsStandardSum.mul_number (h : IsStandardSum s ms) (ha : a = 1 ∨ a = -1)
    {operands : List Term}
    (habsorb : absorb .one operands = (.exact a, [.sum (ms.map termOf)])) (depth : Nat) :
    ∃ ms' : List (Rat × List Term), ms'.Perm (ms.map (Reduction.multiply a)) ∧
      (mulWithin s (depth + 2) operands).value = .sum (ms'.map termOf) := by
  have hne : a ≠ 0 := by
    rcases ha with rfl | rfl
    · exact one_ne_zero
    · exact neg_ne_zero.2 one_ne_zero
  have hproducts : (ms.map termOf).map
      (fun t => (mulWithin s (depth + 1) [.number a, t]).value) =
        (ms.map (Reduction.multiply a)).map termOf := by
    rw [List.map_map, List.map_map]
    exact List.map_congr_left fun m hm => ((h.standard m hm).mul_number hne depth).1
  have hmultiplied := h.multiply ha
  obtain ⟨ms', hperm, hvalue⟩ := add_termOf hmultiplied.standard hmultiplied.bodies_differ
  refine ⟨ms', hperm, ?_⟩
  rw [mulWithin_sum hne (by simpa using h.multipliesOut) habsorb, hproducts, hvalue]
  exact (hmultiplied.perm hperm).sumOf_eq

/-- A term in standard form: a number times factors that are left alone, or a sum of such terms
    that is multiplied out. -/
inductive IsStandard (s : Settings) : Term → Prop
  | term {m : Rat × List Term} (h : IsStandardTerm s m) : IsStandard s (termOf m)
  | sum {ms : List (Rat × List Term)} (h : IsStandardSum s ms) : IsStandard s (.sum (ms.map termOf))

/-- The numbers of terms and those of their opposites add up to zero. -/
theorem total_opposite (hperm : ms'.Perm ((ms.map (multiply (-1))).map (multiply 1)))
    (body : Option Term) : total body ((ms ++ ms').map itemOf) = 0 := by
  have hitems : ((ms.map (multiply (-1))).map (multiply 1)).map itemOf =
      (ms.map itemOf).map fun item => (-1 * item.1, item.2) := by
    simp only [List.map_map]
    refine List.map_congr_left fun m _ => Prod.ext ?_ rfl
    exact one_mul _
  rw [List.map_append, total_append, total_perm (hperm.map itemOf), hitems, total_neg,
    add_neg_cancel]

theorem IsStandardTerm.cancels (h : IsStandardTerm s m) : Cancels s (termOf m) := by
  have hopposite := h.multiply (.inr rfl)
  have hshift := hopposite.multiply (.inl rfl)
  have hmul : (mul s [.number (-1), termOf m]).value = termOf (Reduction.multiply (-1) m) :=
    (h.mul_number (neg_ne_zero.2 one_ne_zero) _).1
  have hkept : (mul s [termOf (Reduction.multiply (-1) m), .one]).value =
      termOf (Reduction.multiply 1 (Reduction.multiply (-1) m)) :=
    (hopposite.mul_number one_ne_zero _).2
  have hstandard : ∀ n ∈ [m] ++ [Reduction.multiply 1 (Reduction.multiply (-1) m)],
      IsStandardTerm s n :=
    List.forall_mem_cons.2 ⟨h, List.forall_mem_singleton.2 hshift⟩
  rw [Cancels, hmul, hkept]
  exact add_eq_zero hstandard (flatMap_summands_termOf hstandard)
    (total_opposite (List.Perm.refl _))

theorem absorb_sum (a : Rat) (terms : List Term) :
    absorb .one [.number a, .sum terms] = (.exact a, [.sum terms]) ∧
      absorb .one [.sum terms, .number a] = (.exact a, [.sum terms]) := by
  have h := (areStandard_singleton (t := .sum terms) trivial rfl nofun).absorb_number a 1
  rwa [mul_one] at h

theorem IsStandardSum.cancels (h : IsStandardSum s ms) : Cancels s (.sum (ms.map termOf)) := by
  obtain ⟨ms', hperm', hopposite⟩ := h.mul_number (.inr rfl) (absorb_sum (-1) _).1 (maxDepth - 2)
  have hsum' := (h.multiply (.inr rfl)).perm hperm'
  obtain ⟨ms'', hperm'', hshift⟩ := hsum'.mul_number (.inl rfl) (absorb_sum 1 _).2 (maxDepth - 2)
  have hsum'' := (hsum'.multiply (.inl rfl)).perm hperm''
  have hstandard : ∀ m ∈ ms ++ ms'', IsStandardTerm s m :=
    List.forall_mem_append.2 ⟨h.standard, hsum''.standard⟩
  have hflat : [Term.sum (ms.map termOf), .sum (ms''.map termOf)].flatMap summands =
      (ms ++ ms'').map termOf := by
    rw [List.map_append]
    exact congrArg (ms.map termOf ++ ·) (List.append_nil _)
  have hmul (operands : List Term) :
      mul s operands = mulWithin s (maxDepth - 2 + 2) operands := rfl
  rw [Cancels, hmul [.number (-1), _], hopposite, hmul [_, .one], Term.one, hshift]
  exact add_eq_zero hstandard hflat (total_opposite (hperm''.trans (hperm'.map _)))

/-- Nothing is left of a term in standard form when its opposite is added to it. -/
theorem IsStandard.cancels {t : Term} (h : IsStandard s t) : Cancels s t := by
  cases h with
  | term h => exact h.cancels
  | sum h => exact h.cancels

end Reduction

open Reduction (Settings IsStandard)
open SymbolicMatrix

/-! ### Elimination -/

/-- Of terms without decimals only the number zero is known to be zero. -/
theorem Term.IsDecimalFree.eq_zero_of_nullity {t : Term} {s : Settings} (h : t.IsDecimalFree)
    (hzero : t.nullity s = .yes) : t = .zero := by
  have hnumeric := Term.isNumeric_of_nullity hzero
  cases t with
  | number a => rw [nullity_number_eq_yes_iff.1 hzero]; rfl
  | decimal bits => exact absurd h (not_isDecimalFree_decimal bits)
  | _ => cases hnumeric

theorem Reduction.isClosed_isDecimalFree (s : Settings) : IsClosed s Term.IsDecimalFree where
  number := Term.isDecimalFree_number
  mul ht hu := isDecimalFree_mul (List.forall_mem_cons.2 ⟨ht, List.forall_mem_singleton.2 hu⟩)
  add ht hu := isDecimalFree_add (List.forall_mem_cons.2 ⟨ht, List.forall_mem_singleton.2 hu⟩)

namespace Elimination

variable {s : Settings} {columns : Nat} {e e' : Elimination}

def IsDecimalFree (e : Elimination) : Prop :=
  ∀ row ∈ e.rows, ∀ t ∈ row, t.IsDecimalFree

theorem IsDecimalFree.step (h : e.IsDecimalFree) (hstep : Step s columns e e') :
    e'.IsDecimalFree := by
  cases hstep
  case skip => exact h
  case pivot rows place column pivot hrow hcolumn hpivot =>
    obtain ⟨hplace, hlength⟩ := lt_of_findPivot? hpivot
    have hclosed := Reduction.isClosed_isDecimalFree s
    refine eliminateColumn_of_isClosed hclosed h hplace hlength fun row hget => ?_
    exact Reduction.isDecimalFree_pow
      (entryAt_of_isClosed hclosed (h row (List.mem_of_getElem? hget)) column)
      (Term.isDecimalFree_number (-1))

/-- Elimination brings no decimals with it. -/
theorem IsDecimalFree.run (h : e.IsDecimalFree) (hrun : Run s columns e e') : e'.IsDecimalFree := by
  induction hrun with
  | refl => exact h
  | tail _ hstep ih => exact ih.step hstep

/-- The entries beside the pivot in the next column are zero or in standard form. -/
def IsStandardNext (s : Settings) (e : Elimination) : Prop :=
  ∀ (i : Nat) (row : List Term), e.rows[i]? = some row →
    findPivot? s e.rows e.place e.column ≠ some i →
      entryAt row e.column = .zero ∨ IsStandard s (entryAt row e.column)

/-- Elimination clears only terms in standard form. -/
def ClearsStandard (s : Settings) (columns : Nat) (e : Elimination) : Prop :=
  ∀ e', Run s columns e e' → e'.place < e'.rows.length → e'.column < columns → e'.IsStandardNext s

/-- Terms in standard form are cleared, and nothing else than zero is taken for zero. -/
theorem IsDecimalFree.clearsEntries (h : e.IsDecimalFree) (hstandard : e.ClearsStandard s columns) :
    e.ClearsEntries s columns := by
  intro e' hrun hplace hcolumn i row hrow hpivot
  have hfree : (entryAt row e'.column).IsDecimalFree :=
    entryAt_of_isClosed (Reduction.isClosed_isDecimalFree s)
      (h.run hrun row (List.mem_of_getElem? hrow)) _
  unfold Reduction.IsClearable
  split
  case isTrue hzero => exact hfree.eq_zero_of_nullity hzero
  case isFalse hnonzero =>
    rcases hstandard e' hrun hplace hcolumn i row hrow hpivot with hzero | hstandard
    · exact absurd (hzero ▸ rfl) hnonzero
    · exact hstandard.cancels

end Elimination

namespace SymbolicMatrix

variable {s : Settings} {definitions : Definitions} {m m' : SymbolicMatrix} {rank : Nat}

/-- A matrix whose reduced entries hold no decimals is left in reduced row echelon form as it
    stands, with as many pivots as the rank, if each entry that elimination clears is in standard
    form: not a sum that is left alone. -/
theorem isReducedEchelon_of_rank (hm : m.IsRectangular)
    (hentries : (Elimination.start (m.reduce s definitions).value.rows).IsDecimalFree)
    (hstandard : (Elimination.start (m.reduce s definitions).value.rows).ClearsStandard s m.columns)
    (h : (m.rank s definitions).value = (m', some rank)) :
    ∃ pivots, pivots.length = rank ∧ m'.IsReducedEchelon pivots :=
  exists_isReducedEchelon hm h (hentries.clearsEntries hstandard)

/-- A pivot that is a symbol, and one that is a sum. -/
def symbolicRows : SymbolicMatrix :=
  ⟨[[.symbol "x", .one], [.product [.number 2, .symbol "x"], .symbol "y"]], 2⟩

/-- What elimination meets in these rows. -/
def symbolicEntries : List Term :=
  [.symbol "x", .product [.number 2, .symbol "x"], .power (.symbol "x") (.number (-1)),
    .sum [.symbol "y", .number (-2)]]

theorem isStandard_symbolicEntries : ∀ t ∈ symbolicEntries, IsStandard {} t := by
  have hfactor (t : Term) (hplain : Reduction.IsPlain t) (hnumeric : t.isNumeric = false)
      (hproduct : ∀ ts, t ≠ .product ts) (hsum : t.isSum = false) {c : Rat} (hc : c ≠ 0) :
      Reduction.IsStandardTerm {} (c, [t]) :=
    Reduction.isStandardTerm_of_no_sums hc
      (Reduction.areStandard_singleton hplain hnumeric hproduct) (List.forall_mem_singleton.2 hsum)
  have hconstant : Reduction.IsStandardTerm {} (-2, []) :=
    Reduction.isStandardTerm_of_no_sums (by decide) Reduction.areStandard_nil nofun
  have hx {c : Rat} (hc : c ≠ 0) : Reduction.IsStandardTerm {} (c, [.symbol "x"]) :=
    hfactor (.symbol "x") trivial rfl nofun rfl hc
  have hsum : Reduction.IsStandardSum {} [(1, [.symbol "y"]), (-2, [])] :=
    { standard := List.forall_mem_cons.2 ⟨hfactor (.symbol "y") trivial rfl nofun rfl one_ne_zero,
        List.forall_mem_singleton.2 hconstant⟩
      bodies_differ := List.pairwise_pair.2 (List.cons_ne_nil _ _)
      multipliesOut := ⟨rfl, by decide⟩
      two_le := le_refl 2 }
  intro t ht
  simp only [symbolicEntries, List.mem_cons, List.not_mem_nil, or_false] at ht
  rcases ht with rfl | rfl | rfl | rfl
  · exact .term (hx one_ne_zero)
  · exact .term (hx two_ne_zero)
  · exact .term (m := (1, [_])) (hfactor (.power (.symbol "x") (.number (-1))) trivial rfl nofun rfl
      one_ne_zero)
  · exact .sum hsum

theorem isReducedEchelon_of_rank_symbolicRows :
    ∃ m', (symbolicRows.rank {} []).value = (m', some 2) ∧
      ∃ pivots, pivots.length = 2 ∧ m'.IsReducedEchelon pivots := by
  have hreduce : (symbolicRows.reduce {} []).value = symbolicRows := by
    rw [value_reduce_nil]
    decide +kernel
  have heliminate : (eliminate {} 2 0 0 symbolicRows.rows).value =
      ((eliminate {} 2 0 0 symbolicRows.rows).value.1, 2) :=
    Prod.ext rfl (by decide +kernel)
  have hrank := value_rank hreduce heliminate rfl (by decide +kernel)
  have hm : symbolicRows.IsRectangular := by
    unfold IsRectangular HasWidth
    decide
  have hentries : (Elimination.start symbolicRows.rows).IsDecimalFree := by
    unfold Elimination.IsDecimalFree Term.IsDecimalFree
    decide +kernel
  have hmeets : Elimination.holdsAlong {} (fun e => e.rows.all fun row =>
      symbolicEntries.contains (entryAt row e.column)) 2 (Elimination.start symbolicRows.rows) =
        true := by
    decide +kernel
  refine ⟨_, hrank, ?_⟩
  refine isReducedEchelon_of_rank hm (hreduce.symm ▸ hentries) (hreduce.symm ▸ ?_) hrank
  intro e' hrun hplace hcolumn i row hrow _
  have hall := Elimination.of_holdsAlong hmeets rfl hrun hplace hcolumn
  have hentry := List.all_eq_true.1 hall row (List.mem_of_getElem? hrow)
  exact .inr (isStandard_symbolicEntries _ (List.contains_iff_mem.1 hentry))

end SymbolicMatrix

end EquationSolver
