import EquationSolver.Proofs.Order.Transitivity
import EquationSolver.Proofs.Pool.Consing

/-!
# The orders of the terms of a pool

In a pool that constructors have built, the order of factors and the order of the terms of a
sum find two handles equal only if they are one, and compare them the other way round in
reverse.  Both are transitive on terms whose approximate exponents are not less than one: such
an exponent comes before the first power, as its value says, but also after all exact
exponents, as its kind says.
-/

namespace EquationSolver

namespace Term

variable {a b c t u : Term}

/-! ### The order of the terms of a sum -/

theorem compareTerms_eq (a b : Term) : compareTerms a b =
    ((Ord.compare a.isNumeric.toNat b.isNumeric.toNat).then (Ord.compare b.degree a.degree)).then
      ((compareLists a.body b.body).then (compare a b)) := by
  rw [compareTerms, compareGraded]
  split
  case isTrue h =>
    subst h
    have hbody : compareLists a.body a.body = .eq := by
      have hswap : compareLists a.body a.body = (compareLists a.body a.body).swap :=
        compareLists_swap fun x _ y _ => compare_swap x y
      revert hswap
      cases compareLists a.body a.body <;> simp
    simp [hbody]
  case isFalse => rfl

theorem compareTerms_swap (a b : Term) : compareTerms b a = (compareTerms a b).swap := by
  have hbody : compareLists b.body a.body = (compareLists a.body b.body).swap :=
    compareLists_swap fun x _ y _ => compare_swap x y
  rw [compareTerms_eq, compareTerms_eq, hbody, compare_swap a b]
  simp only [Ordering.swap_then, Nat.compare_swap, Int.compare_swap]

theorem compareTerms_eq_iff (ha : a.Everywhere IsStandard) (hb : b.Everywhere IsStandard) :
    compareTerms a b = .eq ↔ a = b := by
  constructor
  · intro h
    rw [compareTerms_eq, Ordering.then_eq_eq] at h
    exact eq_of_compare_eq ha hb (Ordering.then_eq_eq.1 h.2).2
  · intro h
    rw [compareTerms, compareGraded, if_pos h]

theorem isWithin_of_mem_body (hu : u ∈ t.body) : u.IsWithin t := by
  cases t with
  | product factors => exact .single (List.mem_of_mem_filter hu)
  | number | decimal => cases hu
  | _ =>
    rw [List.mem_singleton.1 hu]
    exact .refl

theorem composes_compareTerms (ha : a.Everywhere HasOrderedExponent)
    (hb : b.Everywhere HasOrderedExponent) (hc : c.Everywhere HasOrderedExponent) :
    Composes (compareTerms a b) (compareTerms b c) (compareTerms a c) := by
  have hdegree : Composes (Ord.compare b.degree a.degree) (Ord.compare c.degree b.degree)
      (Ord.compare c.degree a.degree) :=
    (EquationSolver.composes_compare c.degree b.degree a.degree).symm
  have hbody : Composes (compareLists a.body b.body) (compareLists b.body c.body)
      (compareLists a.body c.body) :=
    composes_compareLists fun u hu v hv w hw => composes_compare u v w
      (fun t ht => ha t (ht.trans (isWithin_of_mem_body hu)))
      (fun t ht => hb t (ht.trans (isWithin_of_mem_body hv)))
      (fun t ht => hc t (ht.trans (isWithin_of_mem_body hw)))
  rw [compareTerms_eq, compareTerms_eq, compareTerms_eq]
  exact ((EquationSolver.composes_compare _ _ _).then_eq hdegree).then_eq
    (hbody.then_eq (composes_compare a b c ha hb hc))

/-! ### Approximate exponents less than one -/

/-- The approximate exponent one half comes before the first power, which comes before the
    square, which comes before the approximate exponent. -/
theorem compare_cycle (x : Term) (hx : x.isPower = false) (hn : x.isNumeric = false) :
    compare (.power x (.decimal 0x3FE0000000000000)) x = .lt ∧
      compare x (.power x (.number 2)) = .lt ∧
        compare (.power x (.number 2)) (.power x (.decimal 0x3FE0000000000000)) = .lt := by
  have hhalf : compareWithOne (.decimal 0x3FE0000000000000) = .lt := by decide
  have htwo : compareWithOne (.number 2) = .gt := by decide
  rw [compare_power_plain hx hn, compare_plain_power hx hn, compare_power_power, compare_self,
    hhalf, htwo]
  exact ⟨rfl, rfl, rfl⟩

end Term

namespace Pool

variable {pool pool' : Pool}

/-! ### Approximate numbers of a pool -/

theorem float_eq_of_toBits_eq {x y : Float} (h : x.toBits = y.toBits) : x = y := by
  obtain ⟨⟨bits, hx⟩⟩ := x
  obtain ⟨⟨bits', hy⟩⟩ := y
  cases h
  rfl

theorem isStandard_ofDouble (x : Float) : (Term.ofDouble x).IsStandard := by
  unfold Term.ofDouble
  split
  · split
    case isTrue => exact (by decide : (0 : UInt64).toNat ≠ Binary64.signWord)
    case isFalse hzero =>
      intro hbits
      have hx : x = Float.ofBits 0x8000000000000000 := by
        refine float_eq_of_toBits_eq (UInt64.toNat_inj.1 (hbits.trans ?_))
        decide
      refine hzero ?_
      rw [hx]
      decide
  · trivial

/-- What holds of all doubles, of matrices that are filled, and of all other terms, holds of what
    constructors build. -/
theorem forall_trace_build {c : Construction} {b : Build Term} (hb : c.build pool = .ok b)
    {P : Term → Prop} (hdouble : ∀ x, P (.ofDouble x))
    (hmatrix : ∀ m n (entries : List Term), entries.length = m * n → P (.matrix m n entries))
    (hother : ∀ t : Term, (∀ bits, t ≠ .decimal bits) → (∀ m n entries, t ≠ .matrix m n entries) →
      P t) : ∀ t ∈ b.trace, P t := by
  cases c with
  | number | constant | symbol | undefined | nonreal =>
    cases hb
    simp [Build.number, hother]
  | decimal x =>
    cases hb
    simpa using hdouble x
  | sum handles =>
    obtain ⟨ts, -, hb⟩ := exists_of_bind_eq_ok hb
    cases hb
    rcases ts with _ | ⟨t, _ | ⟨u, ts⟩⟩ <;> simp [Build.sum, Term.sumOf, Term.zero, hother]
  | product handles =>
    obtain ⟨ts, -, hb⟩ := exists_of_bind_eq_ok hb
    cases hb
    rcases ts with _ | ⟨t, _ | ⟨u, ts⟩⟩ <;>
      simp [Build.product, Term.productOf, Term.one, hother]
  | negation a | apply _ a | squareRoot a =>
    obtain ⟨t, -, hb⟩ := exists_of_bind_eq_ok hb
    cases hb
    simp [Build.squareRoot, hother]
  | power a b | quotient a b =>
    obtain ⟨t, -, hb⟩ := exists_of_bind_eq_ok hb
    obtain ⟨u, -, hb⟩ := exists_of_bind_eq_ok hb
    cases hb
    simp [hother]
  | difference a b =>
    obtain ⟨t, -, hb⟩ := exists_of_bind_eq_ok hb
    obtain ⟨u, -, hb⟩ := exists_of_bind_eq_ok hb
    cases hb
    simp [Build.difference, Build.sum, Term.sumOf, hother]
  | matrix m n entries =>
    obtain ⟨ts, -, hb⟩ := exists_of_bind_eq_ok hb
    unfold Build.matrix at hb
    split at hb
    case isTrue hsize =>
      cases hb
      simpa using hmatrix m n ts hsize
    case isFalse => cases hb

/-- What constructors give to every term that they build holds of the terms of any pool that they
    lead to. -/
theorem Reachable.forall_terms (h : pool.Reachable) {P : Term → Prop}
    (hbuild : ∀ (pool : Pool) (c : Construction) (b : Build Term), c.build pool = .ok b →
      ∀ t ∈ b.trace, P t) : ∀ t ∈ pool.terms, P t := by
  induction h with
  | refl => simp
  | tail hrun hstep ih =>
    have hpool := (Run.isWellFormed hrun isWellFormed_empty).1
    cases hstep with
    | construct hconstruct =>
      obtain ⟨b, hb, rfl, -⟩ := of_construct_eq_ok hconstruct
      obtain ⟨k', hlearns, -⟩ := Construction.grounds_build hpool.sound hb
      intro t ht
      rcases hlearns.mem_iff.1 (((hpool.sound.internAll hlearns fun _ => Iff.rfl).2 t).2 ht) with
        hold | hnew
      · exact ih t hold
      · exact hbuild _ _ b hb t hnew
    | internName name =>
      rw [terms_internName]
      exact ih
    | truncate cursor =>
      intro t ht
      obtain ⟨i, hi⟩ := Array.mem_iff_getElem?.1 ht
      rw [getElem?_truncate] at hi
      split at hi
      · exact ih t (Array.mem_iff_getElem?.2 ⟨i, hi⟩)
      · cases hi

/-- Approximate numbers have the bits of doubles. -/
theorem Reachable.isStandard (h : pool.Reachable) : ∀ t ∈ pool.terms, t.IsStandard := by
  refine h.forall_terms fun _ _ _ hb => forall_trace_build hb isStandard_ofDouble
    (fun _ _ _ _ => trivial) fun t hdecimal _ => ?_
  cases t with
  | decimal bits => exact absurd rfl (hdecimal bits)
  | _ => trivial

/-- A matrix has an entry for each place. -/
theorem Reachable.length_entries (h : pool.Reachable) {m n : Nat} {entries : List Term}
    (hmem : .matrix m n entries ∈ pool.terms) : entries.length = m * n := by
  have hfills : ∀ t ∈ pool.terms, ∀ m n entries, t = .matrix m n entries →
      entries.length = m * n := by
    refine h.forall_terms fun _ _ _ hb => forall_trace_build hb (fun x m n entries heq => ?_)
      (fun _ _ _ hsize _ _ _ heq => ?_) fun t _ hmatrix m n entries heq =>
        absurd heq (hmatrix m n entries)
    · unfold Term.ofDouble at heq
      split_ifs at heq
    · cases heq
      exact hsize
  exact hfills _ hmem m n entries rfl

/-- Parts of the terms of a sound pool are its terms. -/
theorem IsSound.mem_of_isWithin (h : pool.IsSound) {t u : Term} (ht : t ∈ pool.terms)
    (hu : u.IsWithin t) : u ∈ pool.terms := by
  induction hu using Relation.ReflTransGen.head_induction_on with
  | refl => exact ht
  | head hchild _ ih => exact h.known.child_mem ih hchild

/-! ### The orders of a pool -/

/-- Both orders of the terms of a pool tell its handles apart, reverse with their arguments,
    and are transitive where no approximate exponent is less than one. -/
theorem Reachable.order_laws (h : pool.Reachable) {i j : Handle} {a b : Term}
    (hi : pool.get? i = some a) (hj : pool.get? j = some b) (c : Term) :
    ((Term.compare a b = .eq ↔ i = j) ∧ Term.compare b a = (Term.compare a b).swap ∧
      (a.Everywhere Term.HasOrderedExponent → b.Everywhere Term.HasOrderedExponent →
        c.Everywhere Term.HasOrderedExponent → Term.compare a b = .lt → Term.compare b c = .lt →
          Term.compare a c = .lt)) ∧
    ((Term.compareTerms a b = .eq ↔ i = j) ∧
      Term.compareTerms b a = (Term.compareTerms a b).swap ∧
        (a.Everywhere Term.HasOrderedExponent → b.Everywhere Term.HasOrderedExponent →
          c.Everywhere Term.HasOrderedExponent → Term.compareTerms a b = .lt →
            Term.compareTerms b c = .lt → Term.compareTerms a c = .lt)) := by
  have hpool := h.isWellFormed
  have hstandard {handle : Handle} {t : Term} (hget : pool.get? handle = some t) :
      t.Everywhere Term.IsStandard := fun u hu =>
    h.isStandard u (hpool.sound.mem_of_isWithin (IsWellFormed.mem_of_get? hget) hu)
  have hhandles : a = b ↔ i = j := by
    rw [← hpool.get?_inj (Array.getElem?_eq_some_iff.1 hi).1, hi, hj, Option.some.injEq]
  refine ⟨⟨?_, Term.compare_swap a b, fun ha hb hc hab hbc => ?_⟩,
    ?_, Term.compareTerms_swap a b, fun ha hb hc hab hbc => ?_⟩
  · rw [Term.compare_eq_iff (hstandard hi) (hstandard hj), hhandles]
  · have hacross := Term.composes_compare a b c ha hb hc
    rw [hab, hbc] at hacross
    exact hacross.trans_lt
  · rw [Term.compareTerms_eq_iff (hstandard hi) (hstandard hj), hhandles]
  · have hacross := Term.composes_compareTerms ha hb hc
    rw [hab, hbc] at hacross
    exact hacross.trans_lt

/-- The pool of `x` and its square root. -/
def roots : Pool :=
  ({} : Pool).internAll [.symbol "x", .number (1 / 2), .squareRoot (.symbol "x")]

theorem terms_roots :
    roots.terms = #[.symbol "x", .number (1 / 2), .squareRoot (.symbol "x")] :=
  terms_internAll (by decide +kernel) (by decide +kernel)

theorem reachable_roots : roots.Reachable :=
  reachable_internAll (by decide) (by decide +kernel)

/-- One half comes before the root of `x`, which comes before `x`. -/
theorem order_laws_roots : roots.Reachable ∧ roots.get? ⟨1⟩ = some (.number (1 / 2)) ∧
    roots.get? ⟨2⟩ = some (.squareRoot (.symbol "x")) ∧
      Term.compare (.number (1 / 2)) (.symbol "x") = .lt := by
  have hhalf : roots.get? ⟨1⟩ = some (.number (1 / 2)) := by
    rw [get?, terms_roots]
    rfl
  have hroot : roots.get? ⟨2⟩ = some (.squareRoot (.symbol "x")) := by
    rw [get?, terms_roots]
    rfl
  have hsymbol : (Term.symbol "x").Everywhere Term.HasOrderedExponent :=
    .of_parts trivial (by simp [Term.children])
  have hnumber : (Term.number (1 / 2)).Everywhere Term.HasOrderedExponent :=
    .of_parts trivial (by simp [Term.children])
  have hpower : (Term.squareRoot (.symbol "x")).Everywhere Term.HasOrderedExponent :=
    .of_parts trivial (List.forall_mem_cons.2 ⟨hsymbol, List.forall_mem_singleton.2 hnumber⟩)
  have hless : Term.compare (.squareRoot (.symbol "x")) (.symbol "x") = .lt := by
    rw [Term.squareRoot, Term.compare_power_plain rfl rfl, Term.compare_self]
    decide +kernel
  exact ⟨reachable_roots, hhalf, hroot, (reachable_roots.order_laws hhalf hroot (.symbol "x")).1.2.2
    hnumber hpower hsymbol rfl hless⟩

end Pool

end EquationSolver
