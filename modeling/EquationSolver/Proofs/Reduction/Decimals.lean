import EquationSolver.Proofs.Reduction.Inheritance
import EquationSolver.Proofs.Value.Symbols

/-!
# Decimals come from decimals

Exact operands have exact results: a sum, a product or a power of terms in which no decimal occurs
has none either, whatever the limits are.  A number that is too large to be computed exactly is
left as a power and not approximated.
-/

namespace EquationSolver

/-! ### Terms without decimals -/

namespace Term

/-- No approximate number occurs in the term. -/
def IsDecimalFree (t : Term) : Prop :=
  t.containsDecimal = false

variable {ts : List Term} {a b : Term}

@[simp] theorem isDecimalFree_number (a : Rat) : (number a).IsDecimalFree := rfl

@[simp] theorem not_isDecimalFree_decimal (bits : UInt64) : ¬ (decimal bits).IsDecimalFree :=
  Bool.noConfusion

@[simp] theorem isDecimalFree_undefined : undefined.IsDecimalFree := rfl

@[simp] theorem isDecimalFree_nonreal : nonreal.IsDecimalFree := rfl

@[simp] theorem isDecimalFree_zero : zero.IsDecimalFree := rfl

@[simp] theorem isDecimalFree_one : one.IsDecimalFree := rfl

@[simp] theorem isDecimalFree_sum : (sum ts).IsDecimalFree ↔ ∀ t ∈ ts, t.IsDecimalFree := by
  simp [IsDecimalFree, containsDecimal, contains, containsAny_eq_false_iff]

@[simp] theorem isDecimalFree_product :
    (product ts).IsDecimalFree ↔ ∀ t ∈ ts, t.IsDecimalFree := by
  simp [IsDecimalFree, containsDecimal, contains, containsAny_eq_false_iff]

@[simp] theorem isDecimalFree_power :
    (power a b).IsDecimalFree ↔ a.IsDecimalFree ∧ b.IsDecimalFree := by
  simp [IsDecimalFree, containsDecimal, contains]

theorem isDecimalFree_of_mem_children {t u : Term} (h : t.IsDecimalFree) (hu : u ∈ t.children) :
    u.IsDecimalFree :=
  contains_eq_false_of_mem_children h hu

theorem IsDecimalFree.of_isWithin {t u : Term} (h : t.IsDecimalFree) (hu : u.IsWithin t) :
    u.IsDecimalFree :=
  contains_eq_false_iff.2 fun v hv => contains_eq_false_iff.1 h v (hv.trans hu)

theorem isDecimalFree_sumOf (h : ∀ t ∈ ts, t.IsDecimalFree) : (sumOf ts).IsDecimalFree := by
  unfold sumOf
  split
  · exact isDecimalFree_zero
  · exact h _ List.mem_cons_self
  · exact isDecimalFree_sum.2 h

theorem isDecimalFree_productOf (h : ∀ t ∈ ts, t.IsDecimalFree) :
    (productOf ts).IsDecimalFree := by
  unfold productOf
  split
  · exact isDecimalFree_one
  · exact h _ List.mem_cons_self
  · exact isDecimalFree_product.2 h

end Term

open Term

/-- The coefficient of a term without decimals is exact. -/
theorem Coefficient.isExact_of {t : Term} {c : Coefficient} (ht : t.IsDecimalFree)
    (h : Coefficient.of? t = some c) : c.IsExact := by
  cases t with
  | number a => exact ⟨a, (Option.some.inj h).symm⟩
  | decimal bits => exact absurd ht (not_isDecimalFree_decimal bits)
  | _ => cases h

theorem Coefficient.IsExact.isDecimalFree {c : Coefficient} (h : c.IsExact) :
    c.toTerm.IsDecimalFree := by
  obtain ⟨a, rfl⟩ := h
  exact isDecimalFree_number a

namespace Reduction

variable {s : Settings} {operands terms factors : List Term} {t : Term} {c : Coefficient}

theorem isDecimalFree_poison {poison : Term} (h : poison? operands = some poison) :
    poison.IsDecimalFree := by
  rcases eq_of_poison?_eq_some h with rfl | rfl <;> simp

/-! ### Sums -/

theorem isDecimalFree_flatMap_summands (h : ∀ t ∈ terms, t.IsDecimalFree) :
    ∀ u ∈ terms.flatMap summands, u.IsDecimalFree :=
  forall_mem_flatMap_summands (fun _ ht _ hu => isDecimalFree_of_mem_children ht hu) h

/-- A body without decimals, if there is one, with an exact coefficient. -/
structure IsDecimalFreePart (part : Option Term × Coefficient) : Prop where
  exact : part.2.IsExact
  body : ∀ t ∈ part.1, t.IsDecimalFree

theorem isDecimalFreePart_splitTerm (h : t.IsDecimalFree) :
    IsDecimalFreePart ((splitTerm t).value.2, (splitTerm t).value.1) := by
  refine splitTerm_cases (P := fun body c => IsDecimalFreePart (body, c)) ?_ ?_ ?_
  · exact fun c hc => ⟨Coefficient.isExact_of h hc, nofun⟩
  · rintro first rest c rfl hc
    obtain ⟨hfirst, hrest⟩ := List.forall_mem_cons.1 (isDecimalFree_product.1 h)
    refine ⟨Coefficient.isExact_of hfirst hc, ?_⟩
    simpa using isDecimalFree_productOf hrest
  · exact fun _ _ => ⟨Coefficient.isExact_one, by simpa using h⟩

theorem isDecimalFree_joinTerm {body : Option Term} (h : IsDecimalFreePart (body, c)) :
    (joinTerm c body).value.IsDecimalFree := by
  have hc : c.toTerm.IsDecimalFree := h.exact.isDecimalFree
  refine joinTerm_cases (fun _ => hc) (fun t ht _ => h.body t ht) ?_ ?_
  · intro factors hbody _
    have hfactors := isDecimalFree_product.1 (h.body _ hbody)
    exact isDecimalFree_productOf (List.forall_mem_cons.2 ⟨hc, hfactors⟩)
  · intro t hbody _ _
    exact isDecimalFree_productOf (IsInherited.pair hc (h.body t hbody))

theorem isAdditive_isDecimalFreePart : IsAdditive fun body c => IsDecimalFreePart (body, c) :=
  fun _ _ _ hc hd => ⟨(hc.exact.add (K := ℚ) hd.exact).1, hc.body⟩

theorem isDecimalFree_add (h : ∀ t ∈ terms, t.IsDecimalFree) : (add terms).value.IsDecimalFree := by
  have hflat := isDecimalFree_flatMap_summands h
  refine add_cases (fun _ => isDecimalFree_poison) (fun _ => isDecimalFree_sumOf hflat) ?_
  intro _ ts hts
  refine isDecimalFree_sumOf fun t ht => ?_
  obtain ⟨part, hpart, rfl⟩ := List.mem_map.1 (hts.mem_iff.1 ht)
  exact isDecimalFree_joinTerm (isAdditive_isDecimalFreePart.collectedParts
    (fun u hu => isDecimalFreePart_splitTerm (hflat u hu)) part hpart).1

/-! ### Products and powers -/

theorem isDecimalFree_sortedProduct (hc : c.IsExact) (h : ∀ t ∈ factors, t.IsDecimalFree) :
    (sortedProduct c factors).value.IsDecimalFree := by
  have hsorted : ∀ t ∈ sortBy Term.compare factors, t.IsDecimalFree :=
    fun t ht => h t ((sortBy_perm _ _).mem_iff.1 ht)
  refine sortedProduct_cases (fun _ => hc.isDecimalFree) (fun _ _ => ?_) fun _ _ => ?_
  · exact isDecimalFree_productOf hsorted
  · exact isDecimalFree_productOf (List.forall_mem_cons.2 ⟨hc.isDecimalFree, hsorted⟩)

theorem isDecimalFree_matrixProduct (hc : c.IsExact) (h : ∀ t ∈ factors, t.IsDecimalFree) :
    (matrixProduct c factors).value.IsDecimalFree :=
  matrixProduct_cases (isDecimalFree_productOf h)
    (isDecimalFree_productOf (List.forall_mem_cons.2 ⟨hc.isDecimalFree, h⟩))

theorem isInherited_isDecimalFree (s : Settings) :
    IsInherited s Term.IsDecimalFree Coefficient.IsExact where
  part := isDecimalFree_of_mem_children
  number := isDecimalFree_number
  constant _ := rfl
  undefined := isDecimalFree_undefined
  nonreal := isDecimalFree_nonreal
  double h := absurd h (not_isDecimalFree_decimal _)
  read := Coefficient.isExact_of
  times hc hd := (hc.mul (K := ℚ) hd).1
  written := Coefficient.IsExact.isDecimalFree
  rest h := isDecimalFree_productOf (List.forall_mem_cons.1 (isDecimalFree_product.1 h)).2
  add := isDecimalFree_add
  sortedProduct hc _ _ _ h := isDecimalFree_sortedProduct hc h
  matrixProduct hc _ _ h := isDecimalFree_matrixProduct hc h
  power hbase hexponent _ := isDecimalFree_power.2 ⟨hbase, hexponent⟩

theorem isDecimalFree_mul (h : ∀ t ∈ factors, t.IsDecimalFree) :
    (mul s factors).value.IsDecimalFree :=
  (isInherited_isDecimalFree s).mul h

theorem isDecimalFree_pow {base exponent : Term} (hbase : base.IsDecimalFree)
    (hexponent : exponent.IsDecimalFree) : (pow s base exponent).value.IsDecimalFree :=
  (isInherited_isDecimalFree s).pow hbase hexponent

end Reduction

end EquationSolver
