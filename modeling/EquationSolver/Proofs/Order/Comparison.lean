import EquationSolver.Term.Order
import Mathlib.Algebra.Order.Ring.Rat
import Mathlib.Data.List.Basic
import Mathlib.Logic.Relation

/-!
# Comparing terms

Terms that are no powers are compared by kind, then by what is at their heads, then by their
parts; a power is compared by its base and then by its exponent.  The comparison of two terms
is the reverse of that the other way round, and it finds terms equal only if they are, as far
as their approximate numbers are those that doubles give.
-/

namespace EquationSolver

namespace Term

/-! ### Parts of terms -/

/-- A term is within another if it is reached through parts of parts. -/
def IsWithin : Term → Term → Prop :=
  Relation.ReflTransGen fun u t => u ∈ t.children

/-- All terms within a term have the property. -/
def Everywhere (P : Term → Prop) (t : Term) : Prop :=
  ∀ u, u.IsWithin t → P u

variable {P : Term → Prop} {a b t u : Term}

theorem Everywhere.self (h : t.Everywhere P) : P t :=
  h t .refl

theorem Everywhere.of_mem_children (h : t.Everywhere P) (hu : u ∈ t.children) : u.Everywhere P :=
  fun v hv => h v (hv.tail hu)

theorem Everywhere.of_parts (ht : P t) (h : ∀ u ∈ t.children, u.Everywhere P) :
    t.Everywhere P := by
  intro v hv
  rcases Relation.ReflTransGen.cases_tail hv with rfl | ⟨u, hvu, hu⟩
  · exact ht
  · exact h u hu v hvu

theorem children_of_isAtom (h : t.isAtom = true) : t.children = [] := by
  cases t <;> first | rfl | cases h

theorem Everywhere.of_isAtom (h : t.isAtom = true) (ht : P t) : t.Everywhere P :=
  .of_parts ht fun _ hu => absurd (children_of_isAtom h ▸ hu) List.not_mem_nil

/-- The sum of terms with the property everywhere has it everywhere, if a sum of two or more of them
    has it. -/
theorem Everywhere.sumOf {ts : List Term} (h : ∀ t ∈ ts, t.Everywhere P) (hzero : P .zero)
    (hsum : P (.sum ts)) : (Term.sumOf ts).Everywhere P := by
  match ts, h, hsum with
  | [], _, _ => exact .of_isAtom rfl hzero
  | [t], h, _ => exact h t List.mem_cons_self
  | t :: u :: ts, h, hsum => exact .of_parts hsum h

/-- The product of factors with the property everywhere has it everywhere, if a product of two or
    more of them has it. -/
theorem Everywhere.productOf {ts : List Term} (h : ∀ t ∈ ts, t.Everywhere P) (hone : P .one)
    (hproduct : 2 ≤ ts.length → P (.product ts)) : (Term.productOf ts).Everywhere P := by
  match ts, h, hproduct with
  | [], _, _ => exact .of_isAtom rfl hone
  | [t], h, _ => exact h t List.mem_cons_self
  | t :: u :: ts, h, hproduct => exact .of_parts (hproduct (by simp)) h

theorem sizeOf_lt_of_mem_children (h : u ∈ t.children) : sizeOf u < sizeOf t := by
  cases t with
  | sum terms | product terms | matrix _ _ terms =>
    have hlt : sizeOf u < sizeOf terms := List.sizeOf_lt_of_mem h
    simp only [sum.sizeOf_spec, product.sizeOf_spec, matrix.sizeOf_spec]
    omega
  | power x e | quotient x e =>
    rcases List.mem_pair.1 h with rfl | rfl
    all_goals
      simp only [power.sizeOf_spec, quotient.sizeOf_spec]
      omega
  | negation x | apply _ x =>
    obtain rfl := List.mem_singleton.1 h
    simp only [negation.sizeOf_spec, apply.sizeOf_spec]
    omega
  | _ => exact absurd h List.not_mem_nil

/-! ### Terms that are no powers -/

def isPower : Term → Bool
  | .power _ _ => true
  | _ => false

/-- The order of two terms by kind, heads and parts. -/
def compareByKind (a b : Term) : Ordering :=
  ((Ord.compare a.rank b.rank).then (a.head.compare b.head)).then
    (compareLists a.children b.children)

@[simp] theorem compareRat_self (a : Rat) : compareRat a a = .eq := by
  simp [compareRat]

theorem compare_plain (ha : a.isPower = false) (hb : b.isPower = false) :
    compare a b = compareByKind a b := by
  cases a <;> cases b <;> first
    | exact Bool.noConfusion ha
    | exact Bool.noConfusion hb
    | simp [compare, againstPower, compareByKind, Head.compare, head, rank, children,
        compareLists, Binary64.compareBits, Nat.compare_eq_lt.2, Nat.compare_eq_gt.2]

/-! ### Powers -/

section Powers

variable {x e y f : Term}

theorem compare_power_power :
    compare (.power x e) (.power y f) = (compare x y).then (compare e f) := rfl

theorem compare_power_numeric (hb : b.isNumeric = true) : compare (.power x e) b = .gt := by
  cases b <;> first
    | exact Bool.noConfusion hb
    | rfl

theorem compare_numeric_power (ha : a.isNumeric = true) : compare a (.power y f) = .lt := by
  cases a <;> first
    | exact Bool.noConfusion ha
    | rfl

theorem compare_power_plain (hb : b.isPower = false) (hn : b.isNumeric = false) :
    compare (.power x e) b = ((compare x b).then (compareWithOne e)).then .gt := by
  cases b <;> first
    | exact Bool.noConfusion hb
    | exact Bool.noConfusion hn
    | rfl

theorem compare_plain_power (ha : a.isPower = false) (hn : a.isNumeric = false) :
    compare a (.power y f) = ((compare a y).then (compareWithOne f).swap).then .lt := by
  cases a <;> first
    | exact Bool.noConfusion ha
    | exact Bool.noConfusion hn
    | rfl

/-- A term is a power or not. -/
theorem eq_power_or_isPower_eq_false (t : Term) : (∃ x e, t = .power x e) ∨ t.isPower = false := by
  cases t <;> simp [isPower]

end Powers

/-! ### The reverse -/

theorem compareRat_swap (a b : Rat) : compareRat b a = (compareRat a b).swap := by
  unfold compareRat
  rcases lt_trichotomy a b with h | h | h
  · simp [h, h.not_gt, h.ne']
  · simp [h]
  · simp [h, h.not_gt, h.ne']

theorem Head.compare_swap (g h : Head) : h.compare g = (g.compare h).swap := by
  simp only [Head.compare, Ordering.swap_then, Nat.compare_swap, Int.compare_swap,
    compareRat_swap g.value h.value, Std.OrientedOrd.eq_swap (a := h.name)]

theorem compareLists_swap {xs ys : List Term}
    (h : ∀ x ∈ xs, ∀ y ∈ ys, compare y x = (compare x y).swap) :
    compareLists ys xs = (compareLists xs ys).swap := by
  induction xs generalizing ys with
  | nil => cases ys <;> rfl
  | cons x xs ih =>
    cases ys with
    | nil => rfl
    | cons y ys =>
      have hfirst := h x List.mem_cons_self y List.mem_cons_self
      have hrest : compareLists ys xs = (compareLists xs ys).swap :=
        ih fun u hu v hv => h u (List.mem_cons_of_mem x hu) v (List.mem_cons_of_mem y hv)
      rw [compareLists, compareLists, hfirst, hrest, Ordering.swap_then]

/-- Terms compare the other way round in reverse. -/
theorem compare_swap (a b : Term) : compare b a = (compare a b).swap := by
  rcases eq_power_or_isPower_eq_false a with ⟨x, e, rfl⟩ | ha
  · rcases eq_power_or_isPower_eq_false b with ⟨y, f, rfl⟩ | hb
    · rw [compare_power_power, compare_power_power, Ordering.swap_then, compare_swap x y,
        compare_swap e f]
    · cases hn : b.isNumeric with
      | true =>
        rw [compare_numeric_power hn, compare_power_numeric hn]
        rfl
      | false =>
        rw [compare_plain_power hb hn, compare_power_plain hb hn, compare_swap x b]
        simp only [Ordering.swap_then]
        rfl
  · rcases eq_power_or_isPower_eq_false b with ⟨y, f, rfl⟩ | hb
    · cases hn : a.isNumeric with
      | true =>
        rw [compare_power_numeric hn, compare_numeric_power hn]
        rfl
      | false =>
        rw [compare_power_plain ha hn, compare_plain_power ha hn, compare_swap a y]
        simp only [Ordering.swap_then, Ordering.swap_swap]
        rfl
    · have hparts : compareLists b.children a.children =
          (compareLists a.children b.children).swap := compareLists_swap fun u hu v hv =>
        have hu := sizeOf_lt_of_mem_children hu
        have hv := sizeOf_lt_of_mem_children hv
        compare_swap u v
      rw [compare_plain hb ha, compare_plain ha hb, compareByKind, compareByKind, hparts,
        Head.compare_swap a.head b.head, Std.OrientedOrd.eq_swap (a := b.rank), Ordering.swap_then,
        Ordering.swap_then]
termination_by sizeOf a + sizeOf b
decreasing_by
  all_goals
    subst_vars
    try simp only [power.sizeOf_spec]
    omega

@[simp] theorem compare_self (a : Term) : compare a a = .eq := by
  have h := compare_swap a a
  revert h
  cases compare a a <;> simp

/-! ### Equality -/

/-- Approximate numbers are those that doubles give: both zeros are one. -/
def IsStandard : Term → Prop
  | .decimal bits => bits.toNat ≠ Binary64.signWord
  | _ => True

theorem eq_of_compareRat_eq {a b : Rat} (h : compareRat a b = .eq) : a = b := by
  unfold compareRat at h
  split at h
  · cases h
  · split at h
    case isTrue heq => exact heq
    case isFalse => cases h

theorem orderKey_of_lt {bits : UInt64} (h : bits.toNat < Binary64.signWord) :
    Binary64.orderKey bits = bits.toNat := by
  have hsign : Binary64.signBit bits = false := by
    rw [Binary64.signBit, Nat.div_eq_of_lt h]
    rfl
  rw [Binary64.orderKey, if_neg (by rw [hsign]; exact Bool.false_ne_true)]

theorem orderKey_of_le {bits : UInt64} (h : Binary64.signWord ≤ bits.toNat) :
    Binary64.orderKey bits = -((bits.toNat - Binary64.signWord : Nat) : Int) := by
  have hbound := bits.toNat_lt
  have hsign : Binary64.signBit bits = true := by
    rw [Binary64.signBit, decide_eq_true_eq]
    unfold Binary64.signWord at h ⊢
    omega
  rw [Binary64.orderKey, if_pos hsign]

theorem eq_of_orderKey_eq {a b : UInt64} (ha : a.toNat ≠ Binary64.signWord)
    (hb : b.toNat ≠ Binary64.signWord) (hkey : Binary64.orderKey a = Binary64.orderKey b) :
    a = b := by
  refine UInt64.toNat_inj.1 ?_
  rcases Nat.lt_or_ge a.toNat Binary64.signWord with hlt | hge
  · rcases Nat.lt_or_ge b.toNat Binary64.signWord with hlt' | hge'
    · rw [orderKey_of_lt hlt, orderKey_of_lt hlt'] at hkey
      omega
    · rw [orderKey_of_lt hlt, orderKey_of_le hge'] at hkey
      omega
  · rcases Nat.lt_or_ge b.toNat Binary64.signWord with hlt' | hge'
    · rw [orderKey_of_le hge, orderKey_of_lt hlt'] at hkey
      omega
    · rw [orderKey_of_le hge, orderKey_of_le hge'] at hkey
      omega

theorem Head.eq_of_compare_eq {g h : Head} (heq : g.compare h = .eq) : g = h := by
  simp only [Head.compare, Ordering.then_eq_eq, Nat.compare_eq_eq, Int.compare_eq_eq] at heq
  obtain ⟨⟨⟨⟨hvalue, hkey⟩, hname⟩, hfirst⟩, hsecond⟩ := heq
  exact Head.ext (eq_of_compareRat_eq hvalue) hkey (Std.LawfulEqOrd.eq_of_compare hname) hfirst
    hsecond

theorem Function.rank_injective {f g : Function} (h : f.rank = g.rank) : f = g := by
  cases f <;> cases g <;> first
    | rfl
    | exact absurd h (by decide)

theorem Constant.rank_injective {c d : Constant} (h : c.rank = d.rank) : c = d := by
  cases c <;> cases d <;> first
    | rfl
    | exact absurd h (by decide)

/-- A term is determined by its kind, its head and its parts. -/
theorem eq_of_head_eq (ha : a.IsStandard) (hb : b.IsStandard) (hrank : a.rank = b.rank)
    (hhead : a.head = b.head) (hchildren : a.children = b.children) : a = b := by
  cases a with
  | decimal x =>
    cases b with
    | decimal y => rw [eq_of_orderKey_eq ha hb (congrArg Head.key hhead)]
    | _ => simp [rank] at hrank
  | constant c =>
    cases b with
    | constant d => rw [Constant.rank_injective (congrArg Head.first hhead)]
    | _ => simp [rank] at hrank
  | apply f x =>
    cases b with
    | apply g y =>
      rw [Function.rank_injective (congrArg Head.first hhead)]
      simpa [children] using hchildren
    | _ => simp [rank] at hrank
  | _ => cases b <;> simp_all [rank, head, children]

theorem eq_of_compareLists_eq {xs ys : List Term}
    (h : ∀ x ∈ xs, ∀ y ∈ ys, compare x y = .eq → x = y) (heq : compareLists xs ys = .eq) :
    xs = ys := by
  induction xs generalizing ys with
  | nil =>
    cases ys with
    | nil => rfl
    | cons y ys => cases heq
  | cons x xs ih =>
    cases ys with
    | nil => cases heq
    | cons y ys =>
      rw [compareLists, Ordering.then_eq_eq] at heq
      obtain ⟨hfirst, hrest⟩ := heq
      rw [h x List.mem_cons_self y List.mem_cons_self hfirst,
        ih (fun u hu v hv => h u (List.mem_cons_of_mem x hu) v (List.mem_cons_of_mem y hv)) hrest]

theorem compare_power_ne_eq {x e : Term} (hb : b.isPower = false) :
    compare (.power x e) b ≠ .eq := by
  cases hn : b.isNumeric with
  | true => simp [compare_power_numeric hn]
  | false => simp [compare_power_plain hb hn]

/-- Only equal terms compare as equal. -/
theorem eq_of_compare_eq {a b : Term} (ha : a.Everywhere IsStandard)
    (hb : b.Everywhere IsStandard) (h : compare a b = .eq) : a = b := by
  rcases eq_power_or_isPower_eq_false a with ⟨x, e, rfl⟩ | hplain
  · rcases eq_power_or_isPower_eq_false b with ⟨y, f, rfl⟩ | hplain'
    · rw [compare_power_power, Ordering.then_eq_eq] at h
      have hbase := eq_of_compare_eq (ha.of_mem_children (u := x) (by simp [children]))
        (hb.of_mem_children (u := y) (by simp [children])) h.1
      have hexponent := eq_of_compare_eq (ha.of_mem_children (u := e) (by simp [children]))
        (hb.of_mem_children (u := f) (by simp [children])) h.2
      rw [hbase, hexponent]
    · exact absurd h (compare_power_ne_eq hplain')
  · rcases eq_power_or_isPower_eq_false b with ⟨y, f, rfl⟩ | hplain'
    · rw [compare_swap (.power y f) a, Ordering.swap_eq_eq] at h
      exact absurd h (compare_power_ne_eq hplain)
    · rw [compare_plain hplain hplain', compareByKind, Ordering.then_eq_eq,
        Ordering.then_eq_eq] at h
      obtain ⟨⟨hrank, hheads⟩, hlists⟩ := h
      refine eq_of_head_eq ha.self hb.self (Nat.compare_eq_eq.1 hrank) (Head.eq_of_compare_eq hheads) ?_
      refine eq_of_compareLists_eq (fun u hu v hv => ?_) hlists
      have hsize := sizeOf_lt_of_mem_children hu
      exact eq_of_compare_eq (ha.of_mem_children hu) (hb.of_mem_children hv)
termination_by sizeOf a
decreasing_by
  all_goals
    subst_vars
    try simp only [power.sizeOf_spec]
    omega

theorem compare_eq_iff (ha : a.Everywhere IsStandard) (hb : b.Everywhere IsStandard) :
    compare a b = .eq ↔ a = b := by
  refine ⟨eq_of_compare_eq ha hb, fun h => ?_⟩
  rw [h, compare_self]

end Term

end EquationSolver
