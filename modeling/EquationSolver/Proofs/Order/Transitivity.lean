import EquationSolver.Proofs.Order.Comparison

/-!
# The order of terms is transitive

A term is a core that is no power under exponents, of which the innermost is compared first.
Read from the core outwards, the order of factors is lexicographic: numbers under powers come
first, then the cores decide, then how many exponents there are and on which side of one the
innermost is, then the exponents.  This needs that an exponent less than one comes before all
others, which an approximate one does not.
-/

namespace EquationSolver

/-! ### Comparisons in a row -/

/-- The first of two comparisons in a row that tells decides the one across them. -/
def Composes (x y z : Ordering) : Prop :=
  x ≠ .gt → y ≠ .gt → z = x.then y

namespace Composes

variable {x y z x' y' z' : Ordering}

theorem trans_lt (h : Composes .lt .lt z) : z = .lt :=
  h nofun nofun

/-- Comparisons that descend. -/
theorem symm (h : Composes y x z) : Composes x y z := by
  intro hx hy
  rw [h hy hx]
  cases x <;> cases y <;> first
    | rfl
    | exact absurd rfl hx
    | exact absurd rfl hy

/-- Lexicographic comparisons in a row. -/
theorem lex (h : Composes x y z) (h' : x = .eq → y = .eq → Composes x' y' z') :
    Composes (x.then x') (y.then y') (z.then z') := by
  intro hx hy
  cases x with
  | gt => exact absurd rfl hx
  | lt =>
    have hz : z = .lt := h nofun fun heq => hy (by rw [heq]; rfl)
    rw [hz]
    rfl
  | eq =>
    cases y with
    | gt => exact absurd rfl hy
    | lt =>
      have hz : z = .lt := h nofun nofun
      rw [hz]
      revert hx
      cases x' <;> simp
    | eq =>
      have hz : z = .eq := h nofun nofun
      rw [hz]
      exact h' rfl rfl hx hy

theorem then_eq (h : Composes x y z) (h' : Composes x' y' z') :
    Composes (x.then x') (y.then y') (z.then z') :=
  h.lex fun _ _ => h'

end Composes

theorem composes_compare {α : Type} [Ord α] [Std.TransOrd α] [Std.LawfulEqOrd α] (a b c : α) :
    Composes (compare a b) (compare b c) (compare a c) := by
  intro hab hbc
  cases h : compare a b with
  | gt => exact absurd h hab
  | eq =>
    rw [Std.LawfulEqOrd.eq_of_compare h]
    rfl
  | lt =>
    cases h' : compare b c with
    | gt => exact absurd h' hbc
    | eq =>
      rw [← Std.LawfulEqOrd.eq_of_compare h', h]
      rfl
    | lt => exact Std.TransCmp.lt_trans h h'

theorem composes_compareRat (a b c : Rat) :
    Composes (compareRat a b) (compareRat b c) (compareRat a c) := by
  have hlt {a b : Rat} : compareRat a b = .lt ↔ a < b := by
    unfold compareRat
    split_ifs <;> simp_all
  intro hab hbc
  cases h : compareRat a b with
  | gt => exact absurd h hab
  | eq =>
    rw [Term.eq_of_compareRat_eq h]
    rfl
  | lt =>
    cases h' : compareRat b c with
    | gt => exact absurd h' hbc
    | eq =>
      rw [← Term.eq_of_compareRat_eq h', h]
      rfl
    | lt => exact hlt.2 ((hlt.1 h).trans (hlt.1 h'))

namespace Term

theorem Head.composes_compare (g h k : Head) :
    Composes (g.compare h) (h.compare k) (g.compare k) :=
  ((((composes_compareRat _ _ _).then_eq (EquationSolver.composes_compare _ _ _)).then_eq
    (EquationSolver.composes_compare _ _ _)).then_eq
      (EquationSolver.composes_compare _ _ _)).then_eq (EquationSolver.composes_compare _ _ _)

theorem composes_compareLists {xs ys zs : List Term}
    (h : ∀ x ∈ xs, ∀ y ∈ ys, ∀ z ∈ zs, Composes (compare x y) (compare y z) (compare x z)) :
    Composes (compareLists xs ys) (compareLists ys zs) (compareLists xs zs) := by
  induction xs generalizing ys zs with
  | nil =>
    cases ys with
    | nil => cases zs <;> simp [compareLists, Composes]
    | cons y ys => cases zs <;> simp [compareLists, Composes]
  | cons x xs ih =>
    cases ys with
    | nil => simp [compareLists, Composes]
    | cons y ys =>
      cases zs with
      | nil => simp [compareLists, Composes]
      | cons z zs =>
        have hfirst := h x List.mem_cons_self y List.mem_cons_self z List.mem_cons_self
        exact hfirst.then_eq (ih fun u hu v hv w hw => h u (List.mem_cons_of_mem x hu) v
          (List.mem_cons_of_mem y hv) w (List.mem_cons_of_mem z hw))

/-! ### Terms from the core outwards -/

/-- What is left of a term without its exponents. -/
def core : Term → Term
  | .power x _ => core x
  | t => t

/-- The exponents of a term, the innermost first. -/
def exponents : Term → List Term
  | .power x e => exponents x ++ [e]
  | _ => []

/-- The number of exponents, negative when the innermost comes before the first power. -/
def level : Term → Int
  | .power x e =>
    if level x < 0 then level x - 1
    else if 0 < level x then level x + 1
    else if compareWithOne e = .lt then -1
    else 1
  | _ => 0

/-- Cores that are no numbers come after those that are, which their exponents order. -/
def compareTiers (a b : Term) : Ordering :=
  (Ord.compare (!a.core.isNumeric).toNat (!b.core.isNumeric).toNat).then
    (if a.core.isNumeric then Ord.compare a.exponents.length b.exponents.length else .eq)

/-- The order of terms from the core outwards. -/
def compareOutwards (a b : Term) : Ordering :=
  ((compareTiers a b).then (compare a.core b.core)).then
    ((Ord.compare a.level b.level).then (compareLists a.exponents b.exponents))

/-- A power whose exponent is approximate has it no less than one. -/
def HasOrderedExponent : Term → Prop
  | .power _ (.decimal bits) => Binary64.compareBits bits Binary64.oneBits ≠ .lt
  | _ => True

variable {a b c t x e y f : Term}

theorem core_eq_self (h : t.isPower = false) : t.core = t := by
  cases t <;> first
    | exact Bool.noConfusion h
    | rfl

theorem exponents_eq_nil (h : t.isPower = false) : t.exponents = [] := by
  cases t <;> first
    | exact Bool.noConfusion h
    | rfl

theorem level_eq_zero (h : t.isPower = false) : t.level = 0 := by
  cases t <;> first
    | exact Bool.noConfusion h
    | rfl

theorem isPower_core (t : Term) : t.core.isPower = false := by
  rcases eq_power_or_isPower_eq_false t with ⟨x, e, rfl⟩ | h
  · exact isPower_core x
  · rw [core_eq_self h, h]

theorem natAbs_level (t : Term) : t.level.natAbs = t.exponents.length := by
  rcases eq_power_or_isPower_eq_false t with ⟨x, e, rfl⟩ | h
  · have ih := natAbs_level x
    rw [exponents, List.length_append, ← ih, level]
    split_ifs <;> simp <;> omega
  · rw [level_eq_zero h, exponents_eq_nil h]
    rfl

theorem isWithin_core (t : Term) : t.core.IsWithin t := by
  rcases eq_power_or_isPower_eq_false t with ⟨x, e, rfl⟩ | h
  · exact (isWithin_core x).tail (by simp [children])
  · rw [core_eq_self h]
    exact .refl

theorem isWithin_of_mem_exponents {t e : Term} (he : e ∈ t.exponents) : e.IsWithin t := by
  rcases eq_power_or_isPower_eq_false t with ⟨x, f, rfl⟩ | h
  · rcases List.mem_append.1 he with he | he
    · exact (isWithin_of_mem_exponents he).tail (by simp [children])
    · rw [List.mem_singleton.1 he]
      exact .single (by simp [children])
  · rw [exponents_eq_nil h] at he
    cases he

theorem sizeOf_core_le (t : Term) : sizeOf t.core ≤ sizeOf t := by
  rcases eq_power_or_isPower_eq_false t with ⟨x, e, rfl⟩ | h
  · have ih := sizeOf_core_le x
    rw [core, power.sizeOf_spec]
    omega
  · rw [core_eq_self h]

theorem sizeOf_lt_of_mem_exponents {t e : Term} (he : e ∈ t.exponents) : sizeOf e < sizeOf t := by
  rcases eq_power_or_isPower_eq_false t with ⟨x, f, rfl⟩ | h
  · rw [power.sizeOf_spec]
    rcases List.mem_append.1 he with he | he
    · have ih := sizeOf_lt_of_mem_exponents he
      omega
    · rw [List.mem_singleton.1 he]
      omega
  · rw [exponents_eq_nil h] at he
    cases he

/-! ### The order of factors from the core outwards -/

/-- An exponent less than one comes before one that is not. -/
theorem compare_eq_lt_of_compareWithOne (he : (power x e).HasOrderedExponent)
    (hlt : compareWithOne e = .lt) (hge : compareWithOne f ≠ .lt) : compare e f = .lt := by
  cases e with
  | number p =>
    cases f with
    | number q =>
      simp only [compareWithOne, compareRat] at hlt hge
      have hp : p < 1 := by
        by_contra hnot
        split_ifs at hlt
      have hq : ¬q < 1 := fun hq => hge (by rw [if_pos hq])
      simp only [compare, compareRat, if_pos (hp.trans_le (not_lt.1 hq))]
    | _ => rfl
  | decimal bits => exact absurd hlt he
  | _ => cases hlt

theorem compareLists_append {xs ys xs' ys' : List Term} (h : xs.length = ys.length) :
    compareLists (xs ++ xs') (ys ++ ys') = (compareLists xs ys).then (compareLists xs' ys') := by
  induction xs generalizing ys with
  | nil =>
    obtain rfl := List.eq_nil_of_length_eq_zero h.symm
    rfl
  | cons x xs ih =>
    cases ys with
    | nil => cases h
    | cons y ys =>
      rw [List.cons_append, List.cons_append, compareLists, compareLists,
        ih (Nat.succ_injective h), Ordering.then_assoc]

theorem level_power_lt (h : x.level < y.level) : (power x e).level < (power y f).level := by
  rw [level, level]
  split_ifs <;> omega

/-- Under one more exponent each, terms compare as before, and then by those. -/
theorem compareOutwards_power (he : (power x e).HasOrderedExponent)
    (hf : (power y f).HasOrderedExponent) :
    compareOutwards (.power x e) (.power y f) = (compareOutwards x y).then (compare e f) := by
  have htiers : compareTiers (.power x e) (.power y f) = compareTiers x y := by
    have hlength : Ord.compare (power x e).exponents.length (power y f).exponents.length =
        Ord.compare x.exponents.length y.exponents.length := by
      simp only [exponents, List.length_append, List.length_singleton, Nat.compare_eq_ite_lt,
        Nat.add_lt_add_iff_right]
    rw [compareTiers, compareTiers, hlength]
    rfl
  have hrest : (Ord.compare (power x e).level (power y f).level).then
      (compareLists (power x e).exponents (power y f).exponents) =
      ((Ord.compare x.level y.level).then (compareLists x.exponents y.exponents)).then
        (compare e f) := by
    rcases lt_trichotomy x.level y.level with hlt | heq | hgt
    · rw [Int.compare_eq_lt.2 hlt, Int.compare_eq_lt.2 (level_power_lt hlt)]
      rfl
    · have hlength : x.exponents.length = y.exponents.length := by
        rw [← natAbs_level, ← natAbs_level, heq]
      have hlists : compareLists (power x e).exponents (power y f).exponents =
          (compareLists x.exponents y.exponents).then (compare e f) := by
        rw [exponents, exponents, compareLists_append hlength]
        simp [compareLists]
      rw [Int.compare_eq_eq.2 heq, hlists]
      by_cases hzero : x.level = 0
      · have hnil : x.exponents = [] ∧ y.exponents = [] := by
          have hx := natAbs_level x
          have hy := natAbs_level y
          rw [← heq] at hy
          rw [hzero] at hx hy
          exact ⟨List.eq_nil_of_length_eq_zero hx.symm, List.eq_nil_of_length_eq_zero hy.symm⟩
        have hx : (power x e).level = if compareWithOne e = .lt then -1 else 1 := by
          simp [level, hzero]
        have hy : (power y f).level = if compareWithOne f = .lt then -1 else 1 := by
          simp [level, ← heq, hzero]
        rw [hx, hy, hnil.1, hnil.2]
        -- exponents on the two sides of one compare as their sides do
        split_ifs with h h'
        · rfl
        · rw [compare_eq_lt_of_compareWithOne he h h']
          rfl
        · rw [compare_swap f e, compare_eq_lt_of_compareWithOne hf ‹_› h]
          rfl
        · rfl
      · have hlevel : (power x e).level = (power y f).level := by
          rw [level, level, ← heq]
          split_ifs <;> omega
        rw [Int.compare_eq_eq.2 hlevel]
        rfl
    · rw [Int.compare_eq_gt.2 hgt, Int.compare_eq_gt.2 (level_power_lt hgt)]
      rfl
  rw [compareOutwards, compareOutwards, htiers, hrest, core, core]
  simp only [Ordering.then_assoc]

theorem compareOutwards_swap (a b : Term) : compareOutwards b a = (compareOutwards a b).swap := by
  have htiers : compareTiers b a = (compareTiers a b).swap := by
    unfold compareTiers
    cases a.core.isNumeric <;> cases b.core.isNumeric <;> first
      | rfl
      | simp [Nat.compare_swap]
  have hlists : compareLists b.exponents a.exponents =
      (compareLists a.exponents b.exponents).swap :=
    compareLists_swap fun x _ y _ => compare_swap x y
  rw [compareOutwards, compareOutwards, htiers, compare_swap a.core b.core, hlists,
    ← Int.compare_swap a.level b.level]
  simp only [Ordering.swap_then]

theorem compare_numeric_plain (ha : a.isNumeric = true) (hb : b.isNumeric = false) :
    compare a b = .lt := by
  cases a <;> first
    | exact Bool.noConfusion ha
    | (cases b <;> first
        | exact Bool.noConfusion hb
        | rfl)

theorem compareOutwards_plain (ha : a.isPower = false) (hb : b.isPower = false) :
    compareOutwards a b = compare a b := by
  rw [compareOutwards, compareTiers, core_eq_self ha, core_eq_self hb, level_eq_zero ha,
    level_eq_zero hb, exponents_eq_nil ha, exponents_eq_nil hb]
  cases hna : a.isNumeric with
  | true =>
    cases hnb : b.isNumeric with
    | true => simp [compareLists]
    | false =>
      rw [compare_numeric_plain hna hnb]
      rfl
  | false =>
    cases hnb : b.isNumeric with
    | true =>
      rw [compare_swap b a, compare_numeric_plain hnb hna]
      rfl
    | false => simp [compareLists]

/-- A power and a term that is no power compare by core and side of one. -/
theorem compareOutwards_power_plain (hb : b.isPower = false)
    (ih : compare x b = compareOutwards x b) :
    compareOutwards (.power x e) b = compare (.power x e) b := by
  have hcore : (power x e).core = x.core := rfl
  cases hnb : b.isNumeric with
  | true =>
    rw [compare_power_numeric hnb, compareOutwards, compareTiers, hcore, core_eq_self hb,
      exponents_eq_nil hb, hnb]
    cases hnx : x.core.isNumeric with
    | true => simp [exponents, Nat.compare_eq_gt.2]
    | false => rfl
  | false =>
    rw [compare_power_plain hb hnb, ih, compareOutwards, compareOutwards, compareTiers,
      compareTiers, hcore, core_eq_self hb, exponents_eq_nil hb, level_eq_zero hb, hnb]
    cases hnx : x.core.isNumeric with
    | true => rfl
    | false =>
      have hrest : (Ord.compare (power x e).level 0).then (compareLists (power x e).exponents []) =
          ((((Ord.compare x.level 0).then (compareLists x.exponents [])).then
            (compareWithOne e)).then .gt) := by
        rcases lt_trichotomy x.level 0 with hlt | heq | hgt
        · have hlevel : (power x e).level < 0 := by
            rw [level, if_pos hlt]
            omega
          rw [Int.compare_eq_lt.2 hlt, Int.compare_eq_lt.2 hlevel]
          rfl
        · have hnil : x.exponents = [] := by
            have hx := natAbs_level x
            rw [heq] at hx
            exact List.eq_nil_of_length_eq_zero hx.symm
          have hlevel : (power x e).level = if compareWithOne e = .lt then -1 else 1 := by
            simp [level, heq]
          rw [heq, hnil, hlevel]
          cases compareWithOne e <;> rfl
        · have hlevel : 0 < (power x e).level := by
            rw [level, if_neg hgt.not_gt, if_pos hgt]
            omega
          rw [Int.compare_eq_gt.2 hgt, Int.compare_eq_gt.2 hlevel]
          rfl
      rw [hrest]
      simp only [Bool.false_eq_true, if_false, Ordering.then_assoc]

/-- The order of factors goes from the core outwards. -/
theorem compare_eq_compareOutwards (a b : Term) (ha : a.Everywhere HasOrderedExponent)
    (hb : b.Everywhere HasOrderedExponent) : compare a b = compareOutwards a b := by
  rcases eq_power_or_isPower_eq_false a with ⟨x, e, rfl⟩ | hplain
  · have hx := ha.of_mem_children (u := x) (by simp [children])
    rcases eq_power_or_isPower_eq_false b with ⟨y, f, rfl⟩ | hplain'
    · have hy := hb.of_mem_children (u := y) (by simp [children])
      rw [compareOutwards_power ha.self hb.self, ← compare_eq_compareOutwards x y hx hy,
        compare_power_power]
    · exact (compareOutwards_power_plain hplain' (compare_eq_compareOutwards x b hx hb)).symm
  · rcases eq_power_or_isPower_eq_false b with ⟨y, f, rfl⟩ | hplain'
    · have hy := hb.of_mem_children (u := y) (by simp [children])
      rw [compare_swap (.power y f) a, compareOutwards_swap (.power y f) a,
        compareOutwards_power_plain hplain (compare_eq_compareOutwards y a hy ha)]
    · exact (compareOutwards_plain hplain hplain').symm
termination_by sizeOf a + sizeOf b
decreasing_by
  all_goals
    subst_vars
    simp only [power.sizeOf_spec]
    omega

/-! ### Transitivity -/

theorem composes_compareTiers (a b c : Term) :
    Composes (compareTiers a b) (compareTiers b c) (compareTiers a c) := by
  refine (EquationSolver.composes_compare _ _ _).lex fun hab _ => ?_
  have hnumeric : a.core.isNumeric = b.core.isNumeric := by
    have heq := Nat.compare_eq_eq.1 hab
    revert heq
    cases a.core.isNumeric <;> cases b.core.isNumeric <;> simp
  rw [← hnumeric]
  split
  · exact EquationSolver.composes_compare _ _ _
  · exact fun _ _ => rfl

/-- Terms with exponents in order are in order in a row. -/
theorem composes_compare (a b c : Term) (ha : a.Everywhere HasOrderedExponent)
    (hb : b.Everywhere HasOrderedExponent) (hc : c.Everywhere HasOrderedExponent) :
    Composes (compare a b) (compare b c) (compare a c) := by
  rw [compare_eq_compareOutwards a b ha hb, compare_eq_compareOutwards b c hb hc,
    compare_eq_compareOutwards a c ha hc]
  have hcore : Composes (compare a.core b.core) (compare b.core c.core)
      (compare a.core c.core) := by
    rw [compare_plain (isPower_core a) (isPower_core b),
      compare_plain (isPower_core b) (isPower_core c),
      compare_plain (isPower_core a) (isPower_core c)]
    refine ((EquationSolver.composes_compare _ _ _).then_eq
      (Head.composes_compare _ _ _)).then_eq ?_
    refine composes_compareLists fun u hu v hv w hw => ?_
    have hsize := (sizeOf_lt_of_mem_children hu).trans_le (sizeOf_core_le a)
    exact composes_compare u v w
      (fun t ht => ha t (ht.trans ((Relation.ReflTransGen.single hu).trans (isWithin_core a))))
      (fun t ht => hb t (ht.trans ((Relation.ReflTransGen.single hv).trans (isWithin_core b))))
      (fun t ht => hc t (ht.trans ((Relation.ReflTransGen.single hw).trans (isWithin_core c))))
  have hexponents : Composes (compareLists a.exponents b.exponents)
      (compareLists b.exponents c.exponents) (compareLists a.exponents c.exponents) := by
    refine composes_compareLists fun u hu v hv w hw => ?_
    have hsize := sizeOf_lt_of_mem_exponents hu
    exact composes_compare u v w
      (fun t ht => ha t (ht.trans (isWithin_of_mem_exponents hu)))
      (fun t ht => hb t (ht.trans (isWithin_of_mem_exponents hv)))
      (fun t ht => hc t (ht.trans (isWithin_of_mem_exponents hw)))
  exact ((composes_compareTiers a b c).then_eq hcore).then_eq
    ((EquationSolver.composes_compare _ _ _).then_eq hexponents)
termination_by sizeOf a

end Term

end EquationSolver
