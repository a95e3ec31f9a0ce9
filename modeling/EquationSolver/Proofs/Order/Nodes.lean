import EquationSolver.Pool.Order
import EquationSolver.Proofs.Order.Handles

/-!
# Handles compare as trees

In a pool that constructors have built, the order of two handles by their nodes is the order of
the trees: indices decide only between a term and a power of it with exponent one, and the power
always comes later.
-/

namespace EquationSolver

namespace Term

theorem degreeSum_eq (ts : List Term) : degreeSum ts = (ts.map degree).sum := by
  induction ts with
  | nil => rfl
  | cons t ts ih => rw [degreeSum, ih, List.map_cons, List.sum_cons]

theorem degreeMax_eq (ts : List Term) : degreeMax ts = (ts.map degree).max? := by
  induction ts with
  | nil => rfl
  | cons t ts ih =>
    rw [degreeMax, ih, List.map_cons, List.max?_cons]
    cases (ts.map degree).max? <;> rfl

end Term

namespace Pool

/-! ### The node of a term -/

variable {pool : Pool} {s t : Term} {m n : Node} {a b : Handle}

theorem isNumeric_of_nodeOf? (h : pool.nodeOf? t = some n) : n.isNumeric = t.isNumeric := by
  cases t with
  | symbol name =>
    obtain ⟨place, -, rfl⟩ := Option.map_eq_some_iff.1 h
    rfl
  | _ =>
    cases h
    rfl

theorem rank_of_nodeOf? (h : pool.nodeOf? t = some n) : n.rank = t.rank := by
  cases t with
  | symbol name =>
    obtain ⟨place, -, rfl⟩ := Option.map_eq_some_iff.1 h
    rfl
  | _ =>
    cases h
    rfl

theorem asPower_of_nodeOf? (h : pool.nodeOf? t = some n) (ht : t.isPower = false) :
    n.asPower a = (a, none) := by
  cases t with
  | symbol name =>
    obtain ⟨place, -, rfl⟩ := Option.map_eq_some_iff.1 h
    rfl
  | power base exponent => cases ht
  | _ =>
    cases h
    rfl

theorem compareLists_map {compare : Handle → Handle → Ordering} {handleOf : Term → Handle}
    {xs ys : List Term} (h : ∀ x ∈ xs, ∀ y ∈ ys,
      compare (handleOf x) (handleOf y) = Term.compare x y) :
    compareLists compare (xs.map handleOf) (ys.map handleOf) = Term.compareLists xs ys := by
  induction xs generalizing ys with
  | nil => cases ys <;> rfl
  | cons x xs ih =>
    cases ys with
    | nil => rfl
    | cons y ys =>
      have hrest := ih fun x' hx y' hy => h x' (List.mem_cons_of_mem x hx) y' (List.mem_cons_of_mem y hy)
      rw [List.map_cons, List.map_cons, compareLists, Term.compareLists, hrest,
        h x List.mem_cons_self y List.mem_cons_self]

theorem then_eq_of_ne {o : Ordering} (h : o ≠ .eq) (o' : Ordering) : o.then o' = o := by
  cases o <;> first | rfl | exact (h rfl).elim

theorem then_congr_of_eq {o p q : Ordering} (h : o = .eq → p = q) : o.then p = o.then q := by
  cases o <;> first | rfl | exact h rfl

theorem head_of_nodeOf? (h : pool.nodeOf? t = some n) (ht : ∀ name, t ≠ .symbol name) :
    n.head pool.symbolName? = t.head := by
  cases t with
  | symbol name => exact absurd rfl (ht name)
  | _ =>
    cases h
    rfl

/-- The heads of nodes of one kind compare as those of their terms: the numbers of two symbols
    differ only if their names do. -/
theorem compare_head_of_nodeOf? (hnames : pool.names.toList.Nodup) (hm : pool.nodeOf? s = some m)
    (hn : pool.nodeOf? t = some n) (hrank : s.rank = t.rank) :
    (m.head pool.symbolName?).compare (n.head pool.symbolName?) = s.head.compare t.head := by
  by_cases hs : ∃ name, s = .symbol name
  · obtain ⟨name, rfl⟩ := hs
    obtain ⟨name', rfl⟩ : ∃ name', t = .symbol name' := by
      cases t <;> first | exact ⟨_, rfl⟩ | cases hrank
    obtain ⟨place, hplace, rfl⟩ := Option.map_eq_some_iff.1 hm
    obtain ⟨place', hplace', rfl⟩ := Option.map_eq_some_iff.1 hn
    have hname := (symbolNumber?_eq_some_iff hnames).1 hplace
    have hname' := (symbolNumber?_eq_some_iff hnames).1 hplace'
    simp only [Node.head, hname, hname', Option.getD_some, Term.head, Term.Head.compare,
      Term.compareRat_self, Std.compare_self, Ordering.then_eq, Ordering.eq_then]
    by_cases heq : name = name'
    · subst heq
      obtain rfl : place = place' := Option.some.inj (hplace.symm.trans hplace')
      simp
    · exact then_eq_of_ne (fun hcompare => heq (Std.LawfulEqOrd.eq_of_compare hcompare)) _
  · have ht : ∀ name, t ≠ .symbol name := by
      rintro name rfl
      cases s <;> first | exact hs ⟨_, rfl⟩ | cases hrank
    rw [head_of_nodeOf? hm fun name hname => hs ⟨name, hname⟩, head_of_nodeOf? hn ht]

/-- Nodes that are compared by kind, heads and children compare as their terms do. -/
theorem compareByKind_of_nodeOf? (hnames : pool.names.toList.Nodup)
    (hm : pool.nodeOf? s = some m) (hn : pool.nodeOf? t = some n)
    {compare : Handle → Handle → Ordering} (hchildren : ∀ x ∈ s.children, ∀ y ∈ t.children,
      compare (pool.handleOf x) (pool.handleOf y) = Term.compare x y) :
    ((Ord.compare m.rank n.rank).then
      ((m.head pool.symbolName?).compare (n.head pool.symbolName?))).then
        (compareLists compare m.children n.children) = s.compareByKind t := by
  have hlists := compareLists_map hchildren
  rw [Term.compareByKind, IsWellFormed.children_of_nodeOf? hm, IsWellFormed.children_of_nodeOf? hn,
    hlists, rank_of_nodeOf? hm, rank_of_nodeOf? hn]
  by_cases hrank : s.rank = t.rank
  · rw [compare_head_of_nodeOf? hnames hm hn hrank]
  · have hne : Ord.compare s.rank t.rank ≠ .eq := fun heq => hrank (Nat.compare_eq_eq.1 heq)
    simp only [then_eq_of_ne hne]

theorem compareByKind_power_numeric {x e : Term} (ht : t.isNumeric = true) :
    (Term.power x e).compareByKind t = .gt := by
  cases t <;> first
    | exact Bool.noConfusion ht
    | rfl

theorem compareByKind_numeric_power {y f : Term} (hs : s.isNumeric = true) :
    s.compareByKind (.power y f) = .lt := by
  cases s <;> first
    | exact Bool.noConfusion hs
    | rfl

namespace Reachable

variable (h : pool.Reachable)

include h

theorem eq_of_compare_eq (ha : pool.get? a = some s) (hb : pool.get? b = some t)
    (heq : Term.compare s t = .eq) : a = b := by
  have hstandard {handle : Handle} {u : Term} (hget : pool.get? handle = some u) :
      u.Everywhere Term.IsStandard := fun v hv =>
    h.isStandard v (h.isWellFormed.sound.mem_of_isWithin (IsWellFormed.mem_of_get? hget) hv)
  have hst := (Term.compare_eq_iff (hstandard ha) (hstandard hb)).1 heq
  exact (h.isWellFormed.get?_inj (Array.getElem?_eq_some_iff.1 ha).1).1 (by rw [ha, hb, hst])

theorem exists_node (ha : pool.get? a = some s) :
    ∃ m, pool.node? a = some m ∧ pool.nodeOf? s = some m := by
  obtain ⟨m, hm, -⟩ := h.isWellFormed.exists_nodeOf? (IsWellFormed.mem_of_get? ha)
  exact ⟨m, by rw [node?, ha]; exact hm, hm⟩

/-- The parts of a term are at handles before its own. -/
theorem get?_handleOf_child (ha : pool.get? a = some s) {u : Term} (hu : u ∈ s.children) :
    pool.get? (pool.handleOf u) = some u ∧ (pool.handleOf u).index < a.index := by
  obtain ⟨m, hnode, hm⟩ := h.exists_node ha
  have hsound := h.isWellFormed.sound
  refine ⟨hsound.get?_handleOf (hsound.known.closed s (IsWellFormed.mem_of_get? ha) u hu), ?_⟩
  apply h.isWellFormed.index_lt_of_mem_children hnode
  rw [IsWellFormed.children_of_nodeOf? hm]
  exact List.mem_map_of_mem hu

theorem compareWithOne_eq (ha : pool.get? a = some s) :
    pool.compareWithOne a = Term.compareWithOne s := by
  obtain ⟨m, hnode, hm⟩ := h.exists_node ha
  rw [compareWithOne, hnode]
  cases s with
  | symbol name =>
    obtain ⟨place, -, rfl⟩ := Option.map_eq_some_iff.1 hm
    rfl
  | _ =>
    cases hm
    rfl

/-- Down to a depth beyond both indices, handles compare as the trees that they denote. -/
theorem compareWithin_eq {depth : Nat} (hdepth : a.index + b.index < depth)
    (ha : pool.get? a = some s) (hb : pool.get? b = some t) :
    pool.compareWithin depth a b = Term.compare s t := by
  induction depth generalizing a b s t with
  | zero => omega
  | succ depth ih =>
    by_cases hab : a = b
    · subst hab
      obtain rfl : s = t := Option.some.inj (ha.symm.trans hb)
      rw [compareWithin, if_pos rfl, Term.compare_self]
    have hne : Term.compare s t ≠ .eq := fun heq => hab (h.eq_of_compare_eq ha hb heq)
    obtain ⟨m, hnode, hm⟩ := h.exists_node ha
    obtain ⟨n, hnode', hn⟩ := h.exists_node hb
    have hchildren : ∀ x ∈ s.children, ∀ y ∈ t.children,
        pool.compareWithin depth (pool.handleOf x) (pool.handleOf y) = Term.compare x y := by
      intro x hx y hy
      obtain ⟨hgetx, hltx⟩ := h.get?_handleOf_child ha hx
      obtain ⟨hgety, hlty⟩ := h.get?_handleOf_child hb hy
      exact ih (by omega) hgetx hgety
    have hkind := compareByKind_of_nodeOf? h.isWellFormed.nodup hm hn hchildren
    rw [compareWithin, if_neg hab, hnode, hnode']
    dsimp only
    rw [isNumeric_of_nodeOf? hm, isNumeric_of_nodeOf? hn, hkind]
    rcases Term.eq_power_or_isPower_eq_false s with ⟨x, e, rfl⟩ | hs
    · obtain ⟨hgetx, hltx⟩ := h.get?_handleOf_child ha (u := x) (by simp [Term.children])
      obtain ⟨hgete, hlte⟩ := h.get?_handleOf_child ha (u := e) (by simp [Term.children])
      cases hm
      rcases Term.eq_power_or_isPower_eq_false t with ⟨y, f, rfl⟩ | ht
      · obtain ⟨hgety, hlty⟩ := h.get?_handleOf_child hb (u := y) (by simp [Term.children])
        obtain ⟨hgetf, hltf⟩ := h.get?_handleOf_child hb (u := f) (by simp [Term.children])
        cases hn
        have hbases := ih (by omega) hgetx hgety
        have hexponents := ih (by omega) hgete hgetf
        rw [Term.compare_power_power] at hne ⊢
        simp only [Term.isNumeric, Node.asPower, compareExponents, hbases, hexponents]
        exact then_eq_of_ne hne _
      · rw [asPower_of_nodeOf? hn ht]
        cases hnumeric : t.isNumeric with
        | true =>
          rw [compareByKind_power_numeric hnumeric, Term.compare_power_numeric hnumeric]
          rfl
        | false =>
          have hbases := ih (by omega) hgetx hb
          rw [Term.compare_power_plain ht hnumeric]
          simp only [Term.isNumeric, Node.asPower, compareExponents, hbases,
            h.compareWithOne_eq hgete]
          -- A power that is no different from the term has it as its base.
          refine then_congr_of_eq fun heq => ?_
          obtain rfl := h.eq_of_compare_eq hgetx hb (Ordering.then_eq_eq.1 heq).1
          exact Nat.compare_eq_gt.2 hltx
    · rw [asPower_of_nodeOf? hm hs]
      rcases Term.eq_power_or_isPower_eq_false t with ⟨y, f, rfl⟩ | ht
      · obtain ⟨hgety, hlty⟩ := h.get?_handleOf_child hb (u := y) (by simp [Term.children])
        obtain ⟨hgetf, hltf⟩ := h.get?_handleOf_child hb (u := f) (by simp [Term.children])
        cases hn
        cases hnumeric : s.isNumeric with
        | true =>
          rw [compareByKind_numeric_power hnumeric, Term.compare_numeric_power hnumeric]
          rfl
        | false =>
          have hbases := ih (by omega) ha hgety
          rw [Term.compare_plain_power hs hnumeric]
          simp only [Term.isNumeric, Node.asPower, compareExponents, hbases,
            h.compareWithOne_eq hgetf]
          refine then_congr_of_eq fun heq => ?_
          obtain rfl := h.eq_of_compare_eq ha hgety (Ordering.then_eq_eq.1 heq).1
          exact Nat.compare_eq_lt.2 hlty
      · rw [asPower_of_nodeOf? hn ht]
        rw [Term.compare_plain hs ht] at hne ⊢
        simp only [Option.isSome_none, Bool.or_false, Bool.and_false, Bool.false_eq_true, if_false]
        exact then_eq_of_ne hne _

/-- Handles compare as the trees that they denote, whatever their indices are. -/
theorem compareHandles_eq (ha : pool.get? a = some s) (hb : pool.get? b = some t) :
    pool.compareHandles a b = Term.compare s t :=
  h.compareWithin_eq (Nat.lt_succ_self _) ha hb

theorem isNumericAt_eq (ha : pool.get? a = some s) : pool.isNumericAt a = s.isNumeric := by
  obtain ⟨m, hnode, hm⟩ := h.exists_node ha
  rw [isNumericAt, hnode]
  exact isNumeric_of_nodeOf? hm

theorem wordAt?_eq (ha : pool.get? a = some s) :
    pool.wordAt? a = s.rational?.bind Rational.toInt64Range? := by
  obtain ⟨m, hnode, hm⟩ := h.exists_node ha
  rw [wordAt?, hnode]
  cases s with
  | symbol name =>
    obtain ⟨place, -, rfl⟩ := Option.map_eq_some_iff.1 hm
    rfl
  | _ =>
    cases hm
    rfl

/-- Down to a depth beyond the index, the nodes have the degree of the tree. -/
theorem degreeWithin_eq {depth : Nat} (hdepth : a.index < depth) (ha : pool.get? a = some s) :
    pool.degreeWithin depth a = s.degree := by
  induction depth generalizing a s with
  | zero => omega
  | succ depth ih =>
    obtain ⟨n, hnode, hn⟩ := h.exists_node ha
    have hchild : ∀ u ∈ s.children, pool.degreeWithin depth (pool.handleOf u) = u.degree := by
      intro u hu
      obtain ⟨hget, hlt⟩ := h.get?_handleOf_child ha hu
      exact ih (by omega) hget
    have hchildren : (s.children.map pool.handleOf).map (pool.degreeWithin depth) =
        s.children.map Term.degree := by
      rw [List.map_map]
      exact List.map_congr_left hchild
    rw [degreeWithin, hnode]
    cases s with
    | symbol name =>
      obtain ⟨place, -, rfl⟩ := Option.map_eq_some_iff.1 hn
      rfl
    | power base exponent =>
      cases hn
      obtain ⟨hget, -⟩ := h.get?_handleOf_child ha (u := exponent) (by simp [Term.children])
      dsimp only
      rw [h.wordAt?_eq hget, hchild base (by simp [Term.children])]
      rfl
    | product factors =>
      cases hn
      rw [Term.degree, Term.degreeSum_eq]
      exact congrArg (fun degrees => Integer.wrapSigned (List.sum degrees)) hchildren
    | sum terms =>
      cases hn
      rw [Term.degree, Term.degreeMax_eq]
      exact congrArg (fun degrees => (List.max? degrees).getD 0) hchildren
    | _ =>
      cases hn
      rfl

theorem degreeAt_eq (ha : pool.get? a = some s) : pool.degreeAt a = s.degree :=
  h.degreeWithin_eq (Nat.lt_succ_self _) ha

theorem bodyOf_eq (ha : pool.get? a = some s) : pool.bodyOf a = s.body.map pool.handleOf := by
  obtain ⟨m, hnode, hm⟩ := h.exists_node ha
  have hself : [a] = [s].map pool.handleOf := by
    rw [List.map_singleton, h.isWellFormed.handleOf_of_get? ha]
  rw [bodyOf, hnode]
  cases s with
  | product factors =>
    cases hm
    show (factors.map pool.handleOf).filter _ = _
    rw [List.filter_map, Term.body]
    refine congrArg _ (List.filter_congr fun u hu => ?_)
    rw [Function.comp_apply, h.isNumericAt_eq (h.get?_handleOf_child ha hu).1]
  | symbol name =>
    obtain ⟨place, -, rfl⟩ := Option.map_eq_some_iff.1 hm
    exact hself
  | number | decimal =>
    cases hm
    rfl
  | _ =>
    cases hm
    exact hself

/-- The terms of a sum compare as the trees that their handles denote. -/
theorem compareTermHandles_eq (ha : pool.get? a = some s) (hb : pool.get? b = some t) :
    pool.compareTermHandles a b = Term.compareTerms s t := by
  unfold compareTermHandles
  by_cases hab : a = b
  · subst hab
    obtain rfl : s = t := Option.some.inj (ha.symm.trans hb)
    rw [if_pos rfl, Term.compareTerms, Term.compareGraded, if_pos rfl]
  · have hget {c : Handle} {u v : Term} (hc : pool.get? c = some u) (hv : v ∈ u.body) :
        pool.get? (pool.handleOf v) = some v :=
      h.isWellFormed.sound.get?_handleOf (h.isWellFormed.sound.mem_of_isWithin
        (IsWellFormed.mem_of_get? hc) (Term.isWithin_of_mem_body hv))
    have hbody : compareLists pool.compareHandles (pool.bodyOf a) (pool.bodyOf b) =
        Term.compareLists s.body t.body := by
      rw [h.bodyOf_eq ha, h.bodyOf_eq hb]
      exact compareLists_map fun x hx y hy => h.compareHandles_eq (hget ha hx) (hget hb hy)
    rw [if_neg hab, h.isNumericAt_eq ha, h.isNumericAt_eq hb, h.degreeAt_eq ha, h.degreeAt_eq hb,
      hbody, h.compareHandles_eq ha hb, Term.compareTerms_eq]

end Reachable

end Pool

end EquationSolver
