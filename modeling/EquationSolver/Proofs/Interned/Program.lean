import EquationSolver.Pool.Program
import EquationSolver.Proofs.Order.Nodes

/-!
# Programs perform constructions

A program on a pool performs a construction on terms when it leaves in the pool what the
construction builds, in the same order, and returns handles where the construction has the terms
that they denote.  A program that calls one constructor performs the construction of it, one that
reads a node knows what the node stands for, and sequences of programs perform sequences of
constructions.  What handles denote outlasts every call, so that programs may use handles that
they got before.
-/

namespace EquationSolver

/-! ### Growth -/

namespace Pool

variable {pool pool' pool'' : Pool} {handle : Handle} {t : Term}

theorem internAll_append (pool : Pool) (ts us : List Term) :
    pool.internAll (ts ++ us) = (pool.internAll ts).internAll us :=
  List.foldl_append

/-- A reachable pool in which the handles and names of another mean the same. -/
structure LeadsTo (pool pool' : Pool) : Prop where
  reachable : pool'.Reachable
  grows : pool.Extends pool'
  keepsNames : pool.KeepsNames pool'

theorem Reachable.leadsTo (h : pool.Reachable) : pool.LeadsTo pool :=
  ⟨h, .refl pool, .refl pool⟩

theorem LeadsTo.trans (h : pool.LeadsTo pool') (h' : pool'.LeadsTo pool'') : pool.LeadsTo pool'' :=
  ⟨h'.reachable, h.grows.trans h'.grows, h.keepsNames.trans h'.keepsNames⟩

theorem leadsTo_internAll {terms : List Term} (h : (pool.internAll terms).Reachable) :
    pool.LeadsTo (pool.internAll terms) :=
  ⟨h, extends_internAll pool terms, keepsNames_internAll pool terms⟩

/-! ### What handles and nodes denote -/

def Denotes (pool : Pool) (handle : Handle) (t : Term) : Prop :=
  pool.get? handle = some t

/-- A handle denotes a term of the pool, at which its index points. -/
theorem Reachable.handleOf_of_denotes (h : pool.Reachable) (ht : pool.Denotes handle t) :
    pool.handleOf t = handle :=
  h.isWellFormed.handleOf_of_get? ht

theorem Denotes.get_eq (h : pool.Denotes handle t) : pool.get handle = .ok t :=
  get_eq_ok_iff.2 h

/-- Handles that denote terms are equal exactly if the terms are. -/
theorem Reachable.denotes_inj (h : pool.Reachable) {other : Handle} {u : Term}
    (ht : pool.Denotes handle t) (hu : pool.Denotes other u) : handle = other ↔ t = u := by
  rw [← h.isWellFormed.get?_inj (Array.getElem?_eq_some_iff.1 ht).1, ht, hu, Option.some.injEq]

/-- Handles of the parts of a term come before its own. -/
theorem Reachable.index_lt_of_children (h : pool.Reachable) (ht : pool.Denotes handle t)
    {hs : List Handle} (hts : List.Forall₂ pool.Denotes hs t.children) :
    ∀ a ∈ hs, a.index < handle.index := by
  intro a ha
  obtain ⟨u, hu, hau⟩ := exists_of_mem_forall₂ hts.flip ha
  obtain ⟨-, hlt⟩ := h.get?_handleOf_child ht hu
  rwa [h.handleOf_of_denotes hau] at hlt

/-- A node stands for a term if it has handles that denote the parts in their places. -/
inductive StandsFor (pool : Pool) : Node → Term → Prop
  | number (a : Rat) : StandsFor pool (.number a) (.number a)
  | decimal (bits : UInt64) : StandsFor pool (.decimal bits) (.decimal bits)
  | constant (c : Constant) : StandsFor pool (.constant c) (.constant c)
  | symbol {place : Nat} {name : String} (h : pool.symbolName? place = some name) :
    StandsFor pool (.symbol place) (.symbol name)
  | undefined : StandsFor pool .undefined .undefined
  | nonreal : StandsFor pool .nonreal .nonreal
  | sum {hs : List Handle} {ts : List Term} (h : List.Forall₂ pool.Denotes hs ts) :
    StandsFor pool (.sum hs) (.sum ts)
  | product {hs : List Handle} {ts : List Term} (h : List.Forall₂ pool.Denotes hs ts) :
    StandsFor pool (.product hs) (.product ts)
  | power {a b : Handle} {x e : Term} (hbase : pool.Denotes a x) (hexponent : pool.Denotes b e) :
    StandsFor pool (.power a b) (.power x e)
  | negation {a : Handle} {x : Term} (h : pool.Denotes a x) :
    StandsFor pool (.negation a) (.negation x)
  | quotient {a b : Handle} {x y : Term} (ha : pool.Denotes a x) (hb : pool.Denotes b y) :
    StandsFor pool (.quotient a b) (.quotient x y)
  | apply (f : Function) {a : Handle} {x : Term} (h : pool.Denotes a x) :
    StandsFor pool (.apply f a) (.apply f x)
  | matrix (m n : Nat) {hs : List Handle} {ts : List Term}
    (h : List.Forall₂ pool.Denotes hs ts) : StandsFor pool (.matrix m n hs) (.matrix m n ts)

/-- The node at a handle stands for the term that the handle denotes. -/
theorem Reachable.exists_standsFor (h : pool.Reachable) (ht : pool.Denotes handle t) :
    ∃ n, pool.node? handle = some n ∧ pool.StandsFor n t := by
  obtain ⟨n, hnode, -⟩ := h.exists_node ht
  refine ⟨n, hnode, ?_⟩
  obtain ⟨t', ht', hterm⟩ := h.isWellFormed.node?_eq_some_iff.1 hnode
  obtain rfl : t = t' := Option.some.inj (ht.symm.trans ht')
  cases n with
  | number a =>
    cases hterm
    exact .number a
  | decimal bits =>
    cases hterm
    exact .decimal bits
  | constant c =>
    cases hterm
    exact .constant c
  | undefined =>
    cases hterm
    exact .undefined
  | nonreal =>
    cases hterm
    exact .nonreal
  | symbol place =>
    obtain ⟨name, hname, rfl⟩ := Option.map_eq_some_iff.1 hterm
    exact .symbol hname
  | sum hs =>
    obtain ⟨ts, hts, rfl⟩ := Option.map_eq_some_iff.1 hterm
    exact .sum (forall₂_of_mapM hts)
  | product hs =>
    obtain ⟨ts, hts, rfl⟩ := Option.map_eq_some_iff.1 hterm
    exact .product (forall₂_of_mapM hts)
  | matrix m n hs =>
    obtain ⟨ts, hts, rfl⟩ := Option.map_eq_some_iff.1 hterm
    exact .matrix m n (forall₂_of_mapM hts)
  | negation a =>
    obtain ⟨x, hx, rfl⟩ := Option.map_eq_some_iff.1 hterm
    exact .negation hx
  | apply f a =>
    obtain ⟨x, hx, rfl⟩ := Option.map_eq_some_iff.1 hterm
    exact .apply f hx
  | power a b =>
    obtain ⟨x, hx, hterm⟩ := Option.bind_eq_some_iff.1 hterm
    obtain ⟨e, he, hterm⟩ := Option.bind_eq_some_iff.1 hterm
    cases hterm
    exact .power hx he
  | quotient a b =>
    obtain ⟨x, hx, hterm⟩ := Option.bind_eq_some_iff.1 hterm
    obtain ⟨y, hy, hterm⟩ := Option.bind_eq_some_iff.1 hterm
    cases hterm
    exact .quotient hx hy

theorem StandsFor.mono {n : Node} (h : pool.StandsFor n t) (hleads : pool.LeadsTo pool') :
    pool'.StandsFor n t := by
  have hone {a : Handle} {x : Term} (hx : pool.Denotes a x) : pool'.Denotes a x := hleads.grows a x hx
  have hall {hs : List Handle} {ts : List Term} (hts : List.Forall₂ pool.Denotes hs ts) :
      List.Forall₂ pool'.Denotes hs ts := hts.imp fun _ _ => hone
  cases h with
  | number a => exact .number a
  | decimal bits => exact .decimal bits
  | constant c => exact .constant c
  | undefined => exact .undefined
  | nonreal => exact .nonreal
  | symbol hname => exact .symbol (hleads.keepsNames.symbolName? hname)
  | sum hts => exact .sum (hall hts)
  | product hts => exact .product (hall hts)
  | power hx he => exact .power (hone hx) (hone he)
  | negation hx => exact .negation (hone hx)
  | quotient hx hy => exact .quotient (hone hx) (hone hy)
  | apply f hx => exact .apply f (hone hx)
  | matrix m n hts => exact .matrix m n (hall hts)

end Pool

/-! ### Links -/

/-- A relation between what a program has and what a construction has, which lasts while the pool
    grows. -/
structure Linked (α β : Type) where
  Holds : Pool → α → β → Prop
  mono : ∀ {pool pool' : Pool}, pool.LeadsTo pool' → ∀ {a : α} {b : β}, Holds pool a b →
    Holds pool' a b

namespace Linked

variable {α β γ δ : Type}

def same (α : Type) : Linked α α where
  Holds _ a b := a = b
  mono _ _ _ h := h

def handle : Linked Handle Term where
  Holds := Pool.Denotes
  mono h _ _ := h.grows _ _

def node : Linked Node Term where
  Holds := Pool.StandsFor
  mono h _ _ hnode := hnode.mono h

def list (R : Linked α β) : Linked (List α) (List β) where
  Holds pool := List.Forall₂ (R.Holds pool)
  mono h _ _ hall := hall.imp fun _ _ => R.mono h

def option (R : Linked α β) : Linked (Option α) (Option β) where
  Holds pool := Option.Rel (R.Holds pool)
  mono h a b hrel := by
    cases hrel with
    | some hab => exact .some (R.mono h hab)
    | none => exact .none

def pair (R : Linked α β) (S : Linked γ δ) : Linked (α × γ) (β × δ) where
  Holds pool p q := R.Holds pool p.1 q.1 ∧ S.Holds pool p.2 q.2
  mono h _ _ hpair := ⟨R.mono h hpair.1, S.mono h hpair.2⟩

end Linked

/-! ### Performing a construction -/

namespace PoolProgram

variable {α β γ δ : Type} {pool : Pool} {R : Linked α β} {S : Linked γ δ}

/-- The program leaves in the pool what the construction builds, and returns something linked to
    its value. -/
def Performs (pool : Pool) (program : PoolProgram α) (b : Build β) (R : Linked α β) : Prop :=
  ∃ a, program pool = .ok (a, pool.internAll b.trace) ∧ (pool.internAll b.trace).Reachable ∧
    R.Holds (pool.internAll b.trace) a b.value

theorem performs_pure (h : pool.Reachable) {a : α} {b : β} (hab : R.Holds pool a b) :
    Performs pool (pure a) (pure b) R :=
  ⟨a, rfl, h, hab⟩

theorem run_bind {program : PoolProgram α} {f : α → PoolProgram γ} {a : α} {pool' : Pool}
    (h : program pool = .ok (a, pool')) : (program >>= f) pool = f a pool' := by
  show (program pool >>= fun found => f found.1 found.2) = _
  rw [h]
  rfl

theorem Performs.bind {program : PoolProgram α} {f : α → PoolProgram γ} {b : Build β}
    {g : β → Build δ} (h : Performs pool program b R)
    (hf : ∀ pool' a, pool.LeadsTo pool' → R.Holds pool' a b.value →
      Performs pool' (f a) (g b.value) S) : Performs pool (program >>= f) (b >>= g) S := by
  obtain ⟨a, hrun, hreachable, ha⟩ := h
  obtain ⟨c, hrun', hreachable', hc⟩ := hf _ a (Pool.leadsTo_internAll hreachable) ha
  rw [← Pool.internAll_append] at hrun' hreachable' hc
  exact ⟨c, (run_bind hrun).trans hrun', hreachable', hc⟩

/-- A program that has only read what it has so far. -/
theorem Performs.read {program : PoolProgram α} {f : α → PoolProgram γ} {b : β} {b' : Build δ}
    (h : Performs pool program (pure b) R)
    (hf : ∀ a, R.Holds pool a b → Performs pool (f a) b' S) :
    Performs pool (program >>= f) b' S := by
  obtain ⟨a, hrun, -, ha⟩ := h
  obtain ⟨c, hrun', hreachable, hc⟩ := hf a ha
  exact ⟨c, (run_bind hrun).trans hrun', hreachable, hc⟩

/-- Tests that come out alike lead the same way. -/
theorem performs_ite_of_iff {p q : Prop} [Decidable p] [Decidable q] (hpq : p ↔ q)
    {program program' : PoolProgram α} {b b' : Build β} (htrue : p → Performs pool program b R)
    (hfalse : ¬p → Performs pool program' b' R) :
    Performs pool (if p then program else program') (if q then b else b') R := by
  by_cases h : p
  · rw [if_pos h, if_pos (hpq.1 h)]
    exact htrue h
  · rw [if_neg h, if_neg fun hq => h (hpq.2 hq)]
    exact hfalse h

theorem performs_ite {p : Prop} [Decidable p] {program program' : PoolProgram α} {b b' : Build β}
    (htrue : p → Performs pool program b R) (hfalse : ¬p → Performs pool program' b' R) :
    Performs pool (if p then program else program') (if p then b else b') R :=
  performs_ite_of_iff Iff.rfl htrue hfalse

/-- Items are handled one after the other, each in the pool that those before it left. -/
theorem performs_mapM {f : α → PoolProgram γ} {g : β → Build δ} {as : List α} {bs : List β}
    (h : pool.Reachable)
    (hf : ∀ pool', pool.LeadsTo pool' → ∀ a ∈ as, ∀ b, R.Holds pool' a b →
      Performs pool' (f a) (g b) S)
    (hall : R.list.Holds pool as bs) : Performs pool (as.mapM f) (Build.each g bs) S.list := by
  induction as generalizing pool bs with
  | nil =>
    cases hall
    exact performs_pure h .nil
  | cons a as ih =>
    obtain _ | ⟨hab, hall⟩ := hall
    rw [List.mapM_cons, Build.each]
    refine (hf pool h.leadsTo a List.mem_cons_self _ hab).bind fun pool' c hleads hc => ?_
    refine (ih hleads.reachable (fun pool'' hleads' a' ha' =>
      hf pool'' (hleads.trans hleads') a' (List.mem_cons_of_mem a ha'))
      (R.list.mono hleads hall)).bind fun pool'' cs hleads' hcs => ?_
    exact performs_pure hleads'.reachable (.cons (S.mono hleads' hc) hcs)

/-- What is read for each of several items. -/
theorem performs_mapM_pure {f : α → PoolProgram γ} {g : β → δ} {as : List α} {bs : List β}
    (h : pool.Reachable) (hf : ∀ a b, R.Holds pool a b → Performs pool (f a) (pure (g b)) S)
    (hall : R.list.Holds pool as bs) : Performs pool (as.mapM f) (pure (bs.map g)) S.list := by
  induction hall with
  | nil => exact performs_pure h .nil
  | cons hab hall ih =>
    rw [List.mapM_cons]
    refine (hf _ _ hab).read fun c hc => ih.read fun cs hcs => ?_
    exact performs_pure h (.cons hc hcs)

/-- What is read for one item after the other, going on from what has been read. -/
theorem performs_foldlM {f : γ → α → PoolProgram γ} {g : δ → β → δ} {as : List α} {bs : List β}
    (h : pool.Reachable)
    (hf : ∀ a ∈ as, ∀ c b d, S.Holds pool c d → R.Holds pool a b →
      Performs pool (f c a) (pure (g d b)) S)
    (hall : R.list.Holds pool as bs) {c : γ} {d : δ} (hc : S.Holds pool c d) :
    Performs pool (as.foldlM f c) (pure (bs.foldl g d)) S := by
  induction as generalizing bs c d with
  | nil =>
    cases hall
    exact performs_pure h hc
  | cons a as ih =>
    obtain _ | ⟨hab, hall⟩ := hall
    rw [List.foldlM_cons, List.foldl_cons]
    refine (hf a List.mem_cons_self c _ d hc hab).read fun c' hc' => ?_
    exact ih (fun a' ha' => hf a' (List.mem_cons_of_mem a ha')) hall hc'

/-! ### Calls of constructors -/

theorem performs_construct (h : pool.Reachable) {c : Construction} {b : Build Term}
    (hc : c.build pool = .ok b) : Performs pool (construct c) b .handle := by
  have hrun := Pool.construct_eq_ok hc
  obtain ⟨-, -, -, b', hb', hget⟩ := h.isWellFormed.construct hrun
  obtain rfl : b = b' := Except.ok.inj (hc.symm.trans hb')
  exact ⟨_, hrun, h.tail (.construct hrun), hget⟩

theorem performs_number (h : pool.Reachable) (a : Rat) :
    Performs pool (construct (.number a)) (Build.number a) .handle :=
  performs_construct h rfl

theorem performs_undefined (h : pool.Reachable) :
    Performs pool (construct .undefined) (Build.make .undefined) .handle :=
  performs_construct h rfl

theorem performs_nonreal (h : pool.Reachable) :
    Performs pool (construct .nonreal) (Build.make .nonreal) .handle :=
  performs_construct h rfl

theorem performs_decimal (h : pool.Reachable) (x : Float) :
    Performs pool (construct (.decimal x)) (Build.make (.ofDouble x)) .handle :=
  performs_construct h rfl

theorem performs_sum (h : pool.Reachable) {hs : List Handle} {ts : List Term}
    (hts : Linked.handle.list.Holds pool hs ts) :
    Performs pool (construct (.sum hs)) (Build.sum ts) .handle := by
  refine performs_construct h ?_
  rw [Construction.build, Pool.mapM_get_eq_ok hts]
  rfl

theorem performs_product (h : pool.Reachable) {hs : List Handle} {ts : List Term}
    (hts : Linked.handle.list.Holds pool hs ts) :
    Performs pool (construct (.product hs)) (Build.product ts) .handle := by
  refine performs_construct h ?_
  rw [Construction.build, Pool.mapM_get_eq_ok hts]
  rfl

theorem performs_power (h : pool.Reachable) {a b : Handle} {x e : Term}
    (hx : pool.Denotes a x) (he : pool.Denotes b e) :
    Performs pool (construct (.power a b)) (Build.make (.power x e)) .handle := by
  refine performs_construct h ?_
  rw [Construction.build, hx.get_eq, he.get_eq]
  rfl

theorem performs_apply (h : pool.Reachable) (f : Function) {a : Handle} {x : Term}
    (hx : pool.Denotes a x) :
    Performs pool (construct (.apply f a)) (Build.make (.apply f x)) .handle := by
  refine performs_construct h ?_
  rw [Construction.build, hx.get_eq]
  rfl

theorem performs_matrix (h : pool.Reachable) {m n : Nat} {hs : List Handle} {ts : List Term}
    (hts : Linked.handle.list.Holds pool hs ts) (hsize : ts.length = m * n) :
    Performs pool (construct (.matrix m n hs)) (Build.make (.matrix m n ts)) .handle := by
  refine performs_construct h ?_
  rw [Construction.build, Pool.mapM_get_eq_ok hts]
  exact if_pos hsize

/-! ### Reading nodes -/

theorem performs_node (h : pool.Reachable) {handle : Handle} {t : Term}
    (ht : pool.Denotes handle t) : Performs pool (node handle) (pure t) .node := by
  obtain ⟨n, hnode, hstands⟩ := h.exists_standsFor ht
  have hread : node handle pool = .ok (n, pool) := by rw [node, hnode]
  exact ⟨n, hread, h, hstands⟩

theorem performs_nodes (h : pool.Reachable) {hs : List Handle} {ts : List Term}
    (hts : Linked.handle.list.Holds pool hs ts) :
    Performs pool (nodes hs) (pure ts) Linked.node.list := by
  have hread := performs_mapM_pure (f := node) (g := id) (S := .node) h
    (fun _ _ ht => performs_node h ht) hts
  rwa [List.map_id] at hread

/-- A test of nodes that is one of terms finds as many among the nodes as among the terms. -/
theorem any_eq_of_nodes {p : Node → Bool} {q : Term → Bool}
    (hpq : ∀ n t, pool.StandsFor n t → p n = q t) {ns : List Node} {ts : List Term}
    (h : Linked.node.list.Holds pool ns ts) : ns.any p = ts.any q := by
  induction h with
  | nil => rfl
  | cons hnode _ ih => rw [List.any_cons, List.any_cons, hpq _ _ hnode, ih]

theorem filter_zip_nodes {p : Node → Bool} {q : Term → Bool}
    (hpq : ∀ n t, pool.StandsFor n t → p n = q t) {hs : List Handle} {ns : List Node}
    {ts : List Term} (hnodes : Linked.node.list.Holds pool ns ts)
    (hts : Linked.handle.list.Holds pool hs ts) :
    Linked.handle.list.Holds pool (((hs.zip ns).filter fun item => p item.2).map Prod.fst)
      (ts.filter q) := by
  induction hnodes generalizing hs with
  | nil =>
    cases hts
    exact .nil
  | cons hnode _ ih =>
    obtain _ | ⟨ht, hts⟩ := hts
    rw [List.zip_cons_cons, List.filter_cons, List.filter_cons, hpq _ _ hnode]
    split
    · exact .cons ht (ih hts)
    · exact ih hts

theorem performs_partition (h : pool.Reachable) {p : Node → Bool} {q : Term → Bool}
    (hpq : ∀ n t, pool.StandsFor n t → p n = q t) {hs : List Handle} {ts : List Term}
    (hts : Linked.handle.list.Holds pool hs ts) :
    Performs pool (partition p hs) (pure (ts.partition q)) (Linked.handle.list.pair Linked.handle.list) := by
  refine (performs_nodes h hts).read fun ns hns => ?_
  rw [List.partition_eq_filter_filter, List.partition_eq_filter_filter]
  refine performs_pure h ⟨filter_zip_nodes hpq hns hts, ?_⟩
  exact filter_zip_nodes (p := fun n => !p n) (q := fun t => !q t)
    (fun n t hnode => congrArg _ (hpq n t hnode)) hns hts

/-! ### Sorting handles -/

/-- Handles are sorted as the terms that they denote, if they compare like these. -/
theorem performs_sort (h : pool.Reachable) {order : Pool → Handle → Handle → Ordering}
    {order' : Term → Term → Ordering} (horder : ∀ a x b y, pool.Denotes a x → pool.Denotes b y →
      order pool a b = order' x y) {hs : List Handle} {ts : List Term}
    (hts : Linked.handle.list.Holds pool hs ts) :
    Performs pool (sort order hs) (pure (sortBy order' ts)) Linked.handle.list := by
  have hmap : hs = ts.map pool.handleOf := by
    induction hts with
    | nil => rfl
    | cons ht _ ih => rw [List.map_cons, h.handleOf_of_denotes ht, ← ih]
  have hdenotes : ∀ x ∈ ts, pool.Denotes (pool.handleOf x) x := by
    intro x hx
    obtain ⟨a, -, ha⟩ := exists_of_mem_forall₂ hts hx
    rw [h.handleOf_of_denotes ha]
    exact ha
  have hsorted : sortBy (order pool) hs = (sortBy order' ts).map pool.handleOf := by
    rw [hmap]
    exact sortBy_map fun x hx y hy => horder _ x _ y (hdenotes x hx) (hdenotes y hy)
  refine ⟨sortBy (order pool) hs, rfl, h, ?_⟩
  rw [hsorted]
  refine List.forall₂_map_left_iff.2 (List.forall₂_same.2 fun x hx => ?_)
  exact hdenotes x ((sortBy_perm order' ts).mem_iff.1 hx)

end PoolProgram

end EquationSolver
