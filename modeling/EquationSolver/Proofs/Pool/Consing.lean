import EquationSolver.Proofs.Pool.Nodes
import EquationSolver.Proofs.Pool.Product
import EquationSolver.Proofs.Solver.Checked
import Mathlib.Logic.Relation

/-!
# Every node is kept once

Constructors, new names and cuts lead from the empty pool to pools in which the table and the
slots agree, no node is in two slots and children come before their nodes, so that handles
are equal exactly if they denote the same tree.  The numbers of names never change, and a cut
back to a checkpoint restores the pool of the checkpoint, if no cut went below it meanwhile.
-/

namespace EquationSolver

/-! ### What constructors build -/

namespace Pool

variable {pool : Pool} {handle : Handle} {t : Term}

theorem get_eq_ok_iff : pool.get handle = .ok t ↔ pool.get? handle = some t := by
  unfold Pool.get
  cases pool.get? handle with
  | none => simp
  | some u => simp

theorem IsSound.mem_known_of_get (h : pool.IsSound) (hget : pool.get handle = .ok t) :
    t ∈ h.known :=
  Array.mem_iff_getElem?.2 ⟨handle.index, get_eq_ok_iff.1 hget⟩

theorem IsSound.mem_known_of_mapM (h : pool.IsSound) {handles : List Handle} {ts : List Term}
    (hget : handles.mapM pool.get = .ok ts) : ∀ t ∈ ts, t ∈ h.known := by
  intro t ht
  obtain ⟨handle, -, hhandle⟩ := exists_of_mem_forall₂ (forall₂_of_mapM_eq_ok hget) ht
  exact h.mem_known_of_get hhandle

theorem mapM_get_eq_ok {handles : List Handle} {ts : List Term}
    (h : List.Forall₂ (fun a t => pool.get? a = some t) handles ts) :
    handles.mapM pool.get = .ok ts := by
  induction h with
  | nil => rfl
  | cons ht _ ih =>
    rw [List.mapM_cons, get_eq_ok_iff.2 ht, ih]
    rfl

theorem IsSound.mapM_get_handleOf (h : pool.IsSound) {ts : List Term}
    (hts : ∀ t ∈ ts, t ∈ pool.terms) : (ts.map pool.handleOf).mapM pool.get = .ok ts :=
  mapM_get_eq_ok <| List.forall₂_map_left_iff.2 <| List.forall₂_same.2 fun t ht =>
    h.get?_handleOf (hts t ht)

theorem exists_get (hlive : handle.index < pool.size) : ∃ t, pool.get handle = .ok t :=
  ⟨pool.terms[handle.index], get_eq_ok_iff.2 (Array.getElem?_eq_getElem hlive)⟩

theorem exists_mapM_get {handles : List Handle} (hlive : ∀ a ∈ handles, a.index < pool.size) :
    ∃ ts, handles.mapM pool.get = .ok ts ∧ ts.length = handles.length := by
  induction handles with
  | nil => exact ⟨[], rfl, rfl⟩
  | cons handle rest ih =>
    obtain ⟨t, ht⟩ := exists_get (hlive handle List.mem_cons_self)
    obtain ⟨ts, hts, hlength⟩ := ih fun a ha => hlive a (List.mem_cons_of_mem handle ha)
    exact ⟨t :: ts, by rw [List.mapM_cons, ht, hts]; rfl, by simp [hlength]⟩

end Pool

namespace Build

variable {k : Known} {a b : Term}

theorem grounds_difference (ha : a ∈ k) (hb : b ∈ k) : (difference a b).Grounds k := by
  have hopposite : (make (.negation b)).Grounds k := grounds_make (by simpa [Term.children] using hb)
  refine hopposite.bind fun k' hle hvalue => grounds_sum ?_
  simpa using And.intro (hle a ha) hvalue

theorem grounds_squareRoot (ha : a ∈ k) : (squareRoot a).Grounds k := by
  refine (grounds_number (1 / 2)).bind fun k' hle hvalue => grounds_make ?_
  simpa [Term.children] using And.intro (hle a ha) hvalue

end Build

namespace Construction

variable {pool : Pool} {c : Construction}

/-- A matrix has an entry for each place. -/
def Fits : Construction → Prop
  | .matrix m n entries => entries.length = m * n
  | _ => True

theorem grounds_build (h : pool.IsSound) {b : Build Term} (hb : c.build pool = .ok b) :
    b.Grounds h.known := by
  cases c with
  | number | constant | symbol | undefined | nonreal =>
    cases hb
    exact Build.grounds_make (by simp [Term.children])
  | decimal x =>
    cases hb
    exact Reduction.grounds_ofDouble x
  | sum terms =>
    obtain ⟨ts, hts, hb⟩ := exists_of_bind_eq_ok hb
    cases hb
    exact Build.grounds_sum (h.mem_known_of_mapM hts)
  | product factors =>
    obtain ⟨ts, hts, hb⟩ := exists_of_bind_eq_ok hb
    cases hb
    exact Build.grounds_product (h.mem_known_of_mapM hts)
  | negation a | apply _ a =>
    obtain ⟨t, ht, hb⟩ := exists_of_bind_eq_ok hb
    cases hb
    exact Build.grounds_make (by simpa [Term.children] using h.mem_known_of_get ht)
  | squareRoot a =>
    obtain ⟨t, ht, hb⟩ := exists_of_bind_eq_ok hb
    cases hb
    exact Build.grounds_squareRoot (h.mem_known_of_get ht)
  | power a b | quotient a b =>
    obtain ⟨t, ht, hb⟩ := exists_of_bind_eq_ok hb
    obtain ⟨u, hu, hb⟩ := exists_of_bind_eq_ok hb
    cases hb
    have hparts := And.intro (h.mem_known_of_get ht) (h.mem_known_of_get hu)
    exact Build.grounds_make (by simpa [Term.children] using hparts)
  | difference a b =>
    obtain ⟨t, ht, hb⟩ := exists_of_bind_eq_ok hb
    obtain ⟨u, hu, hb⟩ := exists_of_bind_eq_ok hb
    cases hb
    exact Build.grounds_difference (h.mem_known_of_get ht) (h.mem_known_of_get hu)
  | matrix m n entries =>
    obtain ⟨ts, hts, hb⟩ := exists_of_bind_eq_ok hb
    unfold Build.matrix at hb
    split at hb
    · cases hb
      exact Build.grounds_make (h.mem_known_of_mapM hts)
    · cases hb

/-- A constructor builds on any operands that are in the pool. -/
theorem exists_build (hlive : ∀ a ∈ c.operands, a.index < pool.size) (hfits : c.Fits) :
    ∃ b, c.build pool = .ok b := by
  cases c with
  | number | decimal | constant | symbol | undefined | nonreal => exact ⟨_, rfl⟩
  | sum handles | product handles =>
    obtain ⟨ts, hts, -⟩ : ∃ ts, handles.mapM pool.get = .ok ts ∧ _ := Pool.exists_mapM_get hlive
    exact ⟨_, by rw [build, hts]; rfl⟩
  | matrix m n handles =>
    obtain ⟨ts, hts, hlength⟩ : ∃ ts, handles.mapM pool.get = .ok ts ∧ _ :=
      Pool.exists_mapM_get hlive
    have hsize : ts.length = m * n := hlength.trans hfits
    refine ⟨Build.make (.matrix m n ts), ?_⟩
    rw [build, hts]
    exact if_pos hsize
  | negation a | apply _ a | squareRoot a =>
    obtain ⟨t, ht⟩ := Pool.exists_get (hlive a List.mem_cons_self)
    exact ⟨_, by rw [build, ht]; rfl⟩
  | power a b | quotient a b | difference a b =>
    obtain ⟨t, ht⟩ := Pool.exists_get (hlive a List.mem_cons_self)
    obtain ⟨u, hu⟩ := Pool.exists_get (hlive b (List.mem_cons_of_mem a List.mem_cons_self))
    exact ⟨_, by rw [build, ht, hu]; rfl⟩

/-- A term that is made by a constructor as it stands: sums and products have several operands,
    matrices have an entry for each place, and approximate numbers are left to doubles. -/
def Makes : Term → Bool
  | .decimal _ => false
  | .sum ts | .product ts => 2 ≤ ts.length
  | .matrix m n entries => entries.length == m * n
  | _ => true

theorem exists_build_make (h : pool.IsSound) {t : Term} (hmakes : Makes t = true)
    (ht : ∀ u ∈ t.children, u ∈ pool.terms) :
    ∃ c : Construction, c.build pool = .ok (Build.make t) := by
  have hget {u : Term} (hu : u ∈ t.children) : pool.get (pool.handleOf u) = .ok u :=
    Pool.get_eq_ok_iff.2 (h.get?_handleOf (ht u hu))
  cases t with
  | number a => exact ⟨.number a, rfl⟩
  | decimal bits => cases hmakes
  | constant c => exact ⟨.constant c, rfl⟩
  | symbol name => exact ⟨.symbol name, rfl⟩
  | undefined => exact ⟨.undefined, rfl⟩
  | nonreal => exact ⟨.nonreal, rfl⟩
  | sum ts =>
    refine ⟨.sum (ts.map pool.handleOf), ?_⟩
    rw [build, show (ts.map pool.handleOf).mapM pool.get = .ok ts from h.mapM_get_handleOf ht]
    match ts, hmakes with
    | _ :: _ :: _, _ => rfl
  | product ts =>
    refine ⟨.product (ts.map pool.handleOf), ?_⟩
    rw [build, show (ts.map pool.handleOf).mapM pool.get = .ok ts from h.mapM_get_handleOf ht]
    match ts, hmakes with
    | _ :: _ :: _, _ => rfl
  | matrix m n entries =>
    refine ⟨.matrix m n (entries.map pool.handleOf), ?_⟩
    rw [build, show (entries.map pool.handleOf).mapM pool.get = .ok entries from
      h.mapM_get_handleOf ht]
    exact if_pos (beq_iff_eq.1 hmakes)
  | negation a =>
    refine ⟨.negation (pool.handleOf a), ?_⟩
    rw [build, hget (by simp [Term.children])]
    rfl
  | apply f a =>
    refine ⟨.apply f (pool.handleOf a), ?_⟩
    rw [build, hget (by simp [Term.children])]
    rfl
  | power a b =>
    refine ⟨.power (pool.handleOf a) (pool.handleOf b), ?_⟩
    rw [build, hget (by simp [Term.children]), hget (by simp [Term.children])]
    rfl
  | quotient a b =>
    refine ⟨.quotient (pool.handleOf a) (pool.handleOf b), ?_⟩
    rw [build, hget (by simp [Term.children]), hget (by simp [Term.children])]
    rfl

end Construction

/-! ### Steps of a pool -/

namespace Pool

variable {pool pool' : Pool} {c : Construction} {handle : Handle} {floor : Nat}

/-- A call on a pool: a constructor on handles of the pool, a new name, or a cut that leaves
    what is below the floor. -/
inductive Step (floor : Nat) (pool : Pool) : Pool → Prop
  | construct {c : Construction} {handle : Handle} {pool' : Pool}
      (h : pool.construct c = .ok (handle, pool')) : Step floor pool pool'
  | internName (name : String) : Step floor pool (pool.internName name)
  | truncate (cursor : Cursor) (h : floor ≤ cursor.position) : Step floor pool (pool.truncate cursor)

abbrev Run (floor : Nat) : Pool → Pool → Prop :=
  Relation.ReflTransGen (Step floor)

/-- Pools that calls lead to from the empty pool. -/
def Reachable (pool : Pool) : Prop :=
  Run 0 {} pool

theorem of_construct_eq_ok (h : pool.construct c = .ok (handle, pool')) :
    ∃ b, c.build pool = .ok b ∧ pool' = (pool.record b).2 ∧ handle = pool'.handleOf b.value := by
  obtain ⟨b, hb, h⟩ := exists_of_bind_eq_ok h
  cases h
  exact ⟨b, hb, rfl, rfl⟩

theorem construct_eq_ok {b : Build Term} (hb : c.build pool = .ok b) :
    pool.construct c = .ok ((pool.record b).2.handleOf b.value, (pool.record b).2) := by
  rw [construct, hb]
  rfl

theorem exists_construct (hlive : ∀ a ∈ c.operands, a.index < pool.size) (hfits : c.Fits) :
    ∃ handle pool', pool.construct c = .ok (handle, pool') := by
  obtain ⟨b, hb⟩ := Construction.exists_build hlive hfits
  exact ⟨_, _, construct_eq_ok hb⟩

/-- A constructor gives the handle of what it builds. -/
theorem IsWellFormed.construct (h : pool.IsWellFormed)
    (hconstruct : pool.construct c = .ok (handle, pool')) :
    pool'.IsWellFormed ∧ pool.KeepsNames pool' ∧ pool.Extends pool' ∧
      ∃ b, c.build pool = .ok b ∧ pool'.get? handle = some b.value := by
  obtain ⟨b, hb, rfl, rfl⟩ := of_construct_eq_ok hconstruct
  have hgrounds := Construction.grounds_build h.sound hb
  obtain ⟨hsound, -, hmem⟩ := h.sound.record hgrounds
  exact ⟨h.record hgrounds, keepsNames_internAll pool b.trace, extends_internAll pool b.trace, b, hb,
    hsound.get?_handleOf hmem⟩

theorem Step.isWellFormed (h : Step floor pool pool') (hpool : pool.IsWellFormed) :
    pool'.IsWellFormed ∧ pool.KeepsNames pool' := by
  cases h with
  | construct hconstruct =>
    have hkept := hpool.construct hconstruct
    exact ⟨hkept.1, hkept.2.1⟩
  | internName name => exact ⟨hpool.internName name, keepsNames_internName pool name⟩
  | truncate cursor =>
    exact ⟨hpool.truncate cursor, [], by rw [names_truncate, List.append_nil]⟩

theorem Run.isWellFormed (h : Run floor pool pool') (hpool : pool.IsWellFormed) :
    pool'.IsWellFormed ∧ pool.KeepsNames pool' := by
  induction h with
  | refl => exact ⟨hpool, .refl pool⟩
  | tail _ hstep ih =>
    obtain ⟨hnext, hnames⟩ := hstep.isWellFormed ih.1
    exact ⟨hnext, ih.2.trans hnames⟩

theorem Reachable.isWellFormed (h : pool.Reachable) : pool.IsWellFormed :=
  (Run.isWellFormed h isWellFormed_empty).1

/-- Constructors enter terms that come after their parts. -/
theorem run_internAll (floor : Nat) (h : pool.IsWellFormed) {ts : List Term}
    (hmakes : ∀ t ∈ ts, Construction.Makes t = true)
    (hparts : ∀ (i : Nat) (hi : i < ts.length), ∀ u ∈ ts[i].children,
      u ∈ pool.terms ∨ u ∈ ts.take i) : Run floor pool (pool.internAll ts) := by
  induction ts generalizing pool with
  | nil => exact .refl
  | cons t ts ih =>
    obtain ⟨ht, hmakes⟩ := List.forall_mem_cons.1 hmakes
    have hchildren : ∀ u ∈ t.children, u ∈ pool.terms := by
      intro u hu
      simpa using hparts 0 (by simp) u hu
    obtain ⟨c, hc⟩ := Construction.exists_build_make h.sound ht hchildren
    have hstep : Step floor pool (pool.intern t) := .construct (construct_eq_ok hc)
    refine .head hstep (ih (h.intern hchildren) hmakes fun i hi u hu => ?_)
    have hmem := hparts (i + 1) (by simpa using hi) u hu
    rw [List.take_succ_cons, List.mem_cons] at hmem
    rw [(h.sound.intern hchildren).2]
    tauto

theorem reachable_internAll {ts : List Term} (hmakes : ∀ t ∈ ts, Construction.Makes t = true)
    (hparts : ∀ (i : Nat) (hi : i < ts.length), ∀ u ∈ ts[i].children, u ∈ ts.take i) :
    (({} : Pool).internAll ts).Reachable :=
  run_internAll 0 isWellFormed_empty hmakes fun i hi u hu => .inr (hparts i hi u hu)

/-! ### Restoring a checkpoint -/

/-- What is below the floor stays. -/
theorem Step.get?_of_lt (h : Step floor pool pool') (hpool : pool.IsWellFormed)
    (hlt : handle.index < floor) {t : Term} (hget : pool.get? handle = some t) :
    pool'.get? handle = some t := by
  cases h with
  | construct hconstruct => exact (hpool.construct hconstruct).2.2.1 handle t hget
  | internName name => exact extends_internName pool name handle t hget
  | truncate cursor hfloor =>
    rw [get?_truncate, if_neg (by simp [Handle.isDownstreamOf]; omega)]
    exact hget

theorem Run.get?_of_lt (h : Run floor pool pool') (hpool : pool.IsWellFormed)
    (hlt : handle.index < floor) {t : Term} (hget : pool.get? handle = some t) :
    pool'.get? handle = some t := by
  induction h with
  | refl => exact hget
  | tail hrun hstep ih => exact hstep.get?_of_lt (Run.isWellFormed hrun hpool).1 hlt ih

/-- A cut back to a checkpoint restores the terms, if no cut went below it. -/
theorem Run.terms_truncate (h : Run pool.size pool pool') (hpool : pool.IsWellFormed) :
    (pool'.truncate pool.checkpoint).terms = pool.terms := by
  refine Array.ext_getElem? fun i => ?_
  rw [getElem?_truncate, checkpoint]
  split
  case isTrue hlt =>
    have hget : pool.get? ⟨i⟩ = some pool.terms[i] := Array.getElem?_eq_getElem hlt
    exact (h.get?_of_lt hpool hlt hget).trans hget.symm
  case isFalse hge => exact (Array.getElem?_eq_none (Nat.le_of_not_lt hge)).symm

/-- Sound pools with the same terms have the same table. -/
theorem IsSound.table_equiv (h : pool.IsSound) (h' : pool'.IsSound)
    (hterms : pool'.terms = pool.terms) : pool'.table.Equiv pool.table := by
  refine Std.HashMap.Equiv.of_forall_getElem?_eq fun t => Option.ext fun i => ?_
  rw [h'.table_iff, hterms, h.table_iff]

/-- Well-formed pools with the same terms have the same nodes, if names keep their numbers. -/
theorem IsWellFormed.node?_eq (h : pool.IsWellFormed) (h' : pool'.IsWellFormed)
    (hterms : pool'.terms = pool.terms) (hnames : pool.KeepsNames pool') (handle : Handle) :
    pool'.node? handle = pool.node? handle := by
  have hget : pool'.get? = pool.get? := by
    funext handle
    rw [get?, get?, hterms]
  have hkept : ∀ node, pool.node? handle = some node → pool'.node? handle = some node := by
    intro node hnode
    rw [h.node?_eq_some_iff] at hnode
    rw [h'.node?_eq_some_iff, hget]
    obtain ⟨t, ht, hterm⟩ := hnode
    refine ⟨t, ht, ?_⟩
    cases node with
    | symbol place =>
      obtain ⟨name, hname, rfl⟩ := Option.map_eq_some_iff.1 hterm
      exact Option.map_eq_some_iff.2 ⟨name, hnames.symbolName? hname, rfl⟩
    | _ => exact hterm
  cases hnode : pool.node? handle with
  | some node => exact hkept node hnode
  | none =>
    by_contra hsome
    obtain ⟨node, hnode'⟩ := Option.ne_none_iff_exists'.1 hsome
    obtain ⟨t, ht, -⟩ := h'.node?_eq_some_iff.1 hnode'
    rw [hget] at ht
    obtain ⟨node', hnode''⟩ := h.exists_node? (Array.getElem?_eq_some_iff.1 ht).1
    rw [hnode] at hnode''
    cases hnode''

theorem IsWellFormed.lookup?_eq (h : pool.IsWellFormed) (h' : pool'.IsWellFormed)
    (hterms : pool'.terms = pool.terms) (hnames : pool.KeepsNames pool') (node : Node) :
    pool'.lookup? node = pool.lookup? node :=
  Option.ext fun handle => by
    rw [h'.lookup?_eq_some_iff, h.lookup?_eq_some_iff, h.node?_eq h' hterms hnames]

/-! ### Hash consing -/

/-- The table and the slots of a pool agree on its nodes, and handles on its trees. -/
structure IsConsed (pool : Pool) : Prop where
  lookup_iff : ∀ node handle, pool.lookup? node = some handle ↔ pool.node? handle = some node
  unique : ∀ handle other node, pool.node? handle = some node → pool.node? other = some node →
    handle = other
  live_iff : ∀ handle, handle.index < pool.size ↔ ∃ node, pool.node? handle = some node
  child_lt : ∀ handle node, pool.node? handle = some node →
    ∀ child ∈ node.children, child.index < handle.index
  name_iff : ∀ name place, pool.symbolNumber? name = some place ↔
    pool.symbolName? place = some name
  tree : ∀ handle, handle.index < pool.size → ∃ t, pool.tree? handle = some t
  tree_iff : ∀ handle other, handle.index < pool.size → other.index < pool.size →
    (handle = other ↔ pool.tree? handle = pool.tree? other)

theorem IsWellFormed.isConsed (h : pool.IsWellFormed) : pool.IsConsed where
  lookup_iff _ _ := h.lookup?_eq_some_iff
  unique handle other node hnode hother := by
    rw [← h.lookup?_eq_some_iff] at hnode hother
    exact Option.some.inj (hnode.symm.trans hother)
  live_iff handle := by
    refine ⟨h.exists_node?, fun ⟨node, hnode⟩ => ?_⟩
    obtain ⟨t, hget, -⟩ := h.node?_eq_some_iff.1 hnode
    exact (Array.getElem?_eq_some_iff.1 hget).1
  child_lt _ _ hnode _ hchild := h.index_lt_of_mem_children hnode hchild
  name_iff _ _ := symbolNumber?_eq_some_iff h.nodup
  tree handle hlive := ⟨_, (h.tree?_eq_get? handle).trans (Array.getElem?_eq_getElem hlive)⟩
  tree_iff handle other hlive _ := by
    rw [h.tree?_eq_get?, h.tree?_eq_get?, h.get?_inj hlive]

/-- A second pool has the nodes of the first and finds them alike. -/
structure Restores (pool pool' : Pool) : Prop where
  terms : pool'.terms = pool.terms
  table : pool'.table.Equiv pool.table
  node? : ∀ handle, pool'.node? handle = pool.node? handle
  lookup? : ∀ node, pool'.lookup? node = pool.lookup? node

/-- Whatever calls lead to a pool, it keeps each node once; later calls keep the numbers of its
    names, and a cut back to its checkpoint restores it, if none before went below. -/
theorem Reachable.keeps_nodes_once (h : pool.Reachable) :
    pool.IsConsed ∧
      (∀ pool', Run 0 pool pool' → ∀ name place, pool.symbolNumber? name = some place →
        pool'.symbolNumber? name = some place) ∧
      ∀ pool', Run pool.size pool pool' → pool.Restores (pool'.truncate pool.checkpoint) := by
  have hpool := h.isWellFormed
  refine ⟨hpool.isConsed, fun pool' hrun name place hname => ?_, fun pool' hrun => ?_⟩
  · obtain ⟨hpool', hnames⟩ := Run.isWellFormed hrun hpool
    exact hnames.symbolNumber? hpool.nodup hpool'.nodup hname
  · obtain ⟨hpool', hnames⟩ := Run.isWellFormed hrun hpool
    have hterms := Run.terms_truncate hrun hpool
    have hcut := hpool'.truncate pool.checkpoint
    have hnamesCut : pool.KeepsNames (pool'.truncate pool.checkpoint) := by
      rw [KeepsNames, names_truncate]
      exact hnames
    exact ⟨hterms, hpool.sound.table_equiv hcut.sound hterms,
      hpool.node?_eq hcut hterms hnamesCut, hpool.lookup?_eq hcut hterms hnamesCut⟩

/-- The pool of `x` and its negation. -/
def opposites : Pool :=
  ({} : Pool).internAll [.symbol "x", .negation (.symbol "x")]

theorem reachable_opposites : opposites.Reachable :=
  reachable_internAll (by decide) (by decide)

/-- After `y` and its negation have come, the negation has been cut off again and `z` has been
    named, `x` has its number still, and a cut to the checkpoint restores the pool. -/
theorem keeps_nodes_once_opposites :
    let grown := opposites.internAll [.symbol "y", .negation (.symbol "y")]
    let left := (grown.truncate ⟨3⟩).internName "z"
    opposites.Reachable ∧ opposites.IsConsed ∧ left.symbolNumber? "x" = some 0 ∧
      opposites.Restores (left.truncate opposites.checkpoint) := by
  intro grown left
  obtain ⟨hconsed, hnumber, hrestores⟩ := Reachable.keeps_nodes_once reachable_opposites
  have hgrown (floor : Nat) : Run floor opposites grown :=
    run_internAll floor reachable_opposites.isWellFormed (by decide) fun i hi u hu =>
      .inr (by revert i hi u hu; decide)
  have hleft {floor : Nat} (hfloor : floor ≤ 3) : Run floor opposites left :=
    ((hgrown floor).tail (.truncate ⟨3⟩ hfloor)).tail (.internName "z")
  have hterms : opposites.terms = #[.symbol "x", .negation (.symbol "x")] :=
    terms_internAll (by decide) (by decide)
  have hsize : opposites.size ≤ 3 := by simp [size, hterms]
  have hname : opposites.symbolNumber? "x" = some 0 := by
    simp [opposites, internAll, Pool.intern, Pool.internName, names_insert, symbolNumber?]
  exact ⟨reachable_opposites, hconsed, hnumber left (hleft (Nat.zero_le 3)) "x" 0 hname,
    hrestores left (hleft hsize)⟩

end Pool

end EquationSolver
