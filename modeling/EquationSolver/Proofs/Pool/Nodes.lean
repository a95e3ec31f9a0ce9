import EquationSolver.Pool.Node
import EquationSolver.Proofs.Pool.Interning

/-!
# The nodes of a pool

A pool is well formed when it is sound, its names are listed once and every symbol that it
holds is named.  The table of a well-formed pool finds a node exactly in the slot that holds
it, and each slot denotes the tree that is unfolded from its node.  A grounded construction
keeps a pool well formed, and so does cutting it back to any cursor.
-/

namespace EquationSolver

/-! ### Reading handles one after another -/

section Handles

variable {α β : Type} {f g : α → Option β}

theorem mapM_map_eq_some {back : β → α} {items : List β} (h : ∀ b ∈ items, f (back b) = some b) :
    (items.map back).mapM f = some items := by
  induction items with
  | nil => rfl
  | cons b rest ih =>
    have hrest := ih fun c hc => h c (List.mem_cons_of_mem b hc)
    rw [List.map_cons, List.mapM_cons, h b List.mem_cons_self, hrest]
    rfl

theorem map_eq_of_mapM_eq_some {back : β → α} (h : ∀ a b, f a = some b → back b = a)
    {items : List α} {found : List β} (hfound : items.mapM f = some found) :
    found.map back = items := by
  induction items generalizing found with
  | nil =>
    cases hfound
    rfl
  | cons a rest ih =>
    rw [List.mapM_cons] at hfound
    obtain ⟨b, hb, hfound⟩ := Option.bind_eq_some_iff.1 hfound
    obtain ⟨bs, hbs, hfound⟩ := Option.bind_eq_some_iff.1 hfound
    cases hfound
    rw [List.map_cons, h a b hb, ih hbs]

theorem mapM_congr_of_mem {items : List α} (h : ∀ a ∈ items, f a = g a) :
    items.mapM f = items.mapM g := by
  induction items with
  | nil => rfl
  | cons a rest ih =>
    rw [List.mapM_cons, List.mapM_cons, h a List.mem_cons_self,
      ih fun b hb => h b (List.mem_cons_of_mem a hb)]

end Handles

namespace Node

variable {nameOf? : Nat → Option String} {termAt? termAt?' : Handle → Option Term}

/-- The term of a node depends on the terms of its children only. -/
theorem term?_congr {node : Node} (h : ∀ child ∈ node.children, termAt? child = termAt?' child) :
    node.term? nameOf? termAt? = node.term? nameOf? termAt?' := by
  cases node with
  | number | decimal | constant | symbol | undefined | nonreal => rfl
  | sum children | product children | matrix _ _ children =>
    exact congrArg (Option.map _) (mapM_congr_of_mem h)
  | negation a | apply _ a => exact congrArg (Option.map _) (h a List.mem_cons_self)
  | power a b | quotient a b =>
    have ha := h a List.mem_cons_self
    have hb := h b (List.mem_cons_of_mem a List.mem_cons_self)
    simp only [term?, ha, hb]

end Node

namespace Pool

variable {pool pool' : Pool} {node : Node} {handle : Handle} {t : Term}

/-! ### Names -/

/-- Names are listed once, so that a name and its number find each other. -/
theorem symbolNumber?_eq_some_iff (h : pool.names.toList.Nodup) {name : String} {place : Nat} :
    pool.symbolNumber? name = some place ↔ pool.symbolName? place = some name := by
  have hget : pool.symbolName? place = pool.names.toList[place]? := by
    rw [symbolName?, Array.getElem?_toList]
  rw [hget, symbolNumber?, List.idxOf?_eq_some_iff]
  constructor
  · rintro ⟨hlt, hname, -⟩
    rw [List.getElem?_eq_getElem hlt, hname]
  · intro hname
    obtain ⟨hlt, hat⟩ := List.getElem?_eq_some_iff.1 hname
    refine ⟨hlt, hat, fun j hj heq => ?_⟩
    have hsame : pool.names.toList[j]? = pool.names.toList[place]? := by
      rw [List.getElem?_eq_getElem (by omega), List.getElem?_eq_getElem hlt, heq, hat]
    have hindex := (List.getElem?_inj (by omega) h).1 hsame
    omega

/-- The names of the first pool have the same numbers in the second. -/
def KeepsNames (pool pool' : Pool) : Prop :=
  pool.names.toList <+: pool'.names.toList

theorem KeepsNames.refl (pool : Pool) : pool.KeepsNames pool :=
  List.prefix_rfl

theorem KeepsNames.trans {pool'' : Pool} (h : pool.KeepsNames pool')
    (h' : pool'.KeepsNames pool'') : pool.KeepsNames pool'' :=
  List.IsPrefix.trans h h'

theorem KeepsNames.symbolName? (h : pool.KeepsNames pool') {name : String} {place : Nat}
    (hname : pool.symbolName? place = some name) : pool'.symbolName? place = some name := by
  rw [Pool.symbolName?, ← Array.getElem?_toList] at hname ⊢
  obtain ⟨more, hmore⟩ := h
  have hlt := (List.getElem?_eq_some_iff.1 hname).1
  rw [← hmore, List.getElem?_append_left hlt]
  exact hname

theorem KeepsNames.symbolNumber? (h : pool.KeepsNames pool') (hpool : pool.names.toList.Nodup)
    (hpool' : pool'.names.toList.Nodup) {name : String} {place : Nat}
    (hnumber : pool.symbolNumber? name = some place) : pool'.symbolNumber? name = some place := by
  rw [symbolNumber?_eq_some_iff hpool] at hnumber
  rw [symbolNumber?_eq_some_iff hpool']
  exact h.symbolName? hnumber

theorem symbolNumber?_eq_none_iff {name : String} :
    pool.symbolNumber? name = none ↔ name ∉ pool.names := by
  rw [symbolNumber?, List.idxOf?_eq_none_iff, Array.mem_toList_iff]

theorem keepsNames_internName (pool : Pool) (name : String) :
    pool.KeepsNames (pool.internName name) := by
  unfold internName
  split
  · exact .refl pool
  · exact ⟨[name], by simp⟩

theorem nodup_internName (h : pool.names.toList.Nodup) (name : String) :
    (pool.internName name).names.toList.Nodup := by
  unfold internName
  split
  case h_1 => exact h
  case h_2 hnone =>
    have hnew : name ∉ pool.names.toList :=
      fun hmem => symbolNumber?_eq_none_iff.1 hnone (Array.mem_toList_iff.1 hmem)
    rw [Array.toList_push]
    refine List.nodup_append.2 ⟨h, by simp, ?_⟩
    rintro a ha b hb rfl
    exact hnew (List.mem_singleton.1 hb ▸ ha)

theorem mem_names_internName (pool : Pool) (name : String) :
    name ∈ (pool.internName name).names := by
  unfold internName
  split
  case h_1 hsome =>
    by_contra hnot
    rw [symbolNumber?_eq_none_iff.2 hnot] at hsome
    cases hsome
  case h_2 => exact Array.mem_push_self

theorem KeepsNames.mem (h : pool.KeepsNames pool') {name : String} (hname : name ∈ pool.names) :
    name ∈ pool'.names :=
  Array.mem_toList_iff.1 (h.subset (Array.mem_toList_iff.2 hname))

theorem names_insert (pool : Pool) (t : Term) : (pool.insert t).names = pool.names := by
  unfold Pool.insert
  split <;> rfl

theorem keepsNames_insert (pool : Pool) (t : Term) : pool.KeepsNames (pool.insert t) :=
  ⟨[], by rw [names_insert, List.append_nil]⟩

theorem keepsNames_intern (pool : Pool) (t : Term) : pool.KeepsNames (pool.intern t) := by
  cases t with
  | symbol name =>
    exact (keepsNames_internName pool name).trans (keepsNames_insert _ (.symbol name))
  | _ => exact keepsNames_insert pool _

theorem keepsNames_internAll (pool : Pool) (terms : List Term) :
    pool.KeepsNames (pool.internAll terms) := by
  induction terms generalizing pool with
  | nil => exact .refl pool
  | cons t ts ih => exact (keepsNames_intern pool t).trans (ih (pool.intern t))

/-! ### Well-formed pools -/

/-- A sound pool with its names listed once, among them those of all its symbols. -/
structure IsWellFormed (pool : Pool) : Prop where
  sound : pool.IsSound
  nodup : pool.names.toList.Nodup
  named : ∀ name, Term.symbol name ∈ pool.terms → name ∈ pool.names

theorem isWellFormed_empty : ({} : Pool).IsWellFormed :=
  ⟨isSound_empty, List.nodup_nil, by simp⟩

namespace IsWellFormed

theorem internName (h : pool.IsWellFormed) (name : String) :
    (pool.internName name).IsWellFormed := by
  refine ⟨isSound_internName h.sound name, nodup_internName h.nodup name, fun other hother => ?_⟩
  rw [terms_internName] at hother
  exact (keepsNames_internName pool name).mem (h.named other hother)

theorem insert (h : pool.IsWellFormed) (ht : ∀ u ∈ t.children, u ∈ pool.terms)
    (hname : ∀ name, t = .symbol name → name ∈ pool.names) : (pool.insert t).IsWellFormed := by
  refine ⟨h.sound.insert ht, ?_, fun name hmem => ?_⟩
  · rw [names_insert]
    exact h.nodup
  · rw [names_insert]
    rcases (mem_insert h.sound).1 hmem with heq | hmem
    · exact hname name heq.symm
    · exact h.named name hmem

/-- A symbol brings its name. -/
theorem intern (h : pool.IsWellFormed) (ht : ∀ u ∈ t.children, u ∈ pool.terms) :
    (pool.intern t).IsWellFormed := by
  cases t with
  | symbol name =>
    refine (h.internName name).insert (by simp [Term.children]) fun other heq => ?_
    cases heq
    exact mem_names_internName pool name
  | _ => exact h.insert ht (by simp)

theorem internAll {k k' : Known} {ts : List Term} (hlearns : Learns k ts k')
    (h : pool.IsWellFormed) (hk : ∀ t, t ∈ k ↔ t ∈ pool.terms) :
    (pool.internAll ts).IsWellFormed := by
  induction hlearns generalizing pool with
  | nil => exact h
  | cons hchildren _ ih =>
    have hparts := fun u hu => (hk u).1 (hchildren u hu)
    refine ih (h.intern hparts) fun u => ?_
    rw [Known.mem_learn, (h.sound.intern hparts).2, hk]

/-- What a grounded construction leaves behind keeps a pool well formed. -/
theorem record {α : Type} (h : pool.IsWellFormed) {b : Build α} {post : Known → α → Prop}
    (hb : b.IsGrounded h.sound.known post) :
    (pool.record b).2.IsWellFormed := by
  obtain ⟨k', hlearns, -⟩ := hb
  exact h.internAll hlearns fun _ => Iff.rfl

end IsWellFormed

/-- Terms that come after their parts make a well-formed pool. -/
theorem isWellFormed_internAll {ts : List Term}
    (h : ∀ (i : Nat) (hi : i < ts.length), ∀ u ∈ ts[i].children, u ∈ ts.take i) :
    (({} : Pool).internAll ts).IsWellFormed := by
  obtain ⟨k', hlearns⟩ : ∃ k', Learns isWellFormed_empty.sound.known ts k' :=
    Learns.exists_of_children fun i hi u hu => .inr (h i hi u hu)
  exact isWellFormed_empty.internAll hlearns fun _ => Iff.rfl

/-! ### Cutting back -/

theorem getElem?_erase_all (dropped : List Term) (table : Std.HashMap Term Nat) (t : Term) :
    (dropped.foldl (fun table t => table.erase t) table)[t]? =
      if t ∈ dropped then none else table[t]? := by
  induction dropped generalizing table with
  | nil => simp
  | cons u rest ih =>
    rw [List.foldl_cons, ih, Std.HashMap.getElem?_erase]
    by_cases hrest : t ∈ rest
    · simp [hrest]
    · by_cases hu : u = t
      · simp [hu]
      · simp [hrest, hu, Ne.symm hu]

/-- Below the cursor the terms stay, and there are none from it on. -/
theorem getElem?_truncate (pool : Pool) (cursor : Cursor) (i : Nat) :
    (pool.truncate cursor).terms[i]? = if i < cursor.position then pool.terms[i]? else none := by
  unfold truncate
  split
  case isTrue hsize =>
    split
    · rfl
    · exact Array.getElem?_eq_none (by unfold size at hsize; omega)
  case isFalse =>
    rw [← Array.getElem?_toList, Array.take, Array.toList_extract]
    simp [List.getElem?_take, List.extract]

theorem names_truncate (pool : Pool) (cursor : Cursor) :
    (pool.truncate cursor).names = pool.names := by
  unfold truncate
  split <;> rfl

/-- The table of a pool that is cut back keeps the terms below the cursor. -/
theorem IsSound.table_truncate (h : pool.IsSound) (cursor : Cursor) (t : Term) (i : Nat) :
    (pool.truncate cursor).table[t]? = some i ↔
      i < cursor.position ∧ pool.table[t]? = some i := by
  unfold truncate
  split
  case isTrue hsize =>
    refine ⟨fun htable => ⟨?_, htable⟩, fun ⟨_, htable⟩ => htable⟩
    have hlt := (Array.getElem?_eq_some_iff.1 ((h.table_iff t i).1 htable)).1
    unfold size at hsize
    omega
  case isFalse =>
    rw [getElem?_erase_all]
    split
    case isTrue hdropped =>
      -- a term that is cut off has its only place from the cursor on
      obtain ⟨j, hj⟩ := List.mem_iff_getElem?.1 hdropped
      rw [List.getElem?_drop, Array.getElem?_toList] at hj
      have htable := (h.table_iff t _).2 hj
      refine ⟨by simp, fun ⟨hlt, hfound⟩ => ?_⟩
      rw [htable] at hfound
      have := Option.some.inj hfound
      omega
    case isFalse hkept =>
      refine ⟨fun htable => ⟨?_, htable⟩, fun ⟨_, htable⟩ => htable⟩
      by_contra hge
      have hterm := (h.table_iff t i).1 htable
      refine hkept (List.mem_iff_getElem?.2 ⟨i - cursor.position, ?_⟩)
      rw [List.getElem?_drop, Array.getElem?_toList, Nat.add_sub_cancel' (by omega)]
      exact hterm

theorem IsSound.truncate (h : pool.IsSound) (cursor : Cursor) : (pool.truncate cursor).IsSound := by
  constructor
  · intro t i
    rw [h.table_truncate, getElem?_truncate, h.table_iff]
    split
    case isTrue hlt => exact and_iff_right hlt
    case isFalse hge => simp [hge]
  · intro i t hi u hu
    rw [getElem?_truncate] at hi
    split at hi
    case isTrue hlt =>
      obtain ⟨j, hji, hj⟩ := h.children i t hi u hu
      exact ⟨j, hji, by rw [getElem?_truncate, if_pos (by omega), hj]⟩
    case isFalse => cases hi

theorem get?_truncate (pool : Pool) (cursor : Cursor) (handle : Handle) :
    (pool.truncate cursor).get? handle =
      if handle.isDownstreamOf cursor then none else pool.get? handle := by
  rw [get?, getElem?_truncate, Handle.isDownstreamOf, get?]
  by_cases hlt : handle.index < cursor.position
  · rw [if_pos hlt, if_neg (by simpa using hlt)]
  · rw [if_neg hlt, if_pos (by simpa using hlt)]

theorem IsWellFormed.truncate (h : pool.IsWellFormed) (cursor : Cursor) :
    (pool.truncate cursor).IsWellFormed := by
  refine ⟨h.sound.truncate cursor, ?_, fun name hmem => ?_⟩
  · rw [names_truncate]
    exact h.nodup
  · obtain ⟨i, hi⟩ := Array.mem_iff_getElem?.1 hmem
    rw [getElem?_truncate] at hi
    split at hi
    · rw [names_truncate]
      exact h.named name (Array.mem_iff_getElem?.2 ⟨i, hi⟩)
    · cases hi

/-! ### Nodes and trees -/

namespace IsWellFormed

theorem mem_of_get? (hget : pool.get? handle = some t) : t ∈ pool.terms :=
  Array.mem_iff_getElem?.2 ⟨handle.index, hget⟩

/-- A term of the pool has a node, which stands for it. -/
theorem exists_nodeOf? (h : pool.IsWellFormed) (ht : t ∈ pool.terms) :
    ∃ node, pool.nodeOf? t = some node ∧ node.term? pool.symbolName? pool.get? = some t := by
  have hpart := fun u (hu : u ∈ t.children) => h.sound.get?_handleOf (h.sound.known.closed t ht u hu)
  cases t with
  | number | decimal | constant | undefined | nonreal => exact ⟨_, rfl, rfl⟩
  | symbol name =>
    cases hnumber : pool.symbolNumber? name with
    | none => exact absurd (h.named name ht) (symbolNumber?_eq_none_iff.1 hnumber)
    | some place =>
      have hname := (symbolNumber?_eq_some_iff h.nodup).1 hnumber
      exact ⟨.symbol place, by simp [nodeOf?, hnumber], by simp [Node.term?, hname]⟩
  | sum children | product children | matrix _ _ children =>
    have hread : (children.map pool.handleOf).mapM pool.get? = some children :=
      mapM_map_eq_some hpart
    exact ⟨_, rfl, by simp only [Node.term?, hread, Option.map_some]⟩
  | negation a | apply _ a =>
    have ha := hpart a List.mem_cons_self
    exact ⟨_, rfl, by simp only [Node.term?, ha, Option.map_some]⟩
  | power a b | quotient a b =>
    have ha := hpart a List.mem_cons_self
    have hb := hpart b (List.mem_cons_of_mem a List.mem_cons_self)
    exact ⟨_, rfl, by simp only [Node.term?, ha, hb]; rfl⟩

theorem handleOf_of_get? (h : pool.IsWellFormed) (hget : pool.get? handle = some t) :
    pool.handleOf t = handle := by
  have htable := (h.sound.table_iff t handle.index).2 hget
  rw [handleOf, Std.HashMap.getD_eq_getD_getElem?, htable]
  rfl

/-- Only the node of a term stands for it. -/
theorem nodeOf?_of_term? (h : pool.IsWellFormed)
    (ht : node.term? pool.symbolName? pool.get? = some t) : pool.nodeOf? t = some node := by
  have hhandle (handle : Handle) (t : Term) : pool.get? handle = some t → pool.handleOf t = handle :=
    h.handleOf_of_get?
  cases node with
  | number | decimal | constant | undefined | nonreal =>
    cases ht
    rfl
  | symbol place =>
    obtain ⟨name, hname, rfl⟩ := Option.map_eq_some_iff.1 ht
    simp [nodeOf?, (symbolNumber?_eq_some_iff h.nodup).2 hname]
  | sum children | product children | matrix _ _ children =>
    obtain ⟨terms, hterms, rfl⟩ := Option.map_eq_some_iff.1 ht
    simp only [nodeOf?, map_eq_of_mapM_eq_some hhandle hterms]
  | negation a | apply _ a =>
    obtain ⟨u, hu, rfl⟩ := Option.map_eq_some_iff.1 ht
    simp only [nodeOf?, hhandle a u hu]
  | power a b | quotient a b =>
    obtain ⟨u, hu, ht⟩ := Option.bind_eq_some_iff.1 ht
    obtain ⟨v, hv, ht⟩ := Option.bind_eq_some_iff.1 ht
    cases ht
    simp only [nodeOf?, hhandle a u hu, hhandle b v hv]

theorem node?_eq_some_iff (h : pool.IsWellFormed) : pool.node? handle = some node ↔
    ∃ t, pool.get? handle = some t ∧ node.term? pool.symbolName? pool.get? = some t := by
  constructor
  · intro hnode
    obtain ⟨t, hget, hnode⟩ := Option.bind_eq_some_iff.1 hnode
    obtain ⟨node', hnode', hterm⟩ := h.exists_nodeOf? (mem_of_get? hget)
    rw [hnode] at hnode'
    cases hnode'
    exact ⟨t, hget, hterm⟩
  · rintro ⟨t, hget, hterm⟩
    rw [node?, hget]
    exact h.nodeOf?_of_term? hterm

/-- The table finds a node at a handle exactly when the slot of the handle holds it. -/
theorem lookup?_eq_some_iff (h : pool.IsWellFormed) :
    pool.lookup? node = some handle ↔ pool.node? handle = some node := by
  rw [h.node?_eq_some_iff, lookup?, Option.bind_eq_some_iff]
  constructor
  · rintro ⟨t, hterm, hfound⟩
    obtain ⟨i, htable, rfl⟩ := Option.map_eq_some_iff.1 hfound
    exact ⟨t, (h.sound.table_iff t i).1 htable, hterm⟩
  · rintro ⟨t, hget, hterm⟩
    exact ⟨t, hterm, by rw [(h.sound.table_iff t handle.index).2 hget]; rfl⟩

theorem exists_node? (h : pool.IsWellFormed) (hlive : handle.index < pool.size) :
    ∃ node, pool.node? handle = some node := by
  have hget : pool.get? handle = some pool.terms[handle.index] := Array.getElem?_eq_getElem hlive
  obtain ⟨node, hnode, -⟩ := h.exists_nodeOf? (mem_of_get? hget)
  exact ⟨node, by rw [node?, hget]; exact hnode⟩

/-- The children of a node are the handles of the parts of its term. -/
theorem children_of_nodeOf? (hnode : pool.nodeOf? t = some node) :
    node.children = t.children.map pool.handleOf := by
  cases t with
  | symbol name =>
    obtain ⟨place, -, rfl⟩ := Option.map_eq_some_iff.1 hnode
    rfl
  | _ =>
    cases hnode
    rfl

/-- The children of a node come before it. -/
theorem index_lt_of_mem_children (h : pool.IsWellFormed) (hnode : pool.node? handle = some node)
    {child : Handle} (hchild : child ∈ node.children) : child.index < handle.index := by
  obtain ⟨t, hget, hnode⟩ := Option.bind_eq_some_iff.1 hnode
  rw [children_of_nodeOf? hnode] at hchild
  obtain ⟨u, hu, rfl⟩ := List.mem_map.1 hchild
  obtain ⟨j, hlt, hj⟩ := h.sound.children handle.index t hget u hu
  have hhandle : pool.handleOf u = ⟨j⟩ := h.handleOf_of_get? hj
  rw [hhandle]
  exact hlt

/-- The tree unfolded from the nodes is the term that the pool has at the handle. -/
theorem treeWithin?_eq_get? (h : pool.IsWellFormed) {depth : Nat} (hdepth : handle.index < depth) :
    pool.treeWithin? depth handle = pool.get? handle := by
  induction depth generalizing handle with
  | zero => omega
  | succ depth ih =>
    rw [treeWithin?]
    cases hnode : pool.node? handle with
    | none =>
      by_contra hsome
      obtain ⟨t, hget⟩ := Option.ne_none_iff_exists'.1 (Ne.symm hsome)
      obtain ⟨node, hnode'⟩ := h.exists_node? (Array.getElem?_eq_some_iff.1 hget).1
      rw [hnode] at hnode'
      cases hnode'
    | some node =>
      obtain ⟨t, hget, hterm⟩ := h.node?_eq_some_iff.1 hnode
      have hchildren : ∀ child ∈ node.children, pool.treeWithin? depth child = pool.get? child :=
        fun child hchild => ih (by have := h.index_lt_of_mem_children hnode hchild; omega)
      rw [hget, ← hterm]
      exact Node.term?_congr hchildren

theorem tree?_eq_get? (h : pool.IsWellFormed) (handle : Handle) :
    pool.tree? handle = pool.get? handle :=
  h.treeWithin?_eq_get? (Nat.lt_succ_self _)

theorem get?_inj (h : pool.IsWellFormed) {other : Handle} (hlive : handle.index < pool.size) :
    pool.get? handle = pool.get? other ↔ handle = other := by
  refine ⟨fun heq => ?_, fun heq => by rw [heq]⟩
  have hget : pool.get? handle = some pool.terms[handle.index] := Array.getElem?_eq_getElem hlive
  rw [← h.handleOf_of_get? hget, h.handleOf_of_get? (heq ▸ hget)]

end IsWellFormed

end Pool

end EquationSolver
