import EquationSolver.Proofs.Interned.Function

/-!
# Reducing handles

Reducing a handle performs the reduction of the term that it denotes.  Results that are remembered
by handle are those that are remembered by term: equal terms have one handle, and a handle that
comes into the pool later is of a term that has not been met.  Only a term that is its own result
may be remembered by its handle alone.
-/

namespace EquationSolver

namespace Interned

open PoolProgram
open Reduction (Settings)

variable {pool : Pool} {s : Settings} {handle : Handle} {t : Term}

/-! ### What is remembered -/

/-- A term that is its own result, whatever the settings are. -/
def IsFixed : Term → Prop
  | .number _ | .decimal _ | .constant _ | .undefined | .nonreal => True
  | _ => False

/-- What is remembered by handle is what is remembered by term. -/
structure Remembers (pool : Pool) (memory : Memory) (memory' : Reduction.Memory) : Prop where
  live : ∀ handle result, memory[handle]? = some result → ∃ t, pool.Denotes handle t
  live' : ∀ t result, memory'[t]? = some result → ∃ handle, pool.Denotes handle t
  found : ∀ handle t, pool.Denotes handle t → ¬IsFixed t →
    Option.Rel pool.Denotes memory[handle]? memory'[t]?
  fixed : ∀ handle t, pool.Denotes handle t → IsFixed t → ∀ result,
    memory[handle]? = some result → result = handle

theorem remembers_empty (pool : Pool) : Remembers pool {} {} where
  live _ _ h := by simp at h
  live' _ _ h := by simp at h
  found handle t _ _ := by
    rw [Std.HashMap.getElem?_empty, Std.HashMap.getElem?_empty]
    exact .none
  fixed _ _ _ _ _ h := by simp at h

namespace Remembers

variable {memory : Memory} {memory' : Reduction.Memory}

/-- A handle that is new in the pool denotes a term that is new, too. -/
theorem mono {pool' : Pool} (h : Remembers pool memory memory') (hleads : pool.LeadsTo pool') :
    Remembers pool' memory memory' := by
  have hback {handle : Handle} {t u : Term} (ht : pool'.Denotes handle t)
      (hu : pool.Denotes handle u) : pool.Denotes handle t := by
    obtain rfl : t = u := Option.some.inj (ht.symm.trans (hleads.grows _ _ hu))
    exact hu
  constructor
  · intro handle result hfound
    obtain ⟨t, ht⟩ := h.live handle result hfound
    exact ⟨t, hleads.grows _ _ ht⟩
  · intro t result hfound
    obtain ⟨handle, ht⟩ := h.live' t result hfound
    exact ⟨handle, hleads.grows _ _ ht⟩
  · intro handle t ht hfixed
    by_cases hold : pool.Denotes handle t
    · exact (Linked.handle.option.mono hleads (h.found handle t hold hfixed))
    · have hnone : memory[handle]? = none := by
        refine Option.eq_none_iff_forall_not_mem.2 fun result hfound => ?_
        obtain ⟨u, hu⟩ := h.live handle result hfound
        exact hold (hback ht hu)
      have hnone' : memory'[t]? = none := by
        refine Option.eq_none_iff_forall_not_mem.2 fun result hfound => ?_
        obtain ⟨other, hother⟩ := h.live' t result hfound
        have hsame := (hleads.reachable.denotes_inj ht (hleads.grows _ _ hother)).2 rfl
        exact hold (hsame ▸ hother)
      rw [hnone, hnone']
      exact .none
  · intro handle t ht hfixed result hfound
    obtain ⟨u, hu⟩ := h.live handle result hfound
    exact h.fixed handle t (hback ht hu) hfixed result hfound

theorem insert (h : Remembers pool memory memory') (hpool : pool.Reachable)
    (ht : pool.Denotes handle t) (hfixed : ¬IsFixed t) {result : Handle} {u : Term}
    (hu : pool.Denotes result u) :
    Remembers pool (memory.insert handle result) (memory'.insert t u) := by
  constructor
  · intro other found hfound
    rw [Std.HashMap.getElem?_insert] at hfound
    split at hfound
    case isTrue heq => exact ⟨t, eq_of_beq heq ▸ ht⟩
    case isFalse => exact h.live other found hfound
  · intro v found hfound
    rw [Std.HashMap.getElem?_insert] at hfound
    split at hfound
    case isTrue heq => exact ⟨handle, eq_of_beq heq ▸ ht⟩
    case isFalse => exact h.live' v found hfound
  · intro other v hv hfixed'
    have hsame := hpool.denotes_inj ht hv
    rw [Std.HashMap.getElem?_insert, Std.HashMap.getElem?_insert]
    by_cases heq : handle = other
    · rw [if_pos (beq_iff_eq.2 heq), if_pos (beq_iff_eq.2 (hsame.1 heq))]
      exact .some hu
    · rw [if_neg (by simpa using heq), if_neg (by simpa using fun heq' => heq (hsame.2 heq'))]
      exact h.found other v hv hfixed'
  · intro other v hv hfixed' found hfound
    rw [Std.HashMap.getElem?_insert] at hfound
    split at hfound
    case isTrue heq =>
      obtain rfl : t = v := (hpool.denotes_inj ht hv).1 (eq_of_beq heq)
      exact absurd hfixed' hfixed
    case isFalse => exact h.fixed other v hv hfixed' found hfound

/-- A term that is its own result is remembered by its handle alone. -/
theorem insert_self (h : Remembers pool memory memory') (hpool : pool.Reachable)
    (ht : pool.Denotes handle t) (hfixed : IsFixed t) :
    Remembers pool (memory.insert handle handle) memory' := by
  constructor
  · intro other found hfound
    rw [Std.HashMap.getElem?_insert] at hfound
    split at hfound
    case isTrue heq => exact ⟨t, eq_of_beq heq ▸ ht⟩
    case isFalse => exact h.live other found hfound
  · exact h.live'
  · intro other v hv hfixed'
    rw [Std.HashMap.getElem?_insert]
    split
    case isTrue heq =>
      obtain rfl : t = v := (hpool.denotes_inj ht hv).1 (eq_of_beq heq)
      exact absurd hfixed hfixed'
    case isFalse => exact h.found other v hv hfixed'
  · intro other v hv hfixed' found hfound
    rw [Std.HashMap.getElem?_insert] at hfound
    split at hfound
    case isTrue heq => exact (Option.some.inj hfound).symm.trans (eq_of_beq heq)
    case isFalse => exact h.fixed other v hv hfixed' found hfound

end Remembers

def linkedMemory : Linked Memory Reduction.Memory where
  Holds := Remembers
  mono hleads _ _ h := h.mono hleads

/-! ### Steps -/

section Steps

variable {α β γ δ : Type} {R : Linked α β} {S : Linked γ δ}

/-- With linked memories a step performs a step on terms, and leaves linked memories. -/
def PerformsStep (pool : Pool) (step : Step α) (step' : Reduction.Step β) (R : Linked α β) : Prop :=
  ∀ memory memory', Remembers pool memory memory' →
    Performs pool (step memory) (step' memory') (R.pair linkedMemory)

theorem performsStep_pure (h : pool.Reachable) {a : α} {b : β} (hab : R.Holds pool a b) :
    PerformsStep pool (pure a) (pure b) R :=
  fun _ _ hmemory => performs_pure h ⟨hab, hmemory⟩

theorem PerformsStep.bind {step : Step α} {f : α → Step γ} {step' : Reduction.Step β}
    {g : β → Reduction.Step δ} (h : PerformsStep pool step step' R)
    (hf : ∀ pool' a b, pool.LeadsTo pool' → R.Holds pool' a b →
      PerformsStep pool' (f a) (g b) S) : PerformsStep pool (step >>= f) (step' >>= g) S := by
  intro memory memory' hmemory
  show Performs pool (step memory >>= fun found => f found.1 found.2)
    (step' memory' >>= fun found => g found.1 found.2) _
  exact (h memory memory' hmemory).bind fun pool' found hleads hfound =>
    hf pool' found.1 _ hleads hfound.1 found.2 _ hfound.2

theorem performsStep_ofBuild {program : PoolProgram α} {b : Build β}
    (h : Performs pool program b R) :
    PerformsStep pool (liftM program) (Reduction.Step.ofBuild b) R := by
  intro memory memory' hmemory
  show Performs pool (program >>= fun a => pure (a, memory)) (b >>= fun a => pure (a, memory')) _
  exact h.bind fun pool' a hleads ha =>
    performs_pure hleads.reachable ⟨ha, hmemory.mono hleads⟩

/-- A step that has only read what it has so far. -/
theorem PerformsStep.read {program : PoolProgram α} {b : β} {f : α → Step γ}
    {step' : Reduction.Step δ} (h : Performs pool program (pure b) R)
    (hf : ∀ a, R.Holds pool a b → PerformsStep pool (f a) step' S) :
    PerformsStep pool (liftM program >>= f) step' S := by
  intro memory memory' hmemory
  have hlift : (liftM program >>= f) memory = (program >>= fun a => f a memory) := by
    show ((program >>= fun a => pure (a, memory)) >>= fun found => f found.1 found.2) = _
    rw [bind_assoc]
    simp only [pure_bind]
  rw [hlift]
  exact h.read fun a ha => hf a ha memory memory' hmemory

/-- What is remembered is taken from the memory; otherwise the node at the handle is reduced, and
    the result is remembered. -/
theorem performs_remember (h : pool.Reachable) (ht : pool.Denotes handle t) (hfixed : ¬IsFixed t)
    {f : Node → Step Handle} {step' : Reduction.Step Term}
    (hf : ∀ n, pool.StandsFor n t → PerformsStep pool (f n) step' .handle) :
    PerformsStep pool (remember handle (liftM (node handle) >>= f))
      (Reduction.Step.remember t step') .handle := by
  intro memory memory' hmemory
  have hstep := PerformsStep.read (performs_node h ht) hf memory memory' hmemory
  have hfound := hmemory.found handle t ht hfixed
  unfold remember Reduction.Step.remember
  revert hfound
  generalize memory[handle]? = result?
  generalize memory'[t]? = result'?
  rintro (hresult | _)
  · exact performs_pure h ⟨hresult, hmemory⟩
  · refine hstep.bind fun pool' found hleads hfound => ?_
    refine performs_pure hleads.reachable ⟨hfound.1, ?_⟩
    exact hfound.2.insert hleads.reachable (hleads.grows _ _ ht) hfixed hfound.1

/-- A term that is its own result is found again at its handle. -/
theorem performs_rememberSelf (h : pool.Reachable) (ht : pool.Denotes handle t) (hfixed : IsFixed t)
    {f : Node → Step Handle} (hf : ∀ n, pool.StandsFor n t → f n = pure handle) :
    PerformsStep pool (remember handle (liftM (node handle) >>= f)) (pure t) .handle := by
  intro memory memory' hmemory
  have hself n (hn : pool.StandsFor n t) : PerformsStep pool (f n) (pure t) .handle := by
    rw [hf n hn]
    exact performsStep_pure h ht
  have hstep := PerformsStep.read (performs_node h ht) hself memory memory' hmemory
  unfold remember
  cases hresult : memory[handle]? with
  | some result =>
    obtain rfl := hmemory.fixed handle t ht hfixed result hresult
    exact performs_pure h ⟨ht, hmemory⟩
  | none =>
    refine hstep.read fun found hfound => ?_
    obtain rfl := (h.denotes_inj ht hfound.1).2 rfl
    exact performs_pure h ⟨ht, hfound.2.insert_self h ht hfixed⟩

end Steps

/-! ### Reduction -/

section Reduction

variable {symbol : Nat → Handle → Step Handle} {symbol' : String → Reduction.Step Term}

/-- Symbols are reduced alike by number and by name. -/
def PerformsSymbol (pool : Pool) (symbol : Nat → Handle → Step Handle)
    (symbol' : String → Reduction.Step Term) : Prop :=
  ∀ pool', pool.LeadsTo pool' → ∀ place name handle, pool'.symbolName? place = some name →
    pool'.Denotes handle (.symbol name) → PerformsStep pool' (symbol place handle) (symbol' name)
      .handle

theorem PerformsSymbol.mono {pool' : Pool} (h : PerformsSymbol pool symbol symbol')
    (hleads : pool.LeadsTo pool') : PerformsSymbol pool' symbol symbol' :=
  fun pool'' hleads' => h pool'' (hleads.trans hleads')

/-- A given number of handles, and the terms that they denote. -/
def linkedHandles (n : Nat) : Linked (List Handle) (List Term) where
  Holds pool hs ts := ts.length = n ∧ Linked.handle.list.Holds pool hs ts
  mono hleads _ _ h := ⟨h.1, Linked.handle.list.mono hleads h.2⟩

/-- Handles are reduced one after the other as their terms are. -/
theorem performs_reduceEach {reduce : Handle → Step Handle} (h : pool.Reachable) {hs : List Handle}
    {ts : List Term}
    (hreduce : ∀ pool', pool.LeadsTo pool' → ∀ handle ∈ hs, ∀ t, pool'.Denotes handle t →
      PerformsStep pool' (reduce handle) (Reduction.reduceTerm s symbol' t) .handle)
    (hts : Linked.handle.list.Holds pool hs ts) :
    PerformsStep pool (hs.mapM reduce) (Reduction.reduceTerms s symbol' ts)
      (linkedHandles ts.length) := by
  induction hs generalizing pool ts with
  | nil =>
    cases hts
    exact performsStep_pure h ⟨rfl, .nil⟩
  | cons handle hs ih =>
    obtain _ | ⟨ht, hts⟩ := hts
    rw [List.mapM_cons, Reduction.reduceTerms]
    refine (hreduce pool h.leadsTo handle List.mem_cons_self _ ht).bind
      fun pool' a t hleads ha => ?_
    refine (ih hleads.reachable (fun pool'' hleads' other hother =>
      hreduce pool'' (hleads.trans hleads') other (List.mem_cons_of_mem handle hother))
      (Linked.handle.list.mono hleads hts)).bind fun pool'' as ts' hleads' has => ?_
    exact performsStep_pure hleads'.reachable
      ⟨congrArg (· + 1) has.1, .cons (hleads'.grows _ _ ha) has.2⟩

/-- A handle is reduced as the term that it denotes, by induction on the depth below it. -/
theorem performs_reduceWithin (hsymbol : PerformsSymbol pool symbol symbol') (h : pool.Reachable)
    (depth : Nat) (ht : pool.Denotes handle t) (hdepth : handle.index < depth) :
    PerformsStep pool (reduceWithin s symbol depth handle) (Reduction.reduceTerm s symbol' t)
      .handle := by
  induction depth generalizing pool handle t with
  | zero => exact absurd hdepth (Nat.not_lt_zero _)
  | succ depth ih =>
    have hpart {pool' : Pool} (hleads : pool.LeadsTo pool') {a : Handle} {x : Term}
        (ha : a.index < handle.index) (hx : pool'.Denotes a x) :
        PerformsStep pool' (reduceWithin s symbol depth a) (Reduction.reduceTerm s symbol' x)
          .handle :=
      ih (hsymbol.mono hleads) hleads.reachable hx (ha.trans_le (Nat.lt_succ_iff.1 hdepth))
    have hparts {hs : List Handle} {ts : List Term} (hchildren : t.children = ts)
        (hts : Linked.handle.list.Holds pool hs ts) :
        PerformsStep pool (hs.mapM (reduceWithin s symbol depth))
          (Reduction.reduceTerms s symbol' ts) (linkedHandles ts.length) := by
      have hbefore := h.index_lt_of_children ht (hchildren ▸ hts)
      exact performs_reduceEach h (fun pool' hleads a ha x hx => hpart hleads (hbefore a ha) hx) hts
    cases t with
    | number | decimal | constant | undefined | nonreal =>
      refine performs_rememberSelf h ht trivial fun n hn => ?_
      cases hn
      rfl
    | symbol name =>
      refine performs_remember h ht id fun n hn => ?_
      cases hn with
      | symbol hname => exact hsymbol pool h.leadsTo _ name handle hname ht
    | sum ts =>
      refine performs_remember h ht id fun n hn => ?_
      cases hn with
      | sum hts =>
        exact (hparts rfl hts).bind fun pool' as ts' hleads has =>
          performsStep_ofBuild (performs_add hleads.reachable has.2)
    | product ts =>
      refine performs_remember h ht id fun n hn => ?_
      cases hn with
      | product hts =>
        exact (hparts rfl hts).bind fun pool' as ts' hleads has =>
          performsStep_ofBuild (performs_mul s pool' hleads.reachable _ _ has.2)
    | matrix m n ts =>
      refine performs_remember h ht id fun _ hn => ?_
      have hsize := h.length_entries (Array.mem_of_getElem? ht)
      cases hn with
      | matrix _ _ hts =>
        exact (hparts rfl hts).bind fun pool' as ts' hleads has =>
          performsStep_ofBuild (performs_matrix hleads.reachable has.2 (has.1.trans hsize))
    | power x e =>
      refine performs_remember h ht id fun n hn => ?_
      cases hn with
      | power hx he =>
        have hbefore := h.index_lt_of_children ht (.cons hx (.cons he .nil))
        refine (hpart h.leadsTo (hbefore _ (by simp)) hx).bind fun pool' a x' hleads ha => ?_
        refine (hpart hleads (hbefore _ (by simp)) (hleads.grows _ _ he)).bind
          fun pool'' b e' hleads' hb => ?_
        exact performsStep_ofBuild
          (performs_pow s _ hleads'.reachable _ _ _ _ (hleads'.grows _ _ ha) hb)
    | negation x =>
      refine performs_remember h ht id fun n hn => ?_
      cases hn with
      | negation hx =>
        have hbefore := h.index_lt_of_children ht (.cons hx .nil)
        refine (hpart h.leadsTo (hbefore _ (by simp)) hx).bind fun pool' a x' hleads ha => ?_
        simp only [← liftM_bind]
        exact performsStep_ofBuild (performs_opposite hleads.reachable ha)
    | quotient x y =>
      refine performs_remember h ht id fun n hn => ?_
      cases hn with
      | quotient hx hy =>
        have hbefore := h.index_lt_of_children ht (.cons hx (.cons hy .nil))
        refine (hpart h.leadsTo (hbefore _ (by simp)) hx).bind fun pool' a x' hleads ha => ?_
        refine (hpart hleads (hbefore _ (by simp)) (hleads.grows _ _ hy)).bind
          fun pool'' b y' hleads' hb => ?_
        simp only [← liftM_bind]
        exact performsStep_ofBuild
          (performs_quotient hleads'.reachable (hleads'.grows _ _ ha) hb)
    | apply f x =>
      refine performs_remember h ht id fun n hn => ?_
      cases hn with
      | apply f hx =>
        have hbefore := h.index_lt_of_children ht (.cons hx .nil)
        exact (hpart h.leadsTo (hbefore _ (by simp)) hx).bind fun pool' a x' hleads ha =>
          performsStep_ofBuild (performs_applyFunction s f hleads.reachable ha)

/-- The index of a handle bounds the depth below it. -/
theorem performs_reduceAt (hsymbol : PerformsSymbol pool symbol symbol') (h : pool.Reachable)
    (ht : pool.Denotes handle t) :
    PerformsStep pool (reduceAt s symbol handle) (Reduction.reduceTerm s symbol' t) .handle :=
  performs_reduceWithin hsymbol h _ ht (Nat.lt_succ_self _)

end Reduction

/-! ### Symbols -/

/-- The symbols that are being expanded are marked by number or by name. -/
def linkedNames : Linked Nat String where
  Holds pool place name := pool.symbolName? place = some name
  mono hleads _ _ h := hleads.keepsNames.symbolName? h

theorem performs_name? (h : pool.Reachable) {place : Nat} {name : String}
    (hname : pool.symbolName? place = some name) :
    Performs pool (name? place) (pure name) ⟨fun _ found name => found = some name,
      fun _ _ _ h => h⟩ :=
  ⟨some name, congrArg (fun found => Except.ok (found, pool)) hname, h, rfl⟩

/-- A name is marked exactly if its number is. -/
theorem mem_iff_of_linkedNames (h : pool.Reachable) {places : List Nat} {names : List String}
    (hall : linkedNames.list.Holds pool places names) {place : Nat} {name : String}
    (hname : pool.symbolName? place = some name) : place ∈ places ↔ name ∈ names := by
  have hnumber {name : String} {place : Nat} (hname : pool.symbolName? place = some name) :
      pool.symbolNumber? name = some place :=
    (Pool.symbolNumber?_eq_some_iff h.isWellFormed.nodup).2 hname
  have hsame {other : Nat} {name' : String} (hother : pool.symbolName? other = some name') :
      place = other ↔ name = name' := by
    constructor
    · rintro rfl
      exact Option.some.inj (hname.symm.trans hother)
    · rintro rfl
      exact Option.some.inj ((hnumber hname).symm.trans (hnumber hother))
  induction hall with
  | nil => simp
  | cons hother hall ih =>
    rw [List.mem_cons, List.mem_cons, hsame hother]
    exact or_congr Iff.rfl ih

/-- A symbol is its own result, unless it is replaced by a definition; then it is undefined if it
    is marked already, and otherwise what the definition is opened to. -/
theorem performs_replace (h : pool.Reachable) {definitions : List (String × Handle)}
    {definitions' : Definitions} {name : String} {place : Nat}
    (hdefinition : Linked.handle.option.Holds pool (definitions.lookup name)
      (definitions'.lookup name))
    {places : List Nat} {names : List String} (hmarked : linkedNames.list.Holds pool places names)
    (hname : pool.symbolName? place = some name) (ht : pool.Denotes handle (.symbol name))
    {opened : Handle → Step Handle} {opened' : Term → Reduction.Step Term}
    (hopened : ∀ definition t, pool.Denotes definition t →
      PerformsStep pool (opened definition) (opened' t) .handle) :
    PerformsStep pool
      (liftM (name? place) >>= fun name =>
        match s.symbols, name.bind fun name => definitions.lookup name with
        | .replaceDefined, some definition =>
          if place ∈ places then liftM (construct .undefined) else opened definition
        | _, _ => pure handle)
      (match s.symbols, definitions'.lookup name with
        | .replaceDefined, some definition =>
          if name ∈ names then Reduction.Step.ofBuild (Build.make .undefined)
          else opened' definition
        | _, _ => pure (.symbol name)) .handle := by
  refine PerformsStep.read (performs_name? h hname) fun found hfound => ?_
  subst hfound
  rw [Option.bind_some]
  revert hdefinition
  generalize definitions.lookup name = definition
  generalize definitions'.lookup name = definition'
  rintro (hdefinition | _)
  · cases s.symbols with
    | replaceDefined =>
      dsimp only
      by_cases hmem : place ∈ places
      · rw [if_pos hmem, if_pos ((mem_iff_of_linkedNames h hmarked hname).1 hmem)]
        exact performsStep_ofBuild (performs_undefined h)
      · rw [if_neg hmem, if_neg fun hmem' => hmem ((mem_iff_of_linkedNames h hmarked hname).2 hmem')]
        exact hopened _ _ hdefinition
    | keepAll => exact performsStep_pure h ht
  · cases s.symbols <;> exact performsStep_pure h ht

/-- Symbols are reduced by number as they are by name, by induction on the number of definitions
    that may still be opened. -/
theorem performs_reduceSymbol {definitions : List (String × Handle)} {definitions' : Definitions}
    (hdefinitions : ∀ name, Linked.handle.option.Holds pool (definitions.lookup name)
      (definitions'.lookup name)) (levels : Nat) {places : List Nat} {names : List String}
    (hmarked : linkedNames.list.Holds pool places names) :
    PerformsSymbol pool (reduceSymbol s definitions levels places)
      (Reduction.reduceSymbol s definitions' levels names) := by
  induction levels generalizing pool places names with
  | zero =>
    intro pool' hleads place name handle hname ht
    have h := hleads.reachable
    unfold reduceSymbol Reduction.reduceSymbol
    exact performs_replace (s := s) h (Linked.handle.option.mono hleads (hdefinitions name))
      (linkedNames.list.mono hleads hmarked) hname ht fun _ _ _ =>
        performsStep_ofBuild (performs_undefined h)
  | succ levels ih =>
    intro pool' hleads place name handle hname ht
    have h := hleads.reachable
    have hmarked' := linkedNames.list.mono hleads hmarked
    have hsymbol := ih (fun name => Linked.handle.option.mono hleads (hdefinitions name))
      (.cons hname hmarked')
    unfold reduceSymbol Reduction.reduceSymbol
    exact performs_replace (s := s) h (Linked.handle.option.mono hleads (hdefinitions name))
      hmarked' hname ht fun _ _ hdefinition => performs_reduceAt hsymbol h hdefinition

/-- Reducing a handle performs the reduction of the term that it denotes. -/
theorem performs_reduce (h : pool.Reachable) {definitions : List (String × Handle)}
    {definitions' : Definitions} (hlength : definitions.length = definitions'.length)
    (hdefinitions : ∀ name, Linked.handle.option.Holds pool (definitions.lookup name)
      (definitions'.lookup name)) (ht : pool.Denotes handle t) :
    Performs pool (reduce s definitions handle) (Reduction.reduce s definitions' t) .handle := by
  have hsymbol := performs_reduceSymbol (s := s) hdefinitions definitions.length .nil
  have hstep := performs_reduceAt (s := s) hsymbol h ht {} {} (remembers_empty pool)
  rw [hlength] at hstep
  unfold reduce
  rw [hlength]
  exact hstep.bind fun pool' found hleads hfound => performs_pure hleads.reachable hfound.1

/-- Without a node at the handle there is nothing to reduce. -/
theorem reduce_of_dangling {definitions : List (String × Handle)} (h : pool.node? handle = none) :
    reduce s definitions handle pool = .error .dangling := by
  have hnode : node handle pool = .error .dangling := by
    unfold node
    rw [h]
  have hremember (f : Node → Step Handle) :
      remember handle (liftM (node handle) >>= f) {} pool = .error .dangling := by
    unfold remember
    rw [Std.HashMap.getElem?_empty]
    show ((node handle pool >>= _) >>= _) >>= _ = _
    rw [hnode]
    rfl
  show (reduceAt s _ handle {} pool >>= _) = _
  unfold reduceAt reduceWithin
  rw [hremember]
  rfl

end Interned

end EquationSolver
