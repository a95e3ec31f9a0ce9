import EquationSolver.Context
import EquationSolver.Pool
import EquationSolver.Term.Build
import Mathlib.Data.Set.Insert

/-!
# The pool keeps each term once

A pool gets a term only after the terms that it is put together from.  A construction is
grounded in what is known when each term that it builds has its parts among the known terms
and those built before, so that a pool can keep what it builds in order.

In a sound pool the table finds exactly the terms that are there, and each term comes after
its parts.  Interning keeps a pool sound as long as the parts are there, and so does recording
a grounded construction.  In a sound pool terms are equal exactly if their handles are.  And a pool
only grows: whatever a construction adds to it, a handle goes on to denote the term that it
denoted.
-/

namespace EquationSolver

/-! ### Grounded constructions -/

/-- Terms that are known, each with its parts. -/
@[ext] structure Known where
  terms : Set Term
  closed : ∀ t ∈ terms, ∀ u ∈ t.children, u ∈ terms

namespace Known

instance : Membership Term Known := ⟨fun k t => t ∈ k.terms⟩

instance : LE Known := ⟨fun k k' => ∀ t ∈ k, t ∈ k'⟩

variable {k k' k'' : Known} {t : Term}

theorem le_refl (k : Known) : k ≤ k := fun _ h => h

theorem le_trans (h : k ≤ k') (h' : k' ≤ k'') : k ≤ k'' := fun t ht => h' t (h t ht)

theorem child_mem (h : t ∈ k) {u : Term} (hu : u ∈ t.children) : u ∈ k := k.closed t h u hu

/-- Get to know a term whose parts are known. -/
def learn (k : Known) (t : Term) (h : ∀ u ∈ t.children, u ∈ k) : Known where
  terms := insert t k.terms
  closed := by
    intro v hv u hu
    rcases hv with rfl | hv
    · exact .inr (h u hu)
    · exact .inr (k.closed v hv u hu)

theorem mem_learn {h : ∀ u ∈ t.children, u ∈ k} {v : Term} : v ∈ k.learn t h ↔ v = t ∨ v ∈ k :=
  Iff.rfl

theorem le_learn {h : ∀ u ∈ t.children, u ∈ k} : k ≤ k.learn t h := fun _ hv => .inr hv

end Known

/-- What is known after terms have come, each after its parts. -/
inductive Learns : Known → List Term → Known → Prop
  | nil (k : Known) : Learns k [] k
  | cons {k k' : Known} {t : Term} {ts : List Term} (h : ∀ u ∈ t.children, u ∈ k)
      (rest : Learns (k.learn t h) ts k') : Learns k (t :: ts) k'

namespace Learns

variable {k k' k'' : Known} {ts us : List Term}

theorem append (h : Learns k ts k') (h' : Learns k' us k'') : Learns k (ts ++ us) k'' := by
  induction h with
  | nil => exact h'
  | cons hchildren _ ih => exact .cons hchildren (ih h')

theorem le (h : Learns k ts k') : k ≤ k' := by
  induction h with
  | nil k => exact Known.le_refl k
  | cons hchildren _ ih => exact Known.le_trans Known.le_learn ih

/-- What is known afterwards was known before or has come. -/
theorem mem_iff (h : Learns k ts k') {t : Term} : t ∈ k' ↔ t ∈ k ∨ t ∈ ts := by
  induction h with
  | nil k => simp
  | cons hchildren _ ih => rw [ih, Known.mem_learn, List.mem_cons, or_assoc, or_left_comm]

/-- Terms can come in an order in which each follows its parts. -/
theorem exists_of_children {ts : List Term} (h : ∀ (i : Nat) (hi : i < ts.length),
    ∀ u ∈ ts[i].children, u ∈ k ∨ u ∈ ts.take i) : ∃ k', Learns k ts k' := by
  induction ts generalizing k with
  | nil => exact ⟨k, .nil k⟩
  | cons t ts ih =>
    have ht : ∀ u ∈ t.children, u ∈ k := by
      intro u hu
      simpa using h 0 (by simp) u hu
    obtain ⟨k', hk'⟩ := ih (k := k.learn t ht) fun i hi u hu => by
      have hmem := h (i + 1) (by simpa using hi) u hu
      rw [List.take_succ_cons, List.mem_cons, or_left_comm, ← or_assoc] at hmem
      exact hmem
    exact ⟨k', .cons ht hk'⟩

end Learns

namespace Build

variable {α β : Type} {k k' : Known}

/-- Each term is built after its parts, and the value is right for what is known then. -/
def IsGrounded (k : Known) (b : Build α) (post : Known → α → Prop) : Prop :=
  ∃ k', Learns k b.trace k' ∧ post k' b.value

abbrev Grounds (k : Known) (b : Build Term) : Prop :=
  b.IsGrounded k fun k' t => t ∈ k'

abbrev GroundsAll (k : Known) (b : Build (List Term)) : Prop :=
  b.IsGrounded k fun k' ts => ∀ t ∈ ts, t ∈ k'

theorem isGrounded_pure {a : α} {post : Known → α → Prop} (h : post k a) :
    (pure a : Build α).IsGrounded k post :=
  ⟨k, .nil k, h⟩

theorem IsGrounded.bind {x : Build α} {f : α → Build β} {P : Known → α → Prop}
    {Q : Known → β → Prop} (hx : x.IsGrounded k P)
    (hf : ∀ k', k ≤ k' → P k' x.value → (f x.value).IsGrounded k' Q) :
    (x >>= f).IsGrounded k Q := by
  obtain ⟨k', hlearns, hvalue⟩ := hx
  obtain ⟨k'', hlearns', hvalue'⟩ := hf k' hlearns.le hvalue
  exact ⟨k'', hlearns.append hlearns', hvalue'⟩

theorem IsGrounded.mono {b : Build α} {P Q : Known → α → Prop} (h : b.IsGrounded k P)
    (hpost : ∀ k', k ≤ k' → P k' b.value → Q k' b.value) : b.IsGrounded k Q := by
  obtain ⟨k', hlearns, hvalue⟩ := h
  exact ⟨k', hlearns, hpost k' hlearns.le hvalue⟩

theorem grounds_make {t : Term} (h : ∀ u ∈ t.children, u ∈ k) : (make t).Grounds k :=
  ⟨k.learn t h, .cons h (.nil _), .inl rfl⟩

theorem grounds_number (a : Rat) : (number a).Grounds k :=
  grounds_make (by simp [Term.children])

theorem grounds_sum {terms : List Term} (h : ∀ t ∈ terms, t ∈ k) : (sum terms).Grounds k := by
  match terms with
  | [] => exact grounds_make (by simp [Term.sumOf, Term.zero, Term.children])
  | [t] => exact isGrounded_pure (h t (by simp))
  | t :: u :: rest => exact grounds_make h

theorem grounds_product {factors : List Term} (h : ∀ t ∈ factors, t ∈ k) :
    (product factors).Grounds k := by
  match factors with
  | [] => exact grounds_make (by simp [Term.productOf, Term.one, Term.children])
  | [t] => exact isGrounded_pure (h t (by simp))
  | t :: u :: rest => exact grounds_make h

/-- What is known of the result for each item is still so for all of them in the end, if it
    stays so when more is known. -/
theorem isGrounded_each {f : α → Build β} {items : List α} {P : Known → β → Prop}
    (hmono : ∀ k k' : Known, k ≤ k' → ∀ b, P k b → P k' b)
    (h : ∀ k', k ≤ k' → ∀ a ∈ items, (f a).IsGrounded k' P) :
    (each f items).IsGrounded k fun k' bs => ∀ b ∈ bs, P k' b := by
  induction items generalizing k with
  | nil => exact isGrounded_pure (by simp)
  | cons a rest ih =>
    have hfirst := h k (Known.le_refl k) a List.mem_cons_self
    refine hfirst.bind fun k' hle hvalue => ?_
    have hrest := ih fun k'' hle' a' ha' =>
      h k'' (Known.le_trans hle hle') a' (List.mem_cons_of_mem a ha')
    refine hrest.bind fun k'' hle' hvalues => isGrounded_pure ?_
    exact List.forall_mem_cons.2 ⟨hmono k' k'' hle' _ hvalue, hvalues⟩

theorem groundsAll_each {f : α → Build Term} {items : List α}
    (h : ∀ k', k ≤ k' → ∀ a ∈ items, (f a).Grounds k') : (each f items).GroundsAll k :=
  isGrounded_each (fun _ _ hle t ht => hle t ht) h

end Build

/-! ### Sound pools -/

namespace Pool

/-- The table finds each term at its place, and each term comes after its parts. -/
structure IsSound (pool : Pool) : Prop where
  table_iff : ∀ (t : Term) (i : Nat), pool.table[t]? = some i ↔ pool.terms[i]? = some t
  children : ∀ (i : Nat) (t : Term), pool.terms[i]? = some t →
    ∀ u ∈ t.children, ∃ j < i, pool.terms[j]? = some u

variable {pool : Pool}

theorem isSound_empty : ({} : Pool).IsSound :=
  ⟨by simp, by simp⟩

/-- The terms of a pool are known. -/
def IsSound.known (h : pool.IsSound) : Known where
  terms := {t | t ∈ pool.terms}
  closed := by
    intro t ht u hu
    obtain ⟨i, hi⟩ := Array.mem_iff_getElem?.1 ht
    obtain ⟨j, -, hj⟩ := h.children i t hi u hu
    exact Array.mem_iff_getElem?.2 ⟨j, hj⟩

theorem IsSound.eq_known (h : pool.IsSound) {k : Known} (hk : ∀ t, t ∈ k ↔ t ∈ pool.terms) :
    k = h.known :=
  Known.ext (Set.ext hk)

/-! ### Interning -/

theorem IsSound.insert (h : pool.IsSound) {t : Term} (ht : ∀ u ∈ t.children, u ∈ pool.terms) :
    (pool.insert t).IsSound := by
  unfold Pool.insert
  split
  case h_1 => exact h
  case h_2 hnone =>
    have hnew : ∀ i : Nat, pool.terms[i]? ≠ some t := by
      intro i hi
      rw [(h.table_iff t i).2 hi] at hnone
      cases hnone
    constructor
    · intro u i
      rw [Std.HashMap.getElem?_insert, Array.getElem?_push]
      by_cases hu : t = u
      · subst hu
        by_cases hi : i = pool.terms.size
        · simp [hi]
        · simp [hi, hnew, Ne.symm hi]
      · simp only [beq_iff_eq, hu, if_false, h.table_iff]
        by_cases hi : i = pool.terms.size
        · simp [hi, hu]
        · simp [hi]
    · intro i u hi v hv
      rw [Array.getElem?_push] at hi
      by_cases hlast : i = pool.terms.size
      · rw [if_pos hlast] at hi
        cases hi
        obtain ⟨j, hj⟩ := Array.mem_iff_getElem?.1 (ht v hv)
        have hlt : j < pool.terms.size := (Array.getElem?_eq_some_iff.1 hj).1
        exact ⟨j, by omega, by rw [Array.getElem?_push, if_neg (by omega)]; exact hj⟩
      · rw [if_neg hlast] at hi
        obtain ⟨j, hlt, hj⟩ := h.children i u hi v hv
        have hsize : j < pool.terms.size := (Array.getElem?_eq_some_iff.1 hj).1
        exact ⟨j, hlt, by rw [Array.getElem?_push, if_neg (by omega)]; exact hj⟩

theorem mem_insert (h : pool.IsSound) {t u : Term} :
    u ∈ (pool.insert t).terms ↔ u = t ∨ u ∈ pool.terms := by
  unfold Pool.insert
  split
  case h_1 i hi =>
    refine ⟨.inr, fun hu => hu.elim (fun heq => ?_) id⟩
    rw [heq]
    exact Array.mem_iff_getElem?.2 ⟨i, (h.table_iff t i).1 hi⟩
  case h_2 =>
    rw [Array.mem_push, or_comm]

theorem isSound_internName (h : pool.IsSound) (name : String) : (pool.internName name).IsSound := by
  unfold internName
  split
  · exact h
  · exact ⟨h.table_iff, h.children⟩

theorem terms_internName (pool : Pool) (name : String) :
    (pool.internName name).terms = pool.terms := by
  unfold internName
  split <;> rfl

/-- A term whose parts are there is interned, and the pool stays sound. -/
theorem IsSound.intern (h : pool.IsSound) {t : Term} (ht : ∀ u ∈ t.children, u ∈ pool.terms) :
    (pool.intern t).IsSound ∧ ∀ u, u ∈ (pool.intern t).terms ↔ u = t ∨ u ∈ pool.terms := by
  have hplain := And.intro (h.insert ht) fun u => mem_insert h (t := t) (u := u)
  cases t with
  | symbol name =>
    have hnamed := isSound_internName h name
    rw [← terms_internName pool name] at ht ⊢
    exact ⟨hnamed.insert ht, fun u => mem_insert hnamed⟩
  | _ => exact hplain

theorem IsSound.internAll {k k' : Known} {ts : List Term} (hlearns : Learns k ts k')
    (h : pool.IsSound) (hk : ∀ t, t ∈ k ↔ t ∈ pool.terms) :
    (pool.internAll ts).IsSound ∧ ∀ t, t ∈ k' ↔ t ∈ (pool.internAll ts).terms := by
  induction hlearns generalizing pool with
  | nil => exact ⟨h, hk⟩
  | cons hchildren _ ih =>
    obtain ⟨hsound, hmem⟩ := h.intern fun u hu => (hk u).1 (hchildren u hu)
    refine ih hsound fun u => ?_
    rw [Known.mem_learn, hmem, hk]

/-- A grounded construction is kept, and its value is right for what the pool holds then. -/
theorem IsSound.record {α : Type} (h : pool.IsSound) {b : Build α} {post : Known → α → Prop}
    (hb : b.IsGrounded h.known post) :
    ∃ h' : (pool.record b).2.IsSound, h.known ≤ h'.known ∧ post h'.known (pool.record b).1 := by
  obtain ⟨k', hlearns, hvalue⟩ := hb
  obtain ⟨hsound, hmem⟩ := h.internAll hlearns fun _ => Iff.rfl
  have hk' : k' = hsound.known := hsound.eq_known hmem
  subst hk'
  exact ⟨hsound, hlearns.le, hvalue⟩

/-! ### Handles -/

theorem IsSound.get?_handleOf (h : pool.IsSound) {t : Term} (ht : t ∈ pool.terms) :
    pool.get? (pool.handleOf t) = some t := by
  obtain ⟨i, hi⟩ := Array.mem_iff_getElem?.1 ht
  have htable := (h.table_iff t i).2 hi
  rw [get?, handleOf, Std.HashMap.getD_eq_getD_getElem?, htable]
  exact hi

/-- Terms of a sound pool are equal exactly if their handles are. -/
theorem IsSound.handleOf_inj (h : pool.IsSound) {t u : Term} (ht : t ∈ pool.terms)
    (hu : u ∈ pool.terms) : pool.handleOf t = pool.handleOf u ↔ t = u := by
  constructor
  · intro heq
    have hterm := h.get?_handleOf ht
    rw [heq, h.get?_handleOf hu] at hterm
    exact (Option.some.inj hterm).symm
  · intro heq
    exact by rw [heq]

/-! ### Entering terms one after the other -/

/-- A new term is put behind the others. -/
theorem terms_insert_of_not_mem (h : pool.IsSound) {t : Term} (ht : t ∉ pool.terms) :
    (pool.insert t).terms = pool.terms.push t := by
  unfold Pool.insert
  split
  case h_1 i hi => exact absurd (Array.mem_iff_getElem?.2 ⟨i, (h.table_iff t i).1 hi⟩) ht
  case h_2 => rfl

theorem terms_intern_of_not_mem (h : pool.IsSound) {t : Term} (ht : t ∉ pool.terms) :
    (pool.intern t).terms = pool.terms.push t := by
  cases t with
  | symbol name =>
    rw [← terms_internName pool name] at ht ⊢
    exact terms_insert_of_not_mem (isSound_internName h name) ht
  | _ => exact terms_insert_of_not_mem h ht

/-- New terms, each entered once, are put behind the others in their order. -/
theorem IsSound.terms_internAll {k k' : Known} {ts : List Term} (hlearns : Learns k ts k')
    (h : pool.IsSound) (hk : ∀ t, t ∈ k ↔ t ∈ pool.terms) (hnew : ∀ t ∈ ts, t ∉ pool.terms)
    (hnodup : ts.Nodup) : (pool.internAll ts).terms = pool.terms ++ ts := by
  induction hlearns generalizing pool with
  | nil => exact (Array.append_empty).symm
  | @cons k k' t ts hchildren _ ih =>
    obtain ⟨ht, hnodup⟩ := List.nodup_cons.1 hnodup
    obtain ⟨hfirst, hnew⟩ := List.forall_mem_cons.1 hnew
    obtain ⟨hsound, hmem⟩ := h.intern fun u hu => (hk u).1 (hchildren u hu)
    have hrest : ∀ u ∈ ts, u ∉ (pool.intern t).terms := by
      intro u hu hknown
      rcases (hmem u).1 hknown with rfl | hold
      · exact ht hu
      · exact hnew u hu hold
    have hall := ih hsound (fun u => by rw [Known.mem_learn, hmem, hk]) hrest hnodup
    rw [terms_intern_of_not_mem h hfirst] at hall
    exact hall.trans (by simp)

section EnteringTerms

variable {ts : List Term} (h : ∀ (i : Nat) (hi : i < ts.length), ∀ u ∈ ts[i].children, u ∈ ts.take i)

include h

/-- Terms that come after their parts are those of the pool that takes them in. -/
theorem isSound_internAll : (({} : Pool).internAll ts).IsSound ∧
    ∀ t, t ∈ (({} : Pool).internAll ts).terms ↔ t ∈ ts := by
  obtain ⟨k', hlearns⟩ : ∃ k', Learns isSound_empty.known ts k' :=
    Learns.exists_of_children fun i hi u hu => .inr (h i hi u hu)
  obtain ⟨hsound, hmem⟩ := isSound_empty.internAll hlearns fun _ => Iff.rfl
  refine ⟨hsound, fun t => ?_⟩
  rw [← hmem, hlearns.mem_iff]
  exact or_iff_right fun hempty => Array.not_mem_empty t hempty

/-- Each term that is entered has the place at which it is entered, if none is entered twice. -/
theorem terms_internAll (hnodup : ts.Nodup) : (({} : Pool).internAll ts).terms = ts.toArray := by
  obtain ⟨k', hlearns⟩ : ∃ k', Learns isSound_empty.known ts k' :=
    Learns.exists_of_children fun i hi u hu => .inr (h i hi u hu)
  have hterms := isSound_empty.terms_internAll hlearns (fun _ => Iff.rfl)
    (fun t _ => Array.not_mem_empty t) hnodup
  exact hterms.trans (by simp)

theorem get?_handleOf_internAll {t : Term} (ht : t ∈ ts) :
    (({} : Pool).internAll ts).get? ((({} : Pool).internAll ts).handleOf t) = some t := by
  obtain ⟨hsound, hmem⟩ := isSound_internAll h
  exact hsound.get?_handleOf ((hmem t).2 ht)

end EnteringTerms

end Pool

/-! ### Growth -/

namespace Pool

/-- Every handle of the first pool denotes the same term in the second. -/
def Extends (pool pool' : Pool) : Prop :=
  ∀ handle t, pool.get? handle = some t → pool'.get? handle = some t

variable {pool pool' pool'' : Pool}

theorem Extends.refl (pool : Pool) : pool.Extends pool :=
  fun _ _ h => h

theorem Extends.trans (h : pool.Extends pool') (h' : pool'.Extends pool'') :
    pool.Extends pool'' :=
  fun handle t ht => h' handle t (h handle t ht)

theorem Extends.get (h : pool.Extends pool') {handle : Handle} {t : Term}
    (ht : pool.get handle = .ok t) : pool'.get handle = .ok t := by
  unfold Pool.get at ht ⊢
  split at ht
  case h_1 u hu =>
    cases ht
    rw [h handle t hu]
  case h_2 => cases ht

theorem extends_insert (pool : Pool) (t : Term) : pool.Extends (pool.insert t) := by
  intro handle u hu
  unfold Pool.insert
  split
  · exact hu
  · have hlt : handle.index < pool.terms.size := (Array.getElem?_eq_some_iff.1 hu).1
    show (pool.terms.push t)[handle.index]? = some u
    rw [Array.getElem?_push, if_neg (by omega)]
    exact hu

theorem extends_internName (pool : Pool) (name : String) :
    pool.Extends (pool.internName name) := by
  intro handle u hu
  rw [get?, terms_internName]
  exact hu

theorem extends_intern (pool : Pool) (t : Term) : pool.Extends (pool.intern t) := by
  cases t with
  | symbol name => exact (extends_internName pool name).trans (extends_insert _ _)
  | _ => exact extends_insert pool _

theorem extends_internAll (pool : Pool) (terms : List Term) :
    pool.Extends (pool.internAll terms) := by
  induction terms generalizing pool with
  | nil => exact .refl pool
  | cons t ts ih => exact (extends_intern pool t).trans (ih (pool.intern t))

end Pool

theorem Context.extends_record {α : Type} (context : Context) (b : Build α) :
    context.pool.Extends (context.record b).2.pool :=
  Pool.extends_internAll context.pool b.trace

end EquationSolver
