import EquationSolver.Proofs.Solver.Capacity
import Mathlib.Data.List.Nodup

/-!
# What a collection of variables finds

Collecting the symbols of a term into a set comes to the same as inserting the symbols that occur
in it one after the other.  So the set grows by those that it lacks, in the order in which they
occur first, as long as it has room: if they all fit, they are all there, and otherwise the set is
full.
-/

namespace EquationSolver

/-! ### Occurrences of symbols -/

namespace Term

mutual

/-- The symbols of a term as often as they occur, depth first and from left to right. -/
def occurrences : Term → List String
  | .symbol name => [name]
  | .sum terms | .product terms | .matrix _ _ terms => occurrencesInAll terms
  | .power a b | .quotient a b => occurrences a ++ occurrences b
  | .negation a | .apply _ a => occurrences a
  | .number _ | .decimal _ | .constant _ | .undefined | .nonreal => []

def occurrencesInAll : List Term → List String
  | [] => []
  | t :: ts => occurrences t ++ occurrencesInAll ts

end

theorem occurrencesInAll_eq_flatMap (terms : List Term) :
    occurrencesInAll terms = terms.flatMap occurrences := by
  induction terms with
  | nil => rfl
  | cons t ts ih => rw [occurrencesInAll, ih, List.flatMap_cons]

/-- The symbols of a term that is none itself are those of its parts, one part after the other. -/
theorem occurrences_eq_flatMap_children {t : Term} (h : ∀ name, t ≠ .symbol name) :
    t.occurrences = t.children.flatMap occurrences := by
  cases t with
  | symbol name => exact absurd rfl (h name)
  | sum terms | product terms | matrix _ _ terms => exact occurrencesInAll_eq_flatMap terms
  | power a b | quotient a b => simp [occurrences, children]
  | negation a | apply _ a => simp [occurrences, children]
  | _ => rfl

end Term

namespace VariableSet

/-! ### Sets -/

section Sets

variable {α : Type} [DecidableEq α] {set set' : VariableSet α}

/-- The set comes from an empty one by inserting and clearing. -/
inductive IsReached : VariableSet α → Prop
  | empty (capacity : Nat) : IsReached { capacity }
  | insert {set set' : VariableSet α} {a : α} :
      IsReached set → set.insert a = .ok set' → IsReached set'
  | clear {set : VariableSet α} : IsReached set → IsReached set.clear

/-- The set with more items behind those that it has. -/
def extend (set : VariableSet α) (items : List α) : VariableSet α :=
  { set with items := set.items ++ items }

/-- An insertion leaves the set as it is, or puts a new item behind the others. -/
theorem insert_cases {a : α} (h : set.insert a = .ok set') :
    a ∈ set.items ∧ set' = set ∨
      a ∉ set.items ∧ set.items.length < set.capacity ∧ set' = set.extend [a] := by
  unfold insert at h
  split_ifs at h with hmem hroom
  · exact .inl ⟨hmem, (Except.ok.inj h).symm⟩
  · exact .inr ⟨hmem, hroom, (Except.ok.inj h).symm⟩

/-- No item is in the set twice, and there are no more than it can hold. -/
structure IsBounded (set : VariableSet α) : Prop where
  nodup : set.items.Nodup
  length_le : set.items.length ≤ set.capacity

omit [DecidableEq α] in
theorem IsBounded.extend_singleton (h : set.IsBounded) {a : α} (ha : a ∉ set.items)
    (hroom : set.items.length < set.capacity) : (set.extend [a]).IsBounded where
  nodup := h.nodup.append (List.nodup_singleton a) (by simpa using ha)
  length_le := by
    rw [extend, List.length_append]
    exact hroom

theorem IsReached.isBounded (h : set.IsReached) : set.IsBounded := by
  induction h with
  | empty capacity => exact ⟨List.nodup_nil, Nat.zero_le capacity⟩
  | insert _ hinsert ih =>
    obtain ⟨-, rfl⟩ | ⟨hnew, hroom, rfl⟩ := insert_cases hinsert
    · exact ih
    · exact ih.extend_singleton hnew hroom
  | clear _ _ => exact ⟨List.nodup_nil, Nat.zero_le _⟩

end Sets

/-! ### One insertion after the other -/

variable {keep : String → Bool} {set : VariableSet String}

/-- Insert the names that are to be kept, up to the first that does not fit. -/
def insertEach (keep : String → Bool) (set : VariableSet String) :
    List String → VariableSet String × Option CapacityExceeded
  | [] => (set, none)
  | name :: names =>
    match insertKept keep set name with
    | (set, none) => insertEach keep set names
    | overflow => overflow

theorem insertEach_append (names names' : List String) :
    insertEach keep set (names ++ names') =
      match insertEach keep set names with
      | (set, none) => insertEach keep set names'
      | overflow => overflow := by
  induction names generalizing set with
  | nil => rfl
  | cons name names ih =>
    rw [List.cons_append, insertEach, insertEach]
    obtain ⟨found, overflow⟩ := insertKept keep set name
    cases overflow with
    | none => exact ih
    | some e => rfl

/-- Both ways of going on after a collection agree, unless there is an overflow. -/
theorem then_congr {next next' : VariableSet String → VariableSet String × Option CapacityExceeded}
    (h : ∀ set, next set = next' set) (found : VariableSet String × Option CapacityExceeded) :
    (match found with
      | (set, none) => next set
      | overflow => overflow) =
    match found with
      | (set, none) => next' set
      | overflow => overflow := by
  obtain ⟨set, overflow⟩ := found
  cases overflow with
  | none => exact h set
  | some e => rfl

mutual

/-- Collecting the symbols of a term is inserting those that occur in it. -/
theorem collect_eq_insertEach : ∀ (t : Term) (set : VariableSet String),
    collect keep set t = insertEach keep set t.occurrences
  | .number _, _ | .decimal _, _ | .constant _, _ | .undefined, _ | .nonreal, _ => by
    rw [collect, Term.occurrences, insertEach]
  | .symbol name, set => by
    rw [collect, Term.occurrences, insertEach]
    obtain ⟨found, overflow⟩ := insertKept keep set name
    cases overflow <;> rfl
  | .sum terms, set | .product terms, set | .matrix _ _ terms, set => by
    rw [collect, Term.occurrences]
    exact collectAll_eq_insertEach terms set
  | .power a b, set | .quotient a b, set => by
    rw [collect, Term.occurrences, insertEach_append, collect_eq_insertEach a]
    exact then_congr (collect_eq_insertEach b) _
  | .negation a, set | .apply _ a, set => by
    rw [collect, Term.occurrences]
    exact collect_eq_insertEach a set

theorem collectAll_eq_insertEach : ∀ (terms : List Term) (set : VariableSet String),
    collectAll keep set terms = insertEach keep set (Term.occurrencesInAll terms)
  | [], _ => by
    rw [collectAll, Term.occurrencesInAll, insertEach]
  | t :: ts, set => by
    rw [collectAll, Term.occurrencesInAll, insertEach_append, collect_eq_insertEach t]
    exact then_congr (collectAll_eq_insertEach ts) _

end

/-! ### New items -/

/-- The names to be kept that a set lacks, in the order in which they occur first. -/
def lacking (keep : String → Bool) (set : VariableSet String) (names : List String) :
    List String :=
  (names.filter fun name => keep name && name ∉ set.items).eraseDups

theorem lacking_cons_of_mem {name : String} (h : keep name = false ∨ name ∈ set.items)
    (names : List String) : lacking keep set (name :: names) = lacking keep set names := by
  unfold lacking
  rw [List.filter_cons_of_neg (by rcases h with h | h <;> simp [h])]

/-- A name that the set lacks is followed by those that it lacks once it has that name. -/
theorem lacking_cons_of_not_mem {name : String} (hkeep : keep name = true)
    (hnew : name ∉ set.items) (names : List String) :
    lacking keep set (name :: names) = name :: lacking keep (set.extend [name]) names := by
  unfold lacking
  rw [List.filter_cons_of_pos (by simp [hkeep, hnew]), List.eraseDups_cons, List.filter_filter]
  congr 2
  refine List.filter_congr fun other _ => ?_
  by_cases heq : other = name <;> simp [extend, heq]

/-- As many of the names are inserted as there is room for, and there is an overflow if some do
    not fit. -/
theorem insertEach_eq (h : set.items.length ≤ set.capacity) (names : List String) :
    insertEach keep set names =
      (set.extend ((lacking keep set names).take (set.capacity - set.items.length)),
        if set.items.length + (lacking keep set names).length ≤ set.capacity then none
        else some ⟨set.capacity⟩) := by
  induction names generalizing set with
  | nil => simp [insertEach, lacking, extend, h]
  | cons name names ih =>
    rw [insertEach, insertKept]
    by_cases hkeep : keep name = true
    · rw [if_pos hkeep, insert]
      by_cases hmem : name ∈ set.items
      · rw [if_pos hmem, lacking_cons_of_mem (.inr hmem)]
        exact ih h
      · rw [if_neg hmem, lacking_cons_of_not_mem hkeep hmem]
        by_cases hroom : set.items.length < set.capacity
        · have hlength : (set.extend [name]).items.length = set.items.length + 1 := by
            simp [extend]
          have hothers : insertEach keep (set.extend [name]) names = _ := ih (hlength ▸ hroom)
          rw [if_pos hroom]
          refine hothers.trans ?_
          obtain ⟨room, hcapacity⟩ := Nat.exists_eq_add_of_lt hroom
          have htake : set.capacity - set.items.length = room + 1 := by omega
          have htake' : set.capacity - (set.items.length + 1) = room := by omega
          refine Prod.ext ?_ (if_congr ?_ rfl rfl)
          · simp [extend, htake, htake']
          · rw [hlength, List.length_cons, Nat.add_assoc, Nat.add_comm 1]
            rfl
        · have hfull : set.items.length = set.capacity := by omega
          rw [if_neg hroom]
          simp [extend, hfull]
    · rw [if_neg hkeep, lacking_cons_of_mem (.inl (by simpa using hkeep))]
      exact ih h

/-! ### Collecting -/

/-- Collecting comes to no overflow just when the set has room for the symbols of the term that are
    to be kept and that it lacks; then it has them all behind those that it had, in the order in
    which they occur first.  At an overflow it has the first of them, and is full. -/
theorem collect_exact (h : set.IsReached) (keep : String → Bool) (t : Term) :
    let found := collect keep set t
    let new := lacking keep set t.occurrences
    (found.2 = none ↔ set.items.length + new.length ≤ set.capacity) ∧
      (found.2 = none → found.1 = set.extend new) ∧
      (found.2 ≠ none → found.2 = some ⟨set.capacity⟩ ∧
        found.1 = set.extend (new.take (set.capacity - set.items.length)) ∧
        found.1.items.length = set.capacity) ∧
      found.1.items.Nodup := by
  intro found new
  have hroom : set.items.length ≤ set.capacity := h.isBounded.length_le
  have hfound : found = (set.extend (new.take (set.capacity - set.items.length)),
      if set.items.length + new.length ≤ set.capacity then none else some ⟨set.capacity⟩) :=
    (collect_eq_insertEach t set).trans (insertEach_eq hroom t.occurrences)
  refine ⟨?_, fun hnone => ?_, fun hsome => ?_, nodup_collect t h.isBounded.nodup⟩
  · simp [hfound]
  · have hfits : set.items.length + new.length ≤ set.capacity := by simpa [hfound] using hnone
    rw [hfound, List.take_of_length_le (by omega)]
  · have hover : ¬set.items.length + new.length ≤ set.capacity := by
      simpa [hfound] using hsome
    refine ⟨by simp [hfound, hover], by rw [hfound], ?_⟩
    rw [hfound]
    simp only [extend, List.length_append, List.length_take]
    omega

/-- Of `y`, `x`, `z` and `w`, a set for three with `x` in it has room for `y` and `z`. -/
theorem collect_exact_overflow :
    let set : VariableSet String := { items := ["x"], capacity := 3 }
    let t : Term := .sum [.product [.symbol "y", .symbol "x"], .symbol "i",
      .power (.symbol "z") (.symbol "w"), .symbol "y"]
    let keep : String → Bool := fun name => name != "i"
    set.IsReached ∧ lacking keep set t.occurrences = ["y", "z", "w"] ∧
      (collect keep set t).1.items = ["x", "y", "z"] ∧ (collect keep set t).2 = some ⟨3⟩ := by
  intro set t keep
  have hset : set.IsReached := (IsReached.empty 3).insert (a := "x") rfl
  have hnew : lacking keep set t.occurrences = ["y", "z", "w"] := by decide
  obtain ⟨hiff, -, hover, -⟩ := collect_exact hset keep t
  obtain ⟨hcapacity, hitems, -⟩ := hover fun hnone => by
    rw [hnew] at hiff
    exact absurd (hiff.1 hnone) (by decide)
  refine ⟨hset, hnew, ?_, hcapacity⟩
  rw [hitems, hnew]
  rfl

end VariableSet

end EquationSolver
