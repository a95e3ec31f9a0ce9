import EquationSolver.Proofs.Interned.Reduce
import EquationSolver.Proofs.Reduction.Definitions
import EquationSolver.Proofs.Solver.Growth
import EquationSolver.Proofs.Solver.Sides

/-!
# Reduction depends on trees

A reduction goes from the handle of a term to its node and on to the handles in it, remembers
what it has reduced by handle, sorts handles by the orders of the pool and leaves new nodes in the
pool as it goes.  It returns the handle of the reduction of the term, which the definitions of
the symbols alone determine.  What else the pool holds, the order in which terms and names came
into it and what was cut off it in between have no influence: handles that denote the same tree
are reduced to handles that denote the same tree, and they take the same places in the orders of
factors and of terms.
-/

namespace EquationSolver

namespace Context

/-- The tree that defines a name. -/
def definition? (context : Context) (name : String) : Option Term :=
  (context.definitionHandle? name).bind context.pool.tree?

/-- Reduce the term at a handle; the result is a handle, too. -/
def reduceHandle (context : Context) (s : Reduction.Settings) (handle : Handle) :
    Except Fault (Handle × Context) := do
  let t ← context.pool.get handle
  let (result, context) := context.reduce s t
  pure (context.pool.handleOf result, context)

variable {context context' : Context} {s : Reduction.Settings} {handle : Handle} {t : Term}

/-- Where every definition is in the pool, looking up its term is looking up its handle. -/
theorem lookup_definedTerms (h : context.pool.IsWellFormed) (hdefines : context.DefinesTerms)
    (name : String) : context.definedTerms.lookup name = context.definition? name := by
  unfold definition? definitionHandle? definedTerms
  unfold DefinesTerms at hdefines
  generalize context.definitions = definitions at hdefines
  induction definitions with
  | nil => rfl
  | cons definition rest ih =>
    obtain ⟨⟨t, ht⟩, hrest⟩ := List.forall_mem_cons.1 hdefines
    rw [List.filterMap_cons, ht, Option.map_some, List.lookup_cons, List.lookup_cons]
    cases name == definition.1 with
    | true => exact (ht ▸ h.tree?_eq_get? definition.2).symm
    | false => exact ih hrest

/-- The term at a handle is reduced to a handle of the reduced term. -/
theorem exists_reduceHandle (h : context.pool.Reachable)
    (ht : context.pool.tree? handle = some t) : ∃ result after,
      context.reduceHandle s handle = .ok (result, after) ∧
        after.pool.tree? result = some (Reduction.reduce s context.definedTerms t).value := by
  rw [h.isWellFormed.tree?_eq_get?] at ht
  have hget : context.pool.get handle = .ok t := Pool.get_eq_ok_iff.2 ht
  have hstarts : (Reduction.reduce s context.definedTerms t).StartsFrom (terms context) :=
    Reduction.startsFrom_reduce context.terms_definedTerms_subset (mem_terms_of_get hget)
  refine ⟨_, _, ?_, tree?_handleOf_record h.isWellFormed hstarts (by simp)⟩
  unfold reduceHandle
  rw [hget]
  rfl

theorem length_definedTerms (hdefines : context.DefinesTerms) :
    context.definedTerms.length = context.definitions.length := by
  rw [definedTerms, List.length_filterMap_eq_countP, List.countP_eq_length]
  intro definition hmem
  obtain ⟨t, ht⟩ := hdefines definition hmem
  rw [ht]
  rfl

/-- A name is defined by a handle of the term that defines it. -/
theorem denotes_lookup_definedTerms (h : context.pool.Reachable)
    (hdefines : context.DefinesTerms) (name : String) :
    Linked.handle.option.Holds context.pool (context.definitions.lookup name)
      (context.definedTerms.lookup name) := by
  rw [lookup_definedTerms h.isWellFormed hdefines, definition?, definitionHandle?]
  cases hname : context.definitions.lookup name with
  | none => exact .none
  | some definition =>
    obtain ⟨before, after, hmem, -⟩ := List.lookup_eq_some_iff.1 hname
    obtain ⟨t, ht⟩ := hdefines (name, definition) (by simp [hmem])
    replace ht : context.pool.get? definition = some t := ht
    rw [Option.bind_some, h.isWellFormed.tree?_eq_get?, ht]
    exact .some ht

/-- The reduction by nodes and handles returns a handle of the reduction of the term, and leaves
    in the pool what that builds, in the same order; it stops at a handle that denotes nothing. -/
theorem simplify_eq_reduceHandle (h : context.pool.Reachable) (hdefines : context.DefinesTerms)
    (s : Reduction.Settings) (handle : Handle) :
    context.simplify s handle = context.reduceHandle s handle := by
  unfold simplify reduceHandle
  cases hget : context.pool.get? handle with
  | none =>
    have hnode : context.pool.node? handle = none := by rw [Pool.node?, hget, Option.bind_none]
    rw [show Interned.reduce s context.definitions handle context.pool = .error .dangling from
      Interned.reduce_of_dangling hnode, Pool.get, hget]
    rfl
  | some t =>
    obtain ⟨result, hrun, hreachable, hresult⟩ := Interned.performs_reduce (s := s) h
      (length_definedTerms hdefines).symm (denotes_lookup_definedTerms h hdefines) hget
    have hhandle := hreachable.handleOf_of_denotes hresult
    rw [hrun, Pool.get_eq_ok_iff.2 hget, ← hhandle]
    rfl

/-- Handles that denote the same tree are reduced to handles that denote the same tree, in any two
    pools that constructors, new names and cuts lead to, if the definitions are the same trees;
    and handles compare as the trees that they denote. -/
theorem simplify_depends_on_trees (h : context.pool.Reachable) (h' : context'.pool.Reachable)
    (hdefines : context.DefinesTerms) (hdefines' : context'.DefinesTerms)
    (hdefinitions : ∀ name, context.definition? name = context'.definition? name)
    (s : Reduction.Settings) {handle' : Handle} (ht : context.pool.tree? handle = some t)
    (ht' : context'.pool.tree? handle' = some t) :
    (∃ result after result' after' u, context.simplify s handle = .ok (result, after) ∧
      context'.simplify s handle' = .ok (result', after') ∧
      after.pool.tree? result = some u ∧ after'.pool.tree? result' = some u) ∧
    ∀ other other' v, context.pool.tree? other = some v → context'.pool.tree? other' = some v →
      context.pool.compareHandles handle other = context'.pool.compareHandles handle' other' ∧
      context.pool.compareTermHandles handle other =
        context'.pool.compareTermHandles handle' other' := by
  have hlookup name : context.definedTerms.lookup name = context'.definedTerms.lookup name := by
    rw [lookup_definedTerms h.isWellFormed hdefines, lookup_definedTerms h'.isWellFormed hdefines',
      hdefinitions]
  have hagree : Reduction.AgreeOn (fun _ => True) context.definedTerms context'.definedTerms :=
    { lookup_eq := fun name _ => hlookup name
      closed := fun _ _ _ _ _ _ => trivial }
  constructor
  · obtain ⟨result, after, hreduce, htree⟩ := exists_reduceHandle (s := s) h ht
    obtain ⟨result', after', hreduce', htree'⟩ := exists_reduceHandle (s := s) h' ht'
    rw [← simplify_eq_reduceHandle h hdefines] at hreduce
    rw [← simplify_eq_reduceHandle h' hdefines'] at hreduce'
    rw [← hagree.reduce_eq fun _ _ _ => trivial] at htree'
    exact ⟨result, after, result', after', _, hreduce, hreduce', htree, htree'⟩
  · intro other other' v hother hother'
    rw [h.isWellFormed.tree?_eq_get?] at ht hother
    rw [h'.isWellFormed.tree?_eq_get?] at ht' hother'
    rw [h.compareHandles_eq ht hother, h'.compareHandles_eq ht' hother',
      h.compareTermHandles_eq ht hother, h'.compareTermHandles_eq ht' hother']
    exact ⟨rfl, rfl⟩

/-- The pool of two symbols, in the order in which they are entered, and no more. -/
def ofSymbols (first second : String) : Pool :=
  ({} : Pool).internAll [.symbol first, .symbol second]

theorem follows_parts_ofSymbols (first second : String) :
    ∀ (i : Nat) (hi : i < [Term.symbol first, .symbol second].length),
      ∀ u ∈ [Term.symbol first, .symbol second][i].children,
        u ∈ [Term.symbol first, .symbol second].take i
  | 0, _, _, hu | 1, _, _, hu => nomatch hu

theorem reachable_ofSymbols (first second : String) : (ofSymbols first second).Reachable :=
  Pool.reachable_internAll (by simp [Construction.Makes]) (follows_parts_ofSymbols first second)

theorem get?_ofSymbols {first second : String} (h : first ≠ second) :
    (ofSymbols first second).get? ⟨0⟩ = some (.symbol first) ∧
      (ofSymbols first second).get? ⟨1⟩ = some (.symbol second) := by
  have hterms : (ofSymbols first second).terms = #[.symbol first, .symbol second] :=
    Pool.terms_internAll (follows_parts_ofSymbols first second) (by simpa using h)
  rw [Pool.get?, Pool.get?, hterms]
  exact ⟨rfl, rfl⟩

theorem simplify_depends_on_trees_definition :
    ∃ result after result' after' u,
      simplify { pool := ofSymbols "x" "y", definitions := [("x", ⟨1⟩)] } {} ⟨0⟩ =
        .ok (result, after) ∧
      simplify { pool := ofSymbols "y" "x", definitions := [("x", ⟨0⟩)] } {} ⟨1⟩ =
        .ok (result', after') ∧
      after.pool.tree? result = some u ∧ after'.pool.tree? result' = some u := by
  have hpool := (reachable_ofSymbols "x" "y").isWellFormed
  have hpool' := (reachable_ofSymbols "y" "x").isWellFormed
  obtain ⟨hx, hy⟩ := get?_ofSymbols (show "x" ≠ "y" by decide)
  obtain ⟨hy', hx'⟩ := get?_ofSymbols (show "y" ≠ "x" by decide)
  refine (simplify_depends_on_trees (t := .symbol "x") (reachable_ofSymbols "x" "y")
    (reachable_ofSymbols "y" "x") ?_ ?_ (fun name => ?_) {} ?_ ?_).1
  · simp [DefinesTerms, hy]
  · simp [DefinesTerms, hy']
  · cases hname : name == "x" <;>
      simp [definition?, definitionHandle?, List.lookup_cons, hname, hpool.tree?_eq_get?,
        hpool'.tree?_eq_get?, hy, hy']
  · exact (hpool.tree?_eq_get? _).trans hx
  · exact (hpool'.tree?_eq_get? _).trans hx'

end Context

end EquationSolver
