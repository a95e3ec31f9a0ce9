import EquationSolver.Proofs.Solver.Reading
import EquationSolver.Proofs.Solver.Passes
import EquationSolver.Proofs.Value.Symbols
import Mathlib.Logic.Relation

/-!
# How a system is classified

Only an exact solve classifies a system: as a polynomial of degree two or three, or as general,
only for one equation in one unknown, and as general just when it asks for a numeric search.
Numeric searches, blanking and new bounds leave the kind as it is, up to the interval, so that
it tells what the last exact solve was given.  No list of solutions outgrows its room.
-/

namespace EquationSolver

open Reduction (Settings)

/-! ### Symbols that are collected -/

namespace VariableSet

variable {keep : String → Bool} {set : VariableSet String} {name : String}

theorem mem_of_insertKept {other : String} (h : name ∈ (insertKept keep set other).1.items) :
    name ∈ set.items ∨ name = other := by
  unfold insertKept insert at h
  split_ifs at h
  · exact .inl h
  · exact (List.mem_append.1 h).imp_right List.mem_singleton.1
  · exact .inl h
  · exact .inl h

/-- What two collections in a row find is found by one of them. -/
theorem mem_of_then {found : VariableSet String × Option CapacityExceeded}
    {next : VariableSet String → VariableSet String × Option CapacityExceeded} {P Q : Prop}
    (hfirst : name ∈ found.1.items → P)
    (hnext : name ∈ (next found.1).1.items → name ∈ found.1.items ∨ Q)
    (h : name ∈ (match found with
      | (set, none) => next set
      | overflow => overflow).1.items) : P ∨ Q := by
  obtain ⟨middle, overflow⟩ := found
  cases overflow with
  | none => exact (hnext h).imp_left hfirst
  | some e => exact .inl (hfirst h)

mutual

/-- Only symbols of the term are collected. -/
theorem mem_of_collect : ∀ (t : Term) {set : VariableSet String},
    name ∈ (collect keep set t).1.items → name ∈ set.items ∨ t.Mentions name
  | .number _, _, h | .decimal _, _, h | .constant _, _, h | .undefined, _, h
  | .nonreal, _, h => .inl h
  | .symbol other, _, h =>
    (mem_of_insertKept h).imp_right fun heq => Term.mentions_symbol.2 heq.symm
  | .sum terms, _, h => (mem_of_collectAll terms h).imp_right Term.mentions_sum.2
  | .product factors, _, h => (mem_of_collectAll factors h).imp_right Term.mentions_product.2
  | .matrix _ _ entries, _, h => (mem_of_collectAll entries h).imp_right Term.mentions_matrix.2
  | .power a b, _, h => by
    rw [Term.mentions_power, ← or_assoc]
    exact mem_of_then (mem_of_collect a) (mem_of_collect b) h
  | .quotient a b, _, h => by
    rw [Term.mentions_quotient, ← or_assoc]
    exact mem_of_then (mem_of_collect a) (mem_of_collect b) h
  | .negation a, _, h => (mem_of_collect a h).imp_right Term.mentions_negation.2
  | .apply _ a, _, h => (mem_of_collect a h).imp_right Term.mentions_apply.2

theorem mem_of_collectAll : ∀ (terms : List Term) {set : VariableSet String},
    name ∈ (collectAll keep set terms).1.items →
      name ∈ set.items ∨ ∃ t ∈ terms, t.Mentions name
  | [], _, h => .inl h
  | t :: ts, _, h => by
    rw [List.exists_mem_cons_iff, ← or_assoc]
    exact mem_of_then (mem_of_collect t) (mem_of_collectAll ts) h

end

end VariableSet

/-! ### Registering -/

namespace SolutionRegistry

variable {s : Settings} {definitions : Definitions} {policy : DisplayPolicy}
  {type : SolutionType}

/-- The place in reserve is free. -/
def HasReserve {ν : Type} (registry : SolutionRegistry ν) : Prop :=
  registry.solutions.length ≤ maxSolutions - 1

theorem HasReserve.add {registry registry' : SolutionRegistry Term}
    {solution : Option (Solution Term)} (h : registry.HasReserve)
    (hadd : registry.add solution = .ok registry') : registry'.HasReserve := by
  unfold SolutionRegistry.add at hadd
  split at hadd
  case h_1 =>
    cases hadd
    exact h
  case h_2 =>
    split at hadd
    case isTrue hroom =>
      cases hadd
      rw [HasReserve, List.length_append, List.length_singleton]
      exact hroom
    case isFalse => cases hadd

theorem ensures_addTerms_hasReserve {registry : SolutionRegistry Term} (terms : List Term)
    (h : registry.HasReserve) :
    (registry.addTerms s definitions policy type terms).Ensures fun added =>
      added.1.HasReserve := by
  induction terms generalizing registry with
  | nil => exact CheckedBuild.ensures_pure h
  | cons t ts ih =>
    have hterm : (registry.addTerm s definitions policy type t).Ensures fun added =>
        ∀ registry', added = .ok registry' → registry'.HasReserve := by
      unfold addTerm
      apply CheckedBuild.ensures_build_bind
      split
      case h_1 => exact CheckedBuild.ensures_pure fun _ heq => nomatch heq
      case h_2 solution _ =>
        apply CheckedBuild.ensures_except_bind
        intro found hfound
        apply CheckedBuild.ensures_pure
        rintro registry' ⟨⟩
        exact h.add hfound
    unfold addTerms
    refine hterm.bind fun added hadded => ?_
    cases added with
    | error e => exact CheckedBuild.ensures_pure h
    | ok registry' => exact ih (hadded registry' rfl)

end SolutionRegistry

/-! ### Kinds and results -/

/-- What a kind tells, and the result that came with it.  A symbol can be the only unknown of the
    only equation. -/
structure Classifies (isOnly : String → Prop) (kind : Option SystemKind) (result : SolveResult) :
    Prop where
  polynomial : ∀ degree, kind = some (.polynomial degree) →
    (degree = 2 ∨ degree = 3) ∧ ∃ unknown, isOnly unknown
  general : ∀ unknown interval, kind = some (.general unknown interval) →
    result = .ok .needsApproximation ∧ isOnly unknown
  searched : result = .ok .needsApproximation →
    ∃ unknown interval, kind = some (.general unknown interval)

namespace Classifies

variable {isOnly isOnly' : String → Prop} {kind : Option SystemKind} {result : SolveResult}

theorem mono (h : Classifies isOnly kind result)
    (hle : ∀ unknown, isOnly unknown → isOnly' unknown) : Classifies isOnly' kind result where
  polynomial := fun degree hkind =>
    (h.polynomial degree hkind).imp_right fun hunknown => hunknown.imp hle
  general := fun unknown interval hkind =>
    (h.general unknown interval hkind).imp_right (hle unknown)
  searched := h.searched

/-- Without a kind, or with a linear system, no numeric search is asked for. -/
theorem of_linear (hkind : kind = none ∨ kind = some .linear)
    (hresult : result ≠ .ok .needsApproximation) : Classifies isOnly kind result := by
  rcases hkind with rfl | rfl
  · exact ⟨nofun, nofun, fun h => absurd h hresult⟩
  · exact ⟨nofun, nofun, fun h => absurd h hresult⟩

/-- The interval of a search is of no account. -/
theorem withInterval (interval : Interval Float) : Classifies isOnly kind result →
    Classifies isOnly (match kind with
      | some (.general unknown _) => some (.general unknown interval)
      | kind => kind) result := by
  intro h
  cases kind with
  | none => exact h
  | some kind =>
    cases kind with
    | linear => exact h
    | polynomial degree => exact h
    | general unknown before =>
      obtain ⟨hresult, honly⟩ := h.general unknown before rfl
      refine ⟨nofun, ?_, fun _ => ⟨unknown, interval, rfl⟩⟩
      rintro _ _ ⟨⟩
      exact ⟨hresult, honly⟩

end Classifies

namespace Attempt

variable {preferences : Preferences} {settings : SolverSettings} {definitions : Definitions}
  {attempt : Attempt Term}

/-- An attempt of the given kind has registered solutions, and asks for no numeric search. -/
structure Registers (kind : Option SystemKind) (found : Attempted Term) : Prop where
  kind_eq : found.attempt.kind = kind
  result_ne : found.result ≠ .ok .needsApproximation
  room : found.attempt.registry.HasReserve

theorem ensures_registerAll_registers (attempt : Attempt Term) (h : attempt.registry.HasReserve)
    (s : Settings) (type : SolutionType) (terms : List Term) :
    (attempt.registerAll preferences settings definitions s type terms).Ensures
      (Registers attempt.kind) := by
  unfold registerAll
  refine (SolutionRegistry.ensures_addTerms_hasReserve terms h).bind ?_
  rintro ⟨registry, refusal⟩ hroom
  apply CheckedBuild.ensures_pure
  cases refusal <;> exact ⟨rfl, nofun, hroom⟩

theorem ensures_solveRows_registers (h : attempt.registry.HasReserve) (rows : List (List Term)) :
    (attempt.solveRows preferences settings definitions rows).Ensures
      (Registers (some .linear)) := by
  unfold solveRows
  refine CheckedBuild.Ensures.bind (P := fun _ => True) (fun _ _ => trivial) fun answer _ => ?_
  cases answer with
  | undefined => exact CheckedBuild.ensures_pure ⟨rfl, nofun, h⟩
  | inconsistent => exact CheckedBuild.ensures_pure ⟨rfl, nofun, h⟩
  | unresolved => exact CheckedBuild.ensures_pure ⟨rfl, nofun, h⟩
  | unique values =>
    exact ensures_registerAll_registers
      { attempt with kind := some .linear, hasMore := false } h _ _ values
  | parametric values =>
    exact ensures_registerAll_registers
      { attempt with kind := some .linear, hasMore := true } h _ _ values

theorem ensures_registerRoots_registers (attempt : Attempt Term)
    (h : attempt.registry.HasReserve) (roots : PolynomialRoots) :
    (attempt.registerRoots preferences settings definitions roots).Ensures
      (Registers attempt.kind) := by
  unfold registerRoots
  refine (ensures_registerAll_registers attempt h _ _ roots.roots).bind fun found hfound => ?_
  split
  · exact CheckedBuild.ensures_pure hfound
  · apply CheckedBuild.ensures_build_bind
    rw [← hfound.kind_eq]
    exact ensures_registerAll_registers found.attempt hfound.room _ _ _

/-! ### Solving standard forms -/

theorem ensures_solveLinear_registers (h : attempt.registry.HasReserve)
    (hkind : attempt.kind = none) (forms : List Term) :
    (attempt.solveLinear preferences settings definitions forms).Ensures fun found =>
      Registers none found ∨ Registers (some .linear) found := by
  unfold solveLinear
  apply CheckedBuild.ensures_build_bind
  split
  case h_1 => exact CheckedBuild.ensures_pure (.inl ⟨hkind, nofun, h⟩)
  case h_2 rows _ => exact (ensures_solveRows_registers h rows).mono fun _ => .inr

theorem degree_of_closedRoots {s : Settings} {unknown : String} {form : Term} {degree : Nat}
    {roots : PolynomialRoots}
    (h : (closedRoots s unknown form).value = some (degree, roots)) : degree = 2 ∨ degree = 3 := by
  unfold closedRoots at h
  split at h
  · cases h
  · rw [Build.value_bind] at h
    split at h
    · cases h
      exact .inl rfl
    · cases h
      exact .inr rfl
    · cases h

theorem ensures_solvePolynomial_classifies (h : attempt.registry.HasReserve) (unknown : String)
    (form : Term) :
    (attempt.solvePolynomial preferences settings definitions unknown form).Ensures fun found =>
      Classifies (· = unknown) found.attempt.kind found.result ∧
        found.attempt.registry.HasReserve := by
  unfold solvePolynomial
  apply CheckedBuild.ensures_build_bind
  split
  case h_1 degree roots hroots =>
    refine (ensures_registerRoots_registers
      { attempt with kind := some (.polynomial degree) } h roots).mono ?_
    intro found hfound
    refine ⟨?_, hfound.room⟩
    rw [hfound.kind_eq]
    refine ⟨?_, nofun, fun hresult => absurd hresult hfound.result_ne⟩
    rintro _ ⟨⟩
    exact ⟨degree_of_closedRoots hroots, unknown, rfl⟩
  case h_2 =>
    refine CheckedBuild.ensures_pure ⟨⟨nofun, ?_, fun _ => ⟨_, _, rfl⟩⟩, h⟩
    rintro _ _ ⟨⟩
    exact ⟨rfl, rfl⟩

/-- Standard forms of an attempt without a kind are classified by how many they are, and how many
    unknowns there are. -/
theorem ensures_solveForms_classifies (h : attempt.registry.HasReserve)
    (hkind : attempt.kind = none) (forms : List Term) :
    (attempt.solveForms preferences settings definitions forms).Ensures fun found =>
      Classifies (fun unknown => attempt.unknowns.items = [unknown] ∧ ∃ form, forms = [form])
        found.attempt.kind found.result ∧ found.attempt.registry.HasReserve := by
  unfold solveForms
  refine (ensures_solveLinear_registers h hkind forms).bind fun linear hlinear => ?_
  split
  case h_1 unknown form _ hunknown =>
    refine (ensures_solvePolynomial_classifies (hlinear.elim Registers.room Registers.room)
      unknown form).mono fun found hfound => hfound.imp_left fun hclassifies => ?_
    refine hclassifies.mono ?_
    rintro _ rfl
    exact ⟨hunknown, form, rfl⟩
  case h_2 =>
    refine CheckedBuild.ensures_pure ⟨?_, hlinear.elim Registers.room Registers.room⟩
    exact .of_linear (hlinear.imp Registers.kind_eq Registers.kind_eq)
      (hlinear.elim Registers.result_ne Registers.result_ne)

/-! ### Reading the only equation -/

/-- Reading equations finds out no kind, and registers nothing. -/
theorem unsolved_readEquations {keepsDefined : Bool} {equations : List StoredEquation}
    {context context' : Context} {forms : Except SolverError (List Term)}
    (h : (initial preferences keepsDefined).readEquations preferences context equations =
      .ok ((attempt, forms), context')) :
    attempt.kind = none ∧ attempt.registry = {} := by
  refine of_readEquations (P := fun read => read.kind = none ∧ read.registry = {}) ?_ h ⟨rfl, rfl⟩
  intro definitions read left right hread
  obtain ⟨userVariables, hvalue⟩ :=
    value_readEquation_reduction preferences definitions read left right
  rw [hvalue]
  unfold addForm
  split <;> exact hread

/-- An equation is read into its standard form, whose symbols are the unknowns. -/
theorem of_readEquations_singleton {keepsDefined : Bool} {equation : StoredEquation}
    {context context' : Context} {form : Term}
    (h : (initial preferences keepsDefined).readEquations preferences context [equation] =
      .ok ((attempt, .ok [form]), context')) :
    ∃ left right, context.pool.get equation.left = .ok left ∧
      context.pool.get equation.right = .ok right ∧
      form = (standardForm ((initial preferences keepsDefined).reduction preferences .analysis)
        context.definedTerms left right).value ∧
      ∀ name, form.Mentions name ↔ name ∈ attempt.unknowns.items := by
  unfold readEquations at h
  obtain ⟨left, hleft, h⟩ := exists_of_bind_eq_ok h
  obtain ⟨right, hright, h⟩ := exists_of_bind_eq_ok h
  obtain ⟨userVariables, hvalue⟩ := value_readEquation_reduction preferences context.definedTerms
    (initial preferences keepsDefined) left right
  generalize hread : context.record (readEquation preferences context.definedTerms
    (initial preferences keepsDefined) left right) = read at h
  obtain ⟨⟨next, found⟩, context₁⟩ := read
  cases found with
  | error e => cases h
  | ok found =>
    cases h
    obtain ⟨rfl, unknowns, hcollect, rfl⟩ :=
      of_addForm_eq_ok (hvalue.symm.trans (congrArg Prod.fst hread))
    refine ⟨left, right, hleft, hright, rfl, fun name => ⟨(VariableSet.of_collect hcollect).2 name,
      fun hname => ?_⟩⟩
    have hcollected : name ∈ (VariableSet.collect (fun _ => true) {} _).1.items :=
      (congrArg (name ∈ VariableSet.items ·.1) hcollect).mpr hname
    exact (VariableSet.mem_of_collect _ hcollected).resolve_left List.not_mem_nil

end Attempt

/-! ### The only unknown of a store -/

/-- A store holds one equation, and a symbol is the only one of its standard form, in which
    defined symbols are kept or replaced. -/
def EquationStore.HasOnlyUnknown (preferences : Preferences) (keepsDefined : Bool)
    (store : EquationStore) (context : Context) (unknown : String) : Prop :=
  ∃ equation left right, store.equations = [equation] ∧
    context.pool.get equation.left = .ok left ∧ context.pool.get equation.right = .ok right ∧
    ∀ name, (standardForm ((Attempt.initial preferences keepsDefined).reduction preferences
      .analysis) context.definedTerms left right).value.Mentions name ↔ name = unknown

theorem SolutionRegistry.HasReserve.map {ν μ : Type} {registry : SolutionRegistry ν}
    (h : registry.HasReserve) (f : ν → μ) : (registry.map f).HasReserve :=
  (List.length_map _).trans_le h

/-- A pass classifies the equations of a store. -/
theorem ofStore_classifies {preferences : Preferences} {settings : SolverSettings}
    {keepsDefined : Bool} {store : EquationStore} {context context' : Context}
    {found : Attempted Handle}
    (h : Attempted.ofStore preferences settings keepsDefined store context =
      .ok (found, context')) :
    Classifies (fun unknown => found.attempt.unknowns.items = [unknown] ∧
        store.HasOnlyUnknown preferences keepsDefined context unknown)
      found.attempt.kind found.result ∧ found.attempt.registry.HasReserve := by
  unfold Attempted.ofStore at h
  obtain ⟨⟨⟨attempt, forms⟩, context₁⟩, hread, h⟩ := exists_of_bind_eq_ok h
  obtain ⟨hkind, hregistry⟩ := Attempt.unsolved_readEquations hread
  have hroom : attempt.registry.HasReserve := by
    rw [hregistry]
    exact Nat.zero_le _
  cases forms with
  | error e =>
    cases h
    exact ⟨.of_linear (.inl hkind) nofun, hroom.map _⟩
  | ok forms =>
    obtain ⟨⟨solved, context₂⟩, hsolved, h⟩ := exists_of_bind_eq_ok h
    cases h
    replace hsolved := (Context.of_recordChecked_eq_ok hsolved).1
    obtain ⟨hclassifies, hroom⟩ :=
      Attempt.ensures_solveForms_classifies hroom hkind forms solved hsolved
    refine ⟨hclassifies.mono ?_, hroom.map _⟩
    rintro unknown ⟨hunknown, form, rfl⟩
    have hsame := (Attempt.ensures_solveForms_sameReading attempt [form] solved hsolved).unknowns
    refine ⟨(congrArg VariableSet.items hsame).trans hunknown, ?_⟩
    obtain ⟨-, hlength, -⟩ := Attempt.readEquations_spec
      (Attempt.isReady_initial preferences keepsDefined) hread
    obtain ⟨equation, hequation⟩ := List.length_eq_one_iff.1 hlength.symm
    rw [hequation] at hread
    obtain ⟨left, right, hleft, hright, rfl, hmentions⟩ :=
      Attempt.of_readEquations_singleton hread
    refine ⟨equation, left, right, hequation, hleft, hright, fun name => ?_⟩
    rw [hmentions, hunknown, List.mem_singleton]

end EquationSolver
