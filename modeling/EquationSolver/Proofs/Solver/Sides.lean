import EquationSolver.Proofs.Pool.Reduction
import EquationSolver.Proofs.Solver.ExactSolve
import EquationSolver.Term.Printer

/-!
# Attempts at sides

The pool has no influence on what an attempt finds out: it depends on the terms that the sides
of the equations and the definitions are, and on nothing else that the pool holds.
-/

namespace EquationSolver

/-! ### Terms of a pool -/

/-- Every definition is a term of the pool. -/
def Context.DefinesTerms (context : Context) : Prop :=
  ∀ definition ∈ context.definitions, ∃ t, context.pool.get? definition.2 = some t

/-- The definitions stay the same terms while the pool grows. -/
theorem Context.DefinesTerms.of_extends {context context' : Context} (h : context.DefinesTerms)
    (hpool : context.pool.Extends context'.pool)
    (hdefinitions : context'.definitions = context.definitions) :
    context'.DefinesTerms ∧ context'.definedTerms = context.definedTerms := by
  have hget : ∀ definition ∈ context.definitions,
      context'.pool.get? definition.2 = context.pool.get? definition.2 := by
    intro definition hdefinition
    obtain ⟨t, ht⟩ := h definition hdefinition
    rw [ht, hpool _ _ ht]
  unfold DefinesTerms definedTerms
  rw [hdefinitions]
  constructor
  · intro definition hdefinition
    rw [hget definition hdefinition]
    exact h definition hdefinition
  · refine List.filterMap_congr fun definition hdefinition => ?_
    rw [hget definition hdefinition]

theorem Context.DefinesTerms.record {α : Type} {context : Context} (h : context.DefinesTerms)
    (b : Build α) : (context.record b).2.DefinesTerms ∧
      (context.record b).2.definedTerms = context.definedTerms :=
  h.of_extends (context.extends_record b) rfl

namespace EquationStore

/-- The equations of a store have these sides. -/
def HasSides (pool : Pool) (store : EquationStore) (sides : List (Term × Term)) : Prop :=
  List.Forall₂ (fun equation sides => pool.get equation.left = .ok sides.1 ∧
    pool.get equation.right = .ok sides.2) store.equations sides

theorem HasSides.extends {pool pool' : Pool} {store : EquationStore}
    {sides : List (Term × Term)} (h : store.HasSides pool sides) (hextends : pool.Extends pool') :
    store.HasSides pool' sides :=
  List.Forall₂.imp (fun _ _ hsides => ⟨hextends.get hsides.1, hextends.get hsides.2⟩) h

theorem HasSides.isLive {pool : Pool} {store : EquationStore} {sides : List (Term × Term)}
    (h : store.HasSides pool sides) : store.IsLive pool := by
  intro equation hequation
  obtain ⟨i, hi, rfl⟩ := List.getElem_of_mem hequation
  obtain ⟨hlength, hget⟩ := List.forall₂_iff_get.1 h
  obtain ⟨hleft, hright⟩ := hget i hi (hlength ▸ hi)
  exact ⟨⟨_, hleft⟩, ⟨_, hright⟩⟩

end EquationStore

/-! ### Sides among given terms -/

/-- A context that holds the given terms and defines names by some of them. -/
def Context.ofTerms (ts : List Term) (definitions : Definitions) : Context :=
  let pool := ({} : Pool).internAll ts
  { pool, definitions := definitions.map fun definition =>
      (definition.1, pool.handleOf definition.2) }

/-- A store of equations, each with the text that its sides are written as. -/
def EquationStore.ofSides (pool : Pool) (sides : List (Term × Term)) : EquationStore :=
  ⟨sides.map fun (left, right) =>
    ⟨left.text defaultSignificantDigits ++ "=" ++ right.text defaultSignificantDigits,
      pool.handleOf left, pool.handleOf right⟩⟩

section GivenTerms

variable (ts : List Term) {definitions : Definitions}

theorem Context.definesTerms_ofTerms (h : ∀ (i : Nat) (hi : i < ts.length),
    ∀ u ∈ ts[i].children, u ∈ ts.take i) (hdefinitions : ∀ d ∈ definitions, d.2 ∈ ts) :
    (Context.ofTerms ts definitions).DefinesTerms ∧
      (Context.ofTerms ts definitions).definedTerms = definitions := by
  constructor
  · intro definition hdefinition
    obtain ⟨d, hd, rfl⟩ := List.mem_map.1 hdefinition
    exact ⟨d.2, Pool.get?_handleOf_internAll h (hdefinitions d hd)⟩
  · unfold Context.definedTerms Context.ofTerms
    rw [List.filterMap_map]
    refine (List.filterMap_congr fun d hd => ?_).trans List.filterMap_some
    simp only [Function.comp_apply, Pool.get?_handleOf_internAll h (hdefinitions d hd),
      Option.map_some]

theorem EquationStore.hasSides_ofSides (h : ∀ (i : Nat) (hi : i < ts.length),
    ∀ u ∈ ts[i].children, u ∈ ts.take i) {sides : List (Term × Term)}
    (hsides : ∀ p ∈ sides, p.1 ∈ ts ∧ p.2 ∈ ts) :
    let pool := (Context.ofTerms ts definitions).pool
    (EquationStore.ofSides pool sides).HasSides pool sides := by
  have hget {t : Term} (ht : t ∈ ts) : (({} : Pool).internAll ts).get
      ((({} : Pool).internAll ts).handleOf t) = .ok t := by
    rw [Pool.get, Pool.get?_handleOf_internAll h ht]
  refine List.forall₂_map_left_iff.2 (List.forall₂_same.2 ?_)
  intro p hp
  exact ⟨hget (hsides p hp).1, hget (hsides p hp).2⟩

end GivenTerms

/-! ### Reading and solving -/

namespace Attempt

variable (preferences : Preferences) (settings : SolverSettings) (definitions : Definitions)

/-- Read equations, given by their sides, up to the first that cannot be solved. -/
def readSides (attempt : Attempt Term) :
    List (Term × Term) → Attempt Term × Except SolverError (List Term)
  | [] => (attempt, .ok [])
  | (left, right) :: rest =>
    match (readEquation preferences definitions attempt left right).value with
    | (attempt, .error e) => (attempt, .error e)
    | (attempt, .ok form) =>
      let (attempt, forms) := readSides attempt rest
      (attempt, forms.map (form :: ·))

section Cases

variable {preferences definitions} {attempt next last : Attempt Term} {p p' : Term × Term}
  {form form' : Term} {rest : List (Term × Term)}

/-- An equation that is read is followed by the others. -/
theorem readSides_cons_of_ok
    (h : (readEquation preferences definitions attempt p.1 p.2).value = (next, .ok form)) :
    attempt.readSides preferences definitions (p :: rest) =
      ((next.readSides preferences definitions rest).1,
        (next.readSides preferences definitions rest).2.map (form :: ·)) := by
  rw [readSides, h]

theorem readSides_cons_of_error {e : SolverError}
    (h : (readEquation preferences definitions attempt p.1 p.2).value = (next, .error e)) :
    attempt.readSides preferences definitions (p :: rest) = (next, .error e) := by
  rw [readSides, h]

theorem readSides_singleton
    (h : (readEquation preferences definitions attempt p.1 p.2).value = (next, .ok form)) :
    attempt.readSides preferences definitions [p] = (next, .ok [form]) :=
  readSides_cons_of_ok h

theorem readSides_pair
    (h : (readEquation preferences definitions attempt p.1 p.2).value = (next, .ok form))
    (h' : (readEquation preferences definitions next p'.1 p'.2).value = (last, .ok form')) :
    attempt.readSides preferences definitions [p, p'] = (last, .ok [form, form']) := by
  rw [readSides_cons_of_ok h, readSides_singleton h']
  rfl

end Cases

variable {definitions}

/-- Reading the equations of a store is reading their sides. -/
theorem readEquations_eq (attempt : Attempt Term) {equations : List StoredEquation}
    {sides : List (Term × Term)} {context : Context}
    (h : EquationStore.HasSides context.pool ⟨equations⟩ sides) (hdefines : context.DefinesTerms)
    (hterms : context.definedTerms = definitions) :
    ∃ context', attempt.readEquations preferences context equations =
        .ok (attempt.readSides preferences definitions sides, context') ∧
      context'.DefinesTerms ∧ context'.definedTerms = definitions ∧
      context.pool.Extends context'.pool := by
  induction equations generalizing sides attempt context with
  | nil =>
    cases h
    exact ⟨context, rfl, hdefines, hterms, .refl _⟩
  | cons equation rest ih =>
    obtain ⟨⟨left, right⟩, others, ⟨hleft, hright⟩, hrest, rfl⟩ := List.forall₂_cons_left_iff.1 h
    unfold readEquations readSides
    rw [hleft, hright, hterms]
    have hextends := context.extends_record
      (readEquation preferences definitions attempt left right)
    obtain ⟨hdefines', hterms'⟩ := hdefines.record
      (readEquation preferences definitions attempt left right)
    generalize hread : (readEquation preferences definitions attempt left right).value = read
    obtain ⟨next, form⟩ := read
    have hrecord : context.record (readEquation preferences definitions attempt left right) =
        ((next, form), (context.record
          (readEquation preferences definitions attempt left right)).2) :=
      Prod.ext hread rfl
    simp only [bind, Except.bind]
    rw [hrecord]
    cases form with
    | error e => exact ⟨_, rfl, hdefines', hterms'.trans hterms, hextends⟩
    | ok form =>
      have hothers : EquationStore.HasSides context.pool ⟨rest⟩ others := hrest
      obtain ⟨context', hall, hdefines'', hterms'', hextends'⟩ :=
        ih next (hothers.extends hextends) hdefines' (hterms'.trans hterms)
      refine ⟨context', ?_, hdefines'', hterms'', hextends.trans hextends'⟩
      dsimp only
      rw [hall]

/-- Sides that can be read are those of a store that is read. -/
theorem hasRead_ofSides {keepsDefined : Bool} (ts : List Term) (h : ∀ (i : Nat) (hi : i < ts.length),
    ∀ u ∈ ts[i].children, u ∈ ts.take i) (hdefinitions : ∀ d ∈ definitions, d.2 ∈ ts)
    {sides : List (Term × Term)} (hsides : ∀ p ∈ sides, p.1 ∈ ts ∧ p.2 ∈ ts)
    {attempt : Attempt Term} {forms : List Term}
    (hread : (initial preferences keepsDefined).readSides preferences definitions sides =
      (attempt, .ok forms)) :
    HasRead preferences (EquationStore.ofSides (Context.ofTerms ts definitions).pool sides) attempt
      forms := by
  obtain ⟨hdefines, hterms⟩ := Context.definesTerms_ofTerms ts h hdefinitions
  obtain ⟨context, hall, -⟩ := readEquations_eq preferences (initial preferences keepsDefined)
    (EquationStore.hasSides_ofSides ts h hsides) hdefines hterms
  exact ⟨keepsDefined, _, context, hread ▸ hall⟩

end Attempt

/-- Solve equations that are given by their sides. -/
def Attempted.ofSides (preferences : Preferences) (settings : SolverSettings)
    (keepsDefined : Bool) (definitions : Definitions) (sides : List (Term × Term)) :
    Except Fault (Attempted Term) :=
  match (Attempt.initial preferences keepsDefined).readSides preferences definitions sides with
  | (attempt, .error e) => .ok ⟨attempt, .error e⟩
  | (attempt, .ok forms) =>
    (attempt.solveForms preferences settings definitions forms).run.value

/-- Equations that are read are solved by their standard forms. -/
theorem Attempted.ofSides_of_ok {preferences : Preferences} {settings : SolverSettings}
    {keepsDefined : Bool} {definitions : Definitions} {sides : List (Term × Term)}
    {attempt : Attempt Term} {forms : List Term}
    (h : (Attempt.initial preferences keepsDefined).readSides preferences definitions sides =
      (attempt, .ok forms)) :
    Attempted.ofSides preferences settings keepsDefined definitions sides =
      (attempt.solveForms preferences settings definitions forms).run.value := by
  rw [Attempted.ofSides, h]

/-- Solving the equations of a store is solving their sides; what is found refers to the pool
    by handles. -/
theorem ofStore_eq {preferences : Preferences} {settings : SolverSettings} {keepsDefined : Bool}
    {store : EquationStore} {sides : List (Term × Term)} {context : Context}
    {found : Attempted Term} (h : store.HasSides context.pool sides)
    (hdefines : context.DefinesTerms)
    (hfound : Attempted.ofSides preferences settings keepsDefined context.definedTerms sides =
      .ok found) :
    ∃ context', Attempted.ofStore preferences settings keepsDefined store context =
        .ok (⟨found.attempt.map context'.pool.handleOf, found.result⟩, context') ∧
      context'.DefinesTerms ∧ context'.definedTerms = context.definedTerms ∧
      context.pool.Extends context'.pool := by
  obtain ⟨context₁, hread, hdefines₁, hterms₁, hextends₁⟩ :=
    Attempt.readEquations_eq preferences (Attempt.initial preferences keepsDefined) h hdefines rfl
  unfold Attempted.ofSides at hfound
  unfold Attempted.ofStore
  change (Attempt.initial preferences keepsDefined).readEquations preferences context
    store.equations = _ at hread
  simp only [bind, Except.bind]
  unfold Attempt.initial at hread hfound
  rw [hread]
  split at hfound
  case h_1 attempt e hsides =>
    cases hfound
    rw [hsides]
    exact ⟨context₁, rfl, hdefines₁, hterms₁, hextends₁⟩
  case h_2 attempt forms hsides =>
    rw [hsides]
    dsimp only
    obtain ⟨hdefines₂, hterms₂⟩ := hdefines₁.record
      (attempt.solveForms preferences settings context.definedTerms forms).run
    have hchecked : context₁.recordChecked
        (attempt.solveForms preferences settings context₁.definedTerms forms) =
          .ok (found, (context₁.record
            (attempt.solveForms preferences settings context.definedTerms forms).run).2) := by
      rw [hterms₁]
      change Except.map _ (attempt.solveForms preferences settings context.definedTerms
        forms).run.value = _
      rw [hfound]
      rfl
    rw [hchecked]
    exact ⟨_, rfl, hdefines₂, hterms₂.trans hterms₁,
      hextends₁.trans (context₁.extends_record _)⟩

/-- A pass over the equations of a store is one over their sides. -/
theorem exists_ofSides {preferences : Preferences} {settings : SolverSettings}
    {keepsDefined : Bool} {store : EquationStore} {sides : List (Term × Term)}
    {context context' : Context} {found : Attempted Handle} (h : store.HasSides context.pool sides)
    (hdefines : context.DefinesTerms)
    (hfound : Attempted.ofStore preferences settings keepsDefined store context =
      .ok (found, context')) :
    ∃ solved, Attempted.ofSides preferences settings keepsDefined context.definedTerms sides =
        .ok solved ∧
      found = ⟨solved.attempt.map context'.pool.handleOf, solved.result⟩ ∧
      context'.DefinesTerms ∧ context'.definedTerms = context.definedTerms ∧
      context.pool.Extends context'.pool := by
  suffices hsolved : ∃ solved, Attempted.ofSides preferences settings keepsDefined
      context.definedTerms sides = .ok solved by
    obtain ⟨solved, hsolved⟩ := hsolved
    obtain ⟨context₁, hstore, hkept⟩ := ofStore_eq h hdefines hsolved
    cases hfound.symm.trans hstore
    exact ⟨solved, hsolved, rfl, hkept⟩
  obtain ⟨context₁, hread, hdefines₁, hterms₁, -⟩ :=
    Attempt.readEquations_eq preferences (Attempt.initial preferences keepsDefined) h hdefines rfl
  unfold Attempted.ofStore at hfound
  obtain ⟨⟨⟨attempt, forms⟩, context₂⟩, hread', hfound⟩ := exists_of_bind_eq_ok hfound
  obtain ⟨hsides, rfl⟩ := Prod.ext_iff.1 (Except.ok.inj (hread.symm.trans hread'))
  dsimp only at hsides
  unfold Attempted.ofSides
  rw [hsides]
  cases forms with
  | error e => exact ⟨_, rfl⟩
  | ok forms =>
    obtain ⟨⟨solved, context₂⟩, hsolved, -⟩ := exists_of_bind_eq_ok hfound
    dsimp only at hsolved
    rw [hterms₁] at hsolved
    exact ⟨solved, (Context.of_recordChecked_eq_ok hsolved).1⟩

end EquationSolver
