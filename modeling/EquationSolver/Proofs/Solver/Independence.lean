import EquationSolver.Proofs.Pool.Independence
import EquationSolver.Proofs.Solver.Definitions

/-!
# What an exact solve depends on

An exact solve of the same equations comes to the same, whatever else its pool holds and whatever
symbols are defined that the equations do not lead to, the parameters' names among them: the first
pass looks up only names that can be reached from the equations, and where parameters are pinned
symbols are kept.
-/

namespace EquationSolver

open Reduction (AgreeOn)

/-- The names in the sides of the equations, in their definitions, in the definitions of the names
    in those, and so on. -/
inductive Context.Reaches (context : Context) (sides : List (Term × Term)) : String → Prop
  | left {p : Term × Term} {name : String} (hp : p ∈ sides) (hname : p.1.Mentions name) :
      Reaches context sides name
  | right {p : Term × Term} {name : String} (hp : p ∈ sides) (hname : p.2.Mentions name) :
      Reaches context sides name
  | definition {name other : String} {t : Term} (hname : Reaches context sides name)
      (ht : context.definition? name = some t) (hother : t.Mentions other) :
      Reaches context sides other

/-- An attempt without the terms that its solutions refer to: the kind of the system, the unknowns
    and the defined symbols, whether these were unknowns, whether there are more solutions, and of
    each solution the texts, the value, the type and whether its forms agree. -/
def Attempt.shown {ν : Type} (attempt : Attempt ν) : Attempt Unit :=
  attempt.map fun _ => ()

@[simp] theorem Attempt.shown_map {ν μ : Type} (f : ν → μ) (attempt : Attempt ν) :
    (attempt.map f).shown = attempt.shown := by
  have hlayout (layout : Layout ν) : (layout.map f).map (fun _ => ()) = layout.map fun _ => () := rfl
  simp [shown, Attempt.map, SolutionRegistry.map, Solution.map, Option.map_map, Function.comp_def,
    hlayout]

variable {context context' : Context} {sides : List (Term × Term)} {store store' : EquationStore}

/-- Definitions that are the same terms for the names that the sides lead to. -/
theorem Context.agreeOn_reaches (h : context.pool.IsWellFormed) (h' : context'.pool.IsWellFormed)
    (hdefines : context.DefinesTerms) (hdefines' : context'.DefinesTerms)
    (hagree : ∀ name, context.Reaches sides name →
      context.definition? name = context'.definition? name) :
    AgreeOn (context.Reaches sides) context.definedTerms context'.definedTerms where
  lookup_eq name hname := by
    rw [lookup_definedTerms h hdefines, lookup_definedTerms h' hdefines', hagree name hname]
  closed name t hname ht other hother := by
    rw [lookup_definedTerms h hdefines] at ht
    exact .definition hname ht hother

/-- The pool of the context holds the sides of the equations and the terms of the definitions. -/
structure Context.Holds (context : Context) (store : EquationStore) (sides : List (Term × Term)) :
    Prop where
  hasSides : store.HasSides context.pool sides
  definesTerms : context.DefinesTerms

namespace EquationSystem

variable {preferences : Preferences} {settings : SolverSettings}

/-- A pass comes to the same in two contexts where it comes to the same over the sides. -/
theorem exists_ofStore_shown {keepsDefined : Bool} {found : Attempted Handle} {left : Context}
    (hcontext : context.Holds store sides) (hcontext' : context'.Holds store' sides)
    (hsides : Attempted.ofSides preferences settings keepsDefined context.definedTerms sides =
      Attempted.ofSides preferences settings keepsDefined context'.definedTerms sides)
    (h : Attempted.ofStore preferences settings keepsDefined store context = .ok (found, left)) :
    ∃ found' left', Attempted.ofStore preferences settings keepsDefined store' context' =
        .ok (found', left') ∧
      found'.result = found.result ∧ found'.attempt.shown = found.attempt.shown ∧
      (left.Holds store sides ∧ left.definedTerms = context.definedTerms) ∧
      left'.Holds store' sides ∧ left'.definedTerms = context'.definedTerms := by
  obtain ⟨solved, hsolved, rfl, hleft, hterms, hextends⟩ :=
    exists_ofSides hcontext.hasSides hcontext.definesTerms h
  obtain ⟨left', hfound', hleft', hterms', hextends'⟩ :=
    ofStore_eq hcontext'.hasSides hcontext'.definesTerms (hsides ▸ hsolved)
  exact ⟨_, left', hfound', rfl, by simp,
    ⟨⟨hcontext.hasSides.extends hextends, hleft⟩, hterms⟩,
    ⟨hcontext'.hasSides.extends hextends', hleft'⟩, hterms'⟩

/-- Whether there are solutions shows without the terms that they refer to. -/
theorem solutions_eq_nil_iff_of_shown {attempt attempt' : Attempt Handle}
    (h : attempt'.shown = attempt.shown) :
    attempt'.registry.solutions = [] ↔ attempt.registry.solutions = [] := by
  have hlength := congrArg (fun shown => shown.registry.solutions.length) h
  simp only [Attempt.shown, Attempt.map, SolutionRegistry.map, List.length_map] at hlength
  rw [← List.length_eq_zero_iff, ← List.length_eq_zero_iff, hlength]

/-- Whatever else two pools hold and whatever else is defined, an exact solve of equations with the
    same sides comes to the same in both contexts, if the definitions are the same trees for all
    names that the sides lead to: the result, the kind and the degree, the unknowns and the
    defined symbols, the flags, and the texts, types and flags of the solutions. -/
theorem exactSolve_depends_on_reached (h : context.pool.Reachable) (h' : context'.pool.Reachable)
    (hcontext : context.Holds store sides) (hcontext' : context'.Holds store' sides)
    (hagree : ∀ name, context.Reaches sides name →
      context.definition? name = context'.definition? name)
    (preferences : Preferences) {system system' : EquationSystem}
    (hsettings : system.settings = system'.settings) :
    ∃ solved left solved' left',
      system.exactSolve preferences store context = .ok (solved, left) ∧
      system'.exactSolve preferences store' context' = .ok (solved', left') ∧
      solved'.lastResult = solved.lastResult ∧ solved'.attempt.shown = solved.attempt.shown := by
  have hreached := Context.agreeOn_reaches h.isWellFormed h'.isWellFormed hcontext.definesTerms
    hcontext'.definesTerms hagree
  have hsides : ∀ keepsDefined,
      Attempted.ofSides preferences system.settings keepsDefined context.definedTerms sides =
        Attempted.ofSides preferences system.settings keepsDefined context'.definedTerms sides :=
    Attempted.ofSides_eq hreached fun p hp =>
      ⟨fun name hname => .left hp hname, fun name hname => .right hp hname⟩
  obtain ⟨first, second, context₁, context₂, hpasses⟩ :=
    exists_runsPasses preferences system.settings hcontext.hasSides.isLive
  obtain ⟨first', context₁', hfirst', hresult₁, hshown₁, ⟨hkept, hterms⟩, hkept', hterms'⟩ :=
    exists_ofStore_shown hcontext hcontext' (hsides false) hpasses.first_eq
  obtain ⟨second', context₂', hsecond', hresult₂, hshown₂, -⟩ :=
    exists_ofStore_shown hkept hkept' (hterms.symm ▸ hterms'.symm ▸ hsides true) hpasses.second_eq
  have hpasses' : RunsPasses preferences system'.settings store' context' first' second' context₁'
      context₂' := hsettings ▸ ⟨hfirst', hsecond'⟩
  have hstands : FirstStands first' second' ↔ FirstStands first second := by
    unfold FirstStands
    rw [hresult₁, hresult₂, ne_eq, ne_eq, solutions_eq_nil_iff_of_shown hshown₁]
  obtain ⟨solved, left, hsolve, hadopts, hretries⟩ := exactSolve_of_runsPasses system hpasses
  obtain ⟨solved', left', hsolve', hadopts', hretries'⟩ := exactSolve_of_runsPasses system' hpasses'
  refine ⟨solved, left, solved', left', hsolve, hsolve', ?_⟩
  by_cases hfirst : FirstStands first second
  · rw [hadopts hfirst, hadopts' (hstands.2 hfirst)]
    exact ⟨congrArg some hresult₁, hshown₁⟩
  · rw [(hretries hfirst).1, (hretries' (mt hstands.1 hfirst)).1]
    exact ⟨congrArg some hresult₂, hshown₂⟩

/-! ### Contexts of given terms -/

/-- A context of terms that come after their parts, with names defined as some of them. -/
theorem holds_ofTerms {ts : List Term} {definitions : Definitions}
    (hmakes : ∀ t ∈ ts, Construction.Makes t = true)
    (hparts : ∀ (i : Nat) (hi : i < ts.length), ∀ u ∈ ts[i].children, u ∈ ts.take i)
    (hdefinitions : ∀ d ∈ definitions, d.2 ∈ ts) (hsides : ∀ p ∈ sides, p.1 ∈ ts ∧ p.2 ∈ ts) :
    let context := Context.ofTerms ts definitions
    context.pool.Reachable ∧ context.Holds (EquationStore.ofSides context.pool sides) sides ∧
      ∀ name, context.definition? name = definitions.lookup name := by
  intro context
  have hreachable : context.pool.Reachable := Pool.reachable_internAll hmakes hparts
  obtain ⟨hdefines, hterms⟩ := Context.definesTerms_ofTerms ts hparts hdefinitions
  refine ⟨hreachable, ⟨EquationStore.hasSides_ofSides ts hparts hsides, hdefines⟩, fun name => ?_⟩
  rw [← Context.lookup_definedTerms hreachable.isWellFormed hdefines, hterms]

/-- The equation `x = a` where only `a` is defined, and where the name of the parameter is, too. -/
theorem exactSolve_depends_on_reached_parameter :
    let sides : List (Term × Term) := [(.symbol "x", .symbol "a")]
    let context := Context.ofTerms [.symbol "x", .symbol "a", .number 2] [("a", .number 2)]
    let context' := Context.ofTerms [.number 5, .symbol "t", .number 2, .symbol "a", .symbol "x"]
      [("t", .number 5), ("a", .number 2)]
    ∃ solved left solved' left',
      (unsolved {} {}).exactSolve {} (EquationStore.ofSides context.pool sides) context =
        .ok (solved, left) ∧
      (unsolved {} {}).exactSolve {} (EquationStore.ofSides context'.pool sides) context' =
        .ok (solved', left') ∧
      solved'.lastResult = solved.lastResult ∧ solved'.attempt.shown = solved.attempt.shown := by
  intro sides context context'
  obtain ⟨hreachable, hcontext, hdefinition⟩ : context.pool.Reachable ∧
      context.Holds (EquationStore.ofSides context.pool sides) sides ∧
      ∀ name, context.definition? name = List.lookup name [("a", .number 2)] :=
    holds_ofTerms (by decide) (by decide) (by simp) (by simp [sides])
  obtain ⟨hreachable', hcontext', hdefinition'⟩ : context'.pool.Reachable ∧
      context'.Holds (EquationStore.ofSides context'.pool sides) sides ∧
      ∀ name, context'.definition? name = List.lookup name [("t", .number 5), ("a", .number 2)] :=
    holds_ofTerms (by decide) (by decide) (by simp) (by simp [sides])
  have hreaches : ∀ name, context.Reaches sides name → name = "x" ∨ name = "a" := by
    intro name hname
    induction hname with
    | left hp hname =>
      obtain rfl := List.mem_singleton.1 hp
      exact .inl (Term.mentions_symbol.1 hname).symm
    | right hp hname =>
      obtain rfl := List.mem_singleton.1 hp
      exact .inr (Term.mentions_symbol.1 hname).symm
    | definition _ ht hother ih =>
      rw [hdefinition] at ht
      rcases ih with rfl | rfl <;> cases ht
      simp [Term.Mentions, Term.dependsOn, Term.contains] at hother
  refine exactSolve_depends_on_reached hreachable hreachable' hcontext hcontext' ?_ {} rfl
  intro name hname
  rw [hdefinition, hdefinition']
  rcases hreaches name hname with rfl | rfl <;> rfl

end EquationSystem

end EquationSolver
