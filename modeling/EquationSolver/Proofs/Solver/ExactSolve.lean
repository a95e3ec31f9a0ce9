import EquationSolver.Proofs.Pool.Parsing
import EquationSolver.Proofs.Solver.Attempt
import EquationSolver.Solver.EquationSystem
import EquationSolver.Solver.Equations

/-!
# Exact solving without faults

An equation is stored by the handles of its sides, which denote them as long as the pool is not cut
back.  An exact solve of equations whose sides are in the pool comes to its end, since reading them
only adds to the pool.  The equations and unknowns that it asks for on the way are there, and
elimination stays within the matrix.
-/

namespace EquationSolver

/-! ### Equations in the pool -/

/-- The sides of an equation are in a pool. -/
structure StoredEquation.IsLive (pool : Pool) (equation : StoredEquation) : Prop where
  exists_left : ∃ t, pool.get equation.left = .ok t
  exists_right : ∃ t, pool.get equation.right = .ok t

theorem StoredEquation.IsLive.mono {pool pool' : Pool} {equation : StoredEquation}
    (h : equation.IsLive pool) (hextends : pool.Extends pool') : equation.IsLive pool' where
  exists_left := h.exists_left.imp fun _ ht => hextends.get ht
  exists_right := h.exists_right.imp fun _ ht => hextends.get ht

namespace EquationStore

/-- The sides of all equations of a store are in a pool. -/
def IsLive (pool : Pool) (store : EquationStore) : Prop :=
  ∀ equation ∈ store.equations, equation.IsLive pool

variable {store : EquationStore} {context : Context}

theorem isLive_empty (pool : Pool) : ({} : EquationStore).IsLive pool :=
  fun _ h => absurd h List.not_mem_nil

theorem IsLive.mono {pool pool' : Pool} (h : store.IsLive pool) (hextends : pool.Extends pool') :
    store.IsLive pool' :=
  fun equation hequation => (h equation hequation).mono hextends

/-- A text that is no equation adds to the pool at most. -/
theorem IsLive.add_context (h : store.IsLive context.pool) (text : String) :
    store.IsLive (store.add context text).2.pool := by
  unfold EquationStore.add
  split
  · have hextends := context.extends_record (parseEquation text)
    split
    case h_1 e parsed hparse =>
      have hcontext : (context.parseSides text).2 = parsed := congrArg Prod.snd hparse
      exact h.mono (hcontext ▸ hextends)
    case h_2 left right parsed hparse =>
      have hcontext : (context.parseSides text).2 = parsed := congrArg Prod.snd hparse
      exact h.mono (hcontext ▸ hextends)
  · exact h

/-- Adding a text keeps a sound pool sound. -/
theorem isSound_add (hsound : context.pool.IsSound) (store : EquationStore) (text : String) :
    (store.add context text).2.pool.IsSound := by
  have hparsed := (Context.isSound_parseSides hsound text).1
  unfold EquationStore.add
  split
  · split
    case h_1 e parsed hparse =>
      have hcontext : (context.parseSides text).2 = parsed := congrArg Prod.snd hparse
      exact hcontext ▸ hparsed
    case h_2 left right parsed hparse =>
      have hcontext : (context.parseSides text).2 = parsed := congrArg Prod.snd hparse
      exact hcontext ▸ hparsed
  · exact hsound

/-- An equation that is added is there with its sides. -/
theorem IsLive.add (h : store.IsLive context.pool) (hsound : context.pool.IsSound)
    {text : String} {place : Nat} {store' : EquationStore} {context' : Context}
    (hadd : store.add context text = (.ok (place, store'), context')) :
    store'.IsLive context'.pool := by
  have hold := h.add_context text
  rw [hadd] at hold
  obtain ⟨hparsed, hsides⟩ := Context.isSound_parseSides hsound text
  unfold EquationStore.add at hadd
  split at hadd
  · split at hadd
    · cases hadd
    case h_2 left right parsed hparse =>
      rw [hparse] at hparsed hsides
      obtain ⟨hleft, hright⟩ := hsides (left, right) rfl
      have hget {t : Term} (ht : t ∈ parsed.pool.terms) :
          parsed.pool.get (parsed.pool.handleOf t) = .ok t := by
        rw [Pool.get, hparsed.get?_handleOf ht]
      cases hadd
      intro equation hequation
      rcases List.mem_append.1 hequation with hequation | hequation
      · exact hold equation hequation
      · rw [List.mem_singleton.1 hequation]
        exact ⟨⟨left, hget hleft⟩, ⟨right, hget hright⟩⟩
  · cases hadd

end EquationStore

open Reduction (Settings)

namespace Attempt

variable {preferences : Preferences} {definitions : Definitions} {attempt attempt' : Attempt Term}

/-! ### Reading equations -/

theorem IsReady.addForm (h : attempt.IsReady) (form : Term) : (attempt.addForm form).1.IsReady := by
  unfold Attempt.addForm
  split
  · exact h
  · exact ⟨h.registry, h.room.collect form⟩

theorem IsReady.readEquation (h : attempt.IsReady) (left right : Term) :
    (readEquation preferences definitions attempt left right).value.1.IsReady := by
  have hnoted (userVariables : VariableSet String) :
      IsReady { attempt with userVariables } := ⟨h.registry, h.room⟩
  unfold Attempt.readEquation
  simp only [Build.value_bind]
  split
  · exact (hnoted _).addForm _
  · exact (hnoted _).addForm _

/-- When all equations can be read, there is a standard form for each. -/
theorem readEquations_spec : ∀ {equations : List StoredEquation} {attempt : Attempt Term}
    {context context' : Context} {forms : List Term}, attempt.IsReady →
      attempt.readEquations preferences context equations = .ok ((attempt', .ok forms), context') →
        attempt'.IsReady ∧ forms.length = equations.length ∧ (forms = [] → attempt' = attempt)
  | [], attempt, context, context', forms, hready, h => by
    cases h
    exact ⟨hready, rfl, fun _ => rfl⟩
  | equation :: rest, attempt, context, context', forms, hready, h => by
    unfold readEquations at h
    obtain ⟨left, -, h⟩ := exists_of_bind_eq_ok h
    obtain ⟨right, -, h⟩ := exists_of_bind_eq_ok h
    have hnext : (readEquation preferences context.definedTerms attempt left
        right).value.1.IsReady := hready.readEquation left right
    generalize hread : context.record
      (readEquation preferences context.definedTerms attempt left right) = read at h
    obtain ⟨⟨next, form⟩, context₁⟩ := read
    have hnextEq : (readEquation preferences context.definedTerms attempt left right).value =
        (next, form) := congrArg Prod.fst hread
    rw [hnextEq] at hnext
    dsimp only at h hnext
    cases form with
    | error e => cases h
    | ok form =>
      obtain ⟨⟨⟨last, found⟩, context₂⟩, hrest, h⟩ := exists_of_bind_eq_ok h
      dsimp only at h
      cases found with
      | error e => cases h
      | ok found =>
        cases h
        obtain ⟨hlast, hlength, -⟩ := readEquations_spec hnext hrest
        exact ⟨hlast, by rw [List.length_cons, List.length_cons, hlength],
          fun hnil => nomatch hnil⟩

/-- Sides in the pool are found there when their turn comes. -/
theorem exists_readEquations : ∀ {equations : List StoredEquation} (attempt : Attempt Term)
    {context : Context}, (∀ equation ∈ equations, equation.IsLive context.pool) →
      ∃ read, attempt.readEquations preferences context equations = .ok read ∧
        context.pool.Extends read.2.pool
  | [], attempt, context, _ => ⟨((attempt, .ok []), context), rfl, .refl context.pool⟩
  | equation :: rest, attempt, context, h => by
    obtain ⟨hequation, hrest⟩ := List.forall_mem_cons.1 h
    obtain ⟨left, hleft⟩ := hequation.exists_left
    obtain ⟨right, hright⟩ := hequation.exists_right
    unfold readEquations
    refine exists_bind (P := fun t => left = t) ⟨left, hleft, rfl⟩ ?_
    rintro _ rfl
    refine exists_bind (P := fun t => right = t) ⟨right, hright, rfl⟩ ?_
    rintro _ rfl
    have hextends := context.extends_record
      (readEquation preferences context.definedTerms attempt left right)
    generalize context.record
      (readEquation preferences context.definedTerms attempt left right) = read at hextends ⊢
    obtain ⟨⟨next, form⟩, context₁⟩ := read
    cases form with
    | error e => exact ⟨((next, .error e), context₁), rfl, hextends⟩
    | ok form =>
      refine exists_bind (exists_readEquations next fun other hother =>
        (hrest other hother).mono hextends) ?_
      rintro ⟨⟨last, found⟩, context₂⟩ hextends'
      exact ⟨_, rfl, hextends.trans hextends'⟩

/-- The attempt that an exact solve starts with. -/
def initial (preferences : Preferences) (keepsDefined : Bool) : Attempt Term :=
  { keepsDefined, complexFormat := preferences.complexFormat }

theorem isReady_initial (preferences : Preferences) (keepsDefined : Bool) :
    (initial preferences keepsDefined).IsReady where
  registry := rfl
  room := ⟨rfl, Nat.zero_le _⟩

theorem items_initial (preferences : Preferences) (keepsDefined : Bool) :
    (initial preferences keepsDefined).unknowns.items = [] := rfl

/-- An attempt has read the equations of a store, which have these standard forms. -/
def HasRead (preferences : Preferences) (store : EquationStore) (attempt : Attempt Term)
    (forms : List Term) : Prop :=
  ∃ keepsDefined context context', (initial preferences keepsDefined).readEquations preferences
    context store.equations = .ok ((attempt, .ok forms), context')

theorem HasRead.isReady {store : EquationStore} {forms : List Term}
    (h : HasRead preferences store attempt forms) :
    attempt.IsReady ∧ (forms = [] → attempt.unknowns.items = []) := by
  obtain ⟨keepsDefined, context, context', hread⟩ := h
  obtain ⟨hready, -, hnil⟩ := readEquations_spec (isReady_initial preferences keepsDefined) hread
  refine ⟨hready, fun hforms => ?_⟩
  rw [hnil hforms, items_initial]

end Attempt

/-! ### Whole attempts -/

theorem exists_ofStore (preferences : Preferences) (settings : SolverSettings)
    (keepsDefined : Bool) {store : EquationStore} {context : Context}
    (h : store.IsLive context.pool) :
    ∃ found, Attempted.ofStore preferences settings keepsDefined store context = .ok found ∧
      context.pool.Extends found.2.pool := by
  obtain ⟨⟨⟨attempt, forms⟩, context₁⟩, hread, hextends⟩ :=
    Attempt.exists_readEquations (Attempt.initial preferences keepsDefined) h
  unfold Attempted.ofStore
  refine exists_bind (P := fun read => ((attempt, forms), context₁) = read) ⟨_, hread, rfl⟩ ?_
  rintro _ rfl
  cases forms with
  | error e => exact ⟨_, rfl, hextends⟩
  | ok forms =>
    have hhasRead : Attempt.HasRead preferences store attempt forms :=
      ⟨keepsDefined, context, context₁, hread⟩
    obtain ⟨hready, hempty⟩ := hhasRead.isReady
    refine exists_bind (context₁.exists_recordChecked
      (Attempt.yields_solveForms preferences settings context₁.definedTerms hready hempty)) ?_
    rintro ⟨found, context₂⟩ hcontext
    refine ⟨_, rfl, hextends.trans ?_⟩
    dsimp only at hcontext ⊢
    rw [hcontext]
    exact context₁.extends_record _

namespace Attempt

/-- What solving the standard forms of an attempt asks for is there. -/
structure StaysInRange (preferences : Preferences) (definitions : Definitions)
    (attempt : Attempt Term) (forms : List Term) : Prop where
  /-- A system that is not linear has a first equation and a first unknown. -/
  first : (Linear.augmentedRows (attempt.reduction preferences .analysis)
    attempt.unknowns.items forms).value = none → forms ≠ [] ∧ attempt.unknowns.items ≠ []
  /-- The unknown of an affine term is one of the unknowns. -/
  unknown_lt : ∀ t found i, Coefficients.affineTerm? attempt.unknowns.items t = some found →
    found.unknown = some i → i < attempt.unknowns.items.length
  /-- The degree of a polynomial is one less than the number of its coefficients. -/
  leading : ∀ s unknown form build, Coefficients.polynomial? s unknown form = some build →
    build.value ≠ []
  /-- In every matrix whose rank is taken elimination stays in range. -/
  elimination : ∀ rows s m e, (Linear.augmentedRows (attempt.reduction preferences .analysis)
      attempt.unknowns.items forms).value = some rows →
    Linear.TakesRank (attempt.reduction preferences) definitions attempt.unknowns.items.length
      rows s m →
    Elimination.Run s m.columns (.start (m.reduce s definitions).value.rows) e →
      e.InRange s m.rows.length m.columns

/-! ### The rank that is subtracted -/

def unknownCount (attempt : Attempt Term) : Nat :=
  attempt.unknowns.items.length

/-- The augmented matrix of an attempt, in echelon form, and its rank. -/
structure HasRank (preferences : Preferences) (definitions : Definitions)
    (attempt : Attempt Term) (forms : List Term) (m echelon : SymbolicMatrix) (rank : Nat) :
    Prop where
  exists_rows : ∃ rows, (Linear.augmentedRows (attempt.reduction preferences .analysis)
    attempt.unknowns.items forms).value = some rows ∧ SymbolicMatrix.ofRows rows = .ok m
  rank_eq : (m.rank (attempt.reduction preferences .approximation) definitions).value =
    (echelon, some rank)

/-- The rank is subtracted from the number of unknowns. -/
def SubtractsRank (preferences : Preferences) (attempt : Attempt Term)
    (echelon : SymbolicMatrix) (rank : Nat) : Prop :=
  Linear.SubtractsRank (attempt.reduction preferences .approximation) attempt.unknownCount
    echelon rank

/-- A contradiction is missed. -/
def MissesContradiction (preferences : Preferences) (attempt : Attempt Term)
    (echelon : SymbolicMatrix) : Prop :=
  Linear.MissesContradiction (attempt.reduction preferences .approximation)
    attempt.unknownCount echelon

/-- Elimination meets exact numbers in the columns of the unknowns. -/
def MeetsNumbers (preferences : Preferences) (definitions : Definitions)
    (attempt : Attempt Term) (m : SymbolicMatrix) : Prop :=
  ∀ e, Elimination.Run (attempt.reduction preferences .approximation) m.columns
      (.start (m.reduce (attempt.reduction preferences .approximation) definitions).value.rows) e →
    e.column < attempt.unknownCount → e.MeetsNumbers

variable {preferences : Preferences} {definitions : Definitions} {store : EquationStore}
  {attempt : Attempt Term} {forms : List Term} {m echelon : SymbolicMatrix} {rank : Nat}

theorem HasRead.hasWidth (h : HasRead preferences store attempt forms) {s : Settings}
    {rows : List (List Term)}
    (hrows : (Linear.augmentedRows s attempt.unknowns.items forms).value = some rows) :
    SymbolicMatrix.HasWidth (attempt.unknowns.items.length + 1) rows ∧
      (rows = [] → attempt.unknowns.items.length = 0) := by
  obtain ⟨hwidth, hlength⟩ := Linear.hasWidth_augmentedRows hrows
  refine ⟨hwidth, fun hnil => ?_⟩
  have hforms : forms = [] := List.eq_nil_of_length_eq_zero (by rw [← hlength, hnil]; rfl)
  rw [h.isReady.2 hforms]
  rfl

theorem HasRead.isAugmented (h : HasRead preferences store attempt forms)
    (hrank : attempt.HasRank preferences definitions forms m echelon rank) :
    Linear.IsAugmented attempt.unknownCount m := by
  obtain ⟨rows, hrows, hm⟩ := hrank.exists_rows
  obtain ⟨hwidth, hempty⟩ := h.hasWidth hrows
  obtain ⟨m', hm', haugmented⟩ := Linear.ofRows_isAugmented hwidth hempty
  cases hm.symm.trans hm'
  exact haugmented

theorem HasRead.staysInRange (h : HasRead preferences store attempt forms)
    (definitions : Definitions) : attempt.StaysInRange preferences definitions forms where
  first := Linear.ne_nil_of_augmentedRows
  unknown_lt := fun _ _ _ hfound hi => Coefficients.unknown_lt_of_affineTerm? hfound hi
  leading := fun _ _ _ _ hbuild => Coefficients.ne_nil_of_polynomial? hbuild
  elimination := by
    intro rows s m e hrows htakes hrun
    obtain ⟨hwidth, hempty⟩ := h.hasWidth hrows
    have hm := (htakes.isAugmented hwidth hempty).rectangular
    have hstart := Elimination.isRegular_start
      (SymbolicMatrix.isRectangular_reduce s definitions hm)
    rw [SymbolicMatrix.length_rows_reduce] at hstart
    exact (hstart.run hrun).inRange s

end Attempt

namespace EquationSystem

theorem exists_exactSolve (system : EquationSystem) (preferences : Preferences)
    {store : EquationStore} {context : Context} (h : store.IsLive context.pool) :
    ∃ solved, system.exactSolve preferences store context = .ok solved := by
  obtain ⟨⟨first, context₁⟩, hfirst, hextends⟩ :=
    exists_ofStore preferences system.settings false h
  obtain ⟨⟨second, context₂⟩, hsecond, -⟩ :=
    exists_ofStore preferences system.settings true (h.mono hextends)
  unfold exactSolve
  rw [hfirst]
  show ∃ solved, (if isSettled first then _ else _) = Except.ok solved
  by_cases hsettled : isSettled first = true
  · rw [if_pos hsettled]
    exact ⟨_, rfl⟩
  · rw [if_neg hsettled, hsecond]
    exact ⟨_, rfl⟩

end EquationSystem

end EquationSolver
