import EquationSolver.Proofs.Solver.Growth

/-!
# Cutting back a workspace

A workspace is a context together with the systems and registries whose solutions show terms of
its pool.  After any calls the pool has its indices in order.  Solutions, definitions and the
pool are cut back apart from each other, and nothing but the cursor connects the cuts; when the
solutions are tidied first, nothing that is held then has gone with the pool.
-/

namespace EquationSolver

/-! ### Definitions -/

namespace Context

variable {context context' : Context} {name : String} {handle : Handle}

/-- The pool is well formed, and every defined name is there once. -/
structure IsWellFormed (context : Context) : Prop where
  pool : context.pool.IsWellFormed
  names : (context.definitions.map Prod.fst).Nodup

theorem isWellFormed_empty : ({} : Context).IsWellFormed :=
  ⟨Pool.isWellFormed_empty, List.nodup_nil⟩

theorem IsWellFormed.of_grows (h : context.IsWellFormed) (hgrows : context.Grows context') :
    context'.IsWellFormed :=
  ⟨hgrows.isWellFormed, hgrows.definitions ▸ h.names⟩

theorem nodup_names_filter (h : context.IsWellFormed) (keeps : String × Handle → Bool) :
    ((context.definitions.filter keeps).map Prod.fst).Nodup :=
  h.names.sublist (List.filter_sublist.map Prod.fst)

theorem IsWellFormed.reclaim (h : context.IsWellFormed) (cursor : Cursor) :
    (context.reclaim cursor).IsWellFormed :=
  ⟨h.pool.truncate cursor, nodup_names_filter h _⟩

theorem IsWellFormed.undefine (h : context.IsWellFormed) (name : String) :
    (context.undefine name).2.IsWellFormed :=
  ⟨h.pool, nodup_names_filter h _⟩

theorem IsWellFormed.defineHandle (h : context.IsWellFormed)
    (hdefine : context.defineHandle name handle = .ok context') : context'.IsWellFormed := by
  unfold Context.defineHandle at hdefine
  split_ifs at hdefine
  cases hdefine
  refine ⟨h.pool.internName name, List.nodup_cons.2 ⟨?_, nodup_names_filter h _⟩⟩
  simp

/-- A name is defined by the handle that is given, and the others stay. -/
theorem mem_defineHandle (hdefine : context.defineHandle name handle = .ok context')
    {definition : String × Handle} (h : definition ∈ context'.definitions) :
    definition = (name, handle) ∨ definition ∈ context.definitions := by
  unfold Context.defineHandle at hdefine
  split_ifs at hdefine
  cases hdefine
  exact (List.mem_cons.1 h).imp_right fun h => (List.mem_filter.1 h).1

theorem size_defineHandle (hdefine : context.defineHandle name handle = .ok context') :
    context'.pool.size = context.pool.size := by
  unfold Context.defineHandle at hdefine
  split_ifs at hdefine
  cases hdefine
  exact congrArg Array.size (Pool.terms_internName context.pool name)

/-- A text that defines a name is read into the pool, and then the name is defined by a handle in
    use, unless it is refused. -/
theorem define_spec (h : context.pool.IsWellFormed) (name text : String) :
    context.Grows (context.parse text).2 ∧
      ((context.define name text).2 = (context.parse text).2 ∨
        ∃ handle : Handle, handle.index < (context.parse text).2.pool.size ∧
          (context.parse text).2.defineHandle name handle = .ok (context.define name text).2) := by
  obtain ⟨hgrows, hterms⟩ := grows_record h (startsFrom_parseExpression text)
  refine ⟨hgrows, ?_⟩
  have hparse : context.record (parseExpression text) = context.parse text := rfl
  rw [hparse] at hterms hgrows
  unfold define
  rcases hread : context.parse text with ⟨read, parsed⟩
  rw [hread] at hterms hgrows
  cases read with
  | error e => exact .inl rfl
  | ok t =>
    dsimp only
    split
    case h_1 defined hdefine =>
      exact .inr ⟨_, index_handleOf_lt hgrows.isWellFormed (hterms (by simp)), hdefine⟩
    case h_2 => exact .inl rfl

/-- With every name there once, a definition is found just when it is there. -/
theorem IsWellFormed.definitionHandle?_eq_some_iff (h : context.IsWellFormed) :
    context.definitionHandle? name = some handle ↔ (name, handle) ∈ context.definitions := by
  have hlookup : ∀ {definitions : List (String × Handle)}, (definitions.map Prod.fst).Nodup →
      (definitions.lookup name = some handle ↔ (name, handle) ∈ definitions) := by
    intro definitions hnames
    induction definitions with
    | nil => simp
    | cons definition rest ih =>
      obtain ⟨hnew, hrest⟩ := List.nodup_cons.1 hnames
      rw [List.lookup_cons, List.mem_cons]
      by_cases hname : name = definition.1
      · subst hname
        have hother : (definition.1, handle) ∉ rest := fun h => hnew (List.mem_map.2 ⟨_, h, rfl⟩)
        simp [hother, Prod.ext_iff, eq_comm]
      · rw [beq_eq_false_iff_ne.2 hname]
        simp [hname, ih hrest, Prod.ext_iff]
  exact hlookup h.names

end Context

/-! ### Workspaces -/

/-- A context, and the systems and registries that hold handles of its pool. -/
structure Workspace where
  context : Context := {}
  systems : List EquationSystem := []
  registries : List (SolutionRegistry Handle) := []

/-- A call on a workspace.  Systems and registries are addressed by their places. -/
inductive WorkspaceCall where
  | addSystem (preferences : Preferences) (settings : SolverSettings)
  | addRegistry
  | parse (text : String)
  | parseEquation (text : String)
  | define (name text : String)
  | defineHandle (name : String) (handle : Handle)
  | undefine (name : String)
  | exactSolve (place : Nat) (preferences : Preferences) (store : EquationStore)
  | approximateSolve (place : Nat) (preferences : Preferences) (store : EquationStore)
  | register (place : Nat) (s : Reduction.Settings) (policy : DisplayPolicy) (type : SolutionType)
      (handle : Handle)
  | registerValue (place : Nat) (x : Float)
  | tidySystem (place : Nat) (cursor : Option Cursor)
  | tidyRegistry (place : Nat) (cursor : Option Cursor)
  | reclaim (cursor : Cursor)

namespace Workspace

/-! ### Calls -/

def withSystem (w : Workspace) (place : Nat) (system : EquationSystem) : Workspace :=
  { w with systems := w.systems.set place system }

def withRegistry (w : Workspace) (place : Nat) (registry : SolutionRegistry Handle) : Workspace :=
  { w with registries := w.registries.set place registry }

def system (w : Workspace) (place : Nat) : Except Fault EquationSystem :=
  (w.systems[place]?).elim (.error .dangling) .ok

def registry (w : Workspace) (place : Nat) : Except Fault (SolutionRegistry Handle) :=
  (w.registries[place]?).elim (.error .dangling) .ok

def reclaim (w : Workspace) (cursor : Cursor) : Workspace :=
  { w with context := w.context.reclaim cursor }

/-- Make a call.  What a call that is refused has built stays in the pool. -/
def call (w : Workspace) : WorkspaceCall → Unbounded Workspace
  | .addSystem preferences settings =>
    pure { w with systems := w.systems ++ [.unsolved preferences settings] }
  | .addRegistry => pure { w with registries := w.registries ++ [{}] }
  | .parse text => pure { w with context := (w.context.parse text).2 }
  | .parseEquation text => pure { w with context := (w.context.parseSides text).2 }
  | .define name text => pure { w with context := (w.context.define name text).2 }
  | .defineHandle name handle =>
    match w.context.defineHandle name handle with
    | .ok context => pure { w with context }
    | .error _ => pure w
  | .undefine name => pure { w with context := (w.context.undefine name).2 }
  | .exactSolve place preferences store => do
    let system ← w.system place
    let (solved, context) ← system.exactSolve preferences store w.context
    pure ({ w with context }.withSystem place solved)
  | .approximateSolve place preferences store => do
    let system ← w.system place
    let (answer, context) ← system.approximateSolve preferences store w.context
    match answer with
    | .ok searched => pure ({ w with context }.withSystem place searched)
    | .error _ => pure { w with context }
  | .register place s policy type handle => do
    let registry ← w.registry place
    let t ← w.context.pool.get handle
    let (answer, context) ← registry.register w.context s policy type t
    match answer with
    | .ok registry => pure ({ w with context }.withRegistry place registry)
    | .error _ => pure { w with context }
  | .registerValue place x => do
    let registry ← w.registry place
    pure (w.withRegistry place (registry.addValue x))
  | .tidySystem place cursor => do
    let system ← w.system place
    pure (w.withSystem place (system.tidy cursor))
  | .tidyRegistry place cursor => do
    let registry ← w.registry place
    pure (w.withRegistry place (registry.tidy cursor))
  | .reclaim cursor => pure (w.reclaim cursor)

/-- Make calls on an empty workspace. -/
def run (calls : List WorkspaceCall) : Unbounded Workspace :=
  calls.foldlM call {}

/-- Tidy every solution of the workspace. -/
def tidy (w : Workspace) (cursor : Option Cursor) : Workspace :=
  { w with
    systems := w.systems.map fun system => system.tidy cursor
    registries := w.registries.map fun registry => registry.tidy cursor }

/-- Tidy the solutions of the workspace and then cut its pool and its definitions back. -/
def cutBack (w : Workspace) (cursor : Cursor) : Workspace :=
  (w.tidy (some cursor)).reclaim cursor

/-! ### What is held -/

/-- All registries of a workspace, those of its systems first. -/
def allRegistries (w : Workspace) : List (SolutionRegistry Handle) :=
  w.systems.map (fun system => system.attempt.registry) ++ w.registries

/-- The handles that solutions show and names are defined by. -/
def handles (w : Workspace) : List Handle :=
  w.allRegistries.flatMap SolutionRegistry.handles ++ w.context.definitions.map Prod.snd

/-- Every handle that is held is in use. -/
def IsLive (w : Workspace) : Prop :=
  ∀ handle ∈ w.handles, handle.index < w.context.pool.size

variable {w w' : Workspace} {context : Context} {place : Nat} {handle : Handle}

theorem mem_handles : handle ∈ w.handles ↔
    (∃ registry ∈ w.allRegistries, handle ∈ registry.handles) ∨
      ∃ definition ∈ w.context.definitions, definition.2 = handle := by
  rw [handles, List.mem_append, List.mem_flatMap, List.mem_map]

theorem mem_handles_withSystem {system : EquationSystem}
    (h : handle ∈ (w.withSystem place system).handles) :
    handle ∈ w.handles ∨ handle ∈ system.attempt.registry.handles := by
  rw [mem_handles] at h ⊢
  rcases h with ⟨registry, hregistry, hhandle⟩ | h
  · rcases List.mem_append.1 hregistry with hregistry | hregistry
    · obtain ⟨other, hother, rfl⟩ := List.mem_map.1 hregistry
      rcases List.mem_or_eq_of_mem_set hother with hother | rfl
      · exact .inl (.inl ⟨_, List.mem_append_left _ (List.mem_map_of_mem hother), hhandle⟩)
      · exact .inr hhandle
    · exact .inl (.inl ⟨_, List.mem_append_right _ hregistry, hhandle⟩)
  · exact .inl (.inr h)

theorem mem_handles_withRegistry {registry : SolutionRegistry Handle}
    (h : handle ∈ (w.withRegistry place registry).handles) :
    handle ∈ w.handles ∨ handle ∈ registry.handles := by
  rw [mem_handles] at h ⊢
  rcases h with ⟨other, hother, hhandle⟩ | h
  · rcases List.mem_append.1 hother with hother | hother
    · exact .inl (.inl ⟨_, List.mem_append_left _ hother, hhandle⟩)
    · rcases List.mem_or_eq_of_mem_set hother with hother | rfl
      · exact .inl (.inl ⟨_, List.mem_append_right _ hother, hhandle⟩)
      · exact .inr hhandle
  · exact .inl (.inr h)

theorem mem_handles_of_system {system : EquationSystem} (h : w.system place = .ok system)
    (hhandle : handle ∈ system.attempt.registry.handles) : handle ∈ w.handles := by
  unfold Workspace.system at h
  cases hplace : w.systems[place]? with
  | none => rw [hplace] at h; cases h
  | some other =>
    rw [hplace] at h
    cases h
    exact mem_handles.2 (.inl ⟨_, List.mem_append_left _
      (List.mem_map_of_mem (List.mem_of_getElem? hplace)), hhandle⟩)

theorem mem_handles_of_registry {registry : SolutionRegistry Handle}
    (h : w.registry place = .ok registry) (hhandle : handle ∈ registry.handles) :
    handle ∈ w.handles := by
  unfold Workspace.registry at h
  cases hplace : w.registries[place]? with
  | none => rw [hplace] at h; cases h
  | some other =>
    rw [hplace] at h
    cases h
    exact mem_handles.2
      (.inl ⟨_, List.mem_append_right _ (List.mem_of_getElem? hplace), hhandle⟩)

/-! ### One call -/

/-- What every call but a cut leaves: the context is well formed, what was in use is in use, and
    what is held was held, or is in use, or is what a name is to be defined by. -/
structure Keeps (w : Workspace) (c : WorkspaceCall) (w' : Workspace) : Prop where
  isWellFormed : w'.context.IsWellFormed
  index_lt : ∀ handle : Handle, handle.index < w.context.pool.size →
    handle.index < w'.context.pool.size
  held : ∀ handle ∈ w'.handles, handle ∈ w.handles ∨ handle.index < w'.context.pool.size ∨
    ∃ name, c = .defineHandle name handle

variable {c : WorkspaceCall}

theorem keeps_withContext (hcontext : context.IsWellFormed)
    (hindex : ∀ handle : Handle, handle.index < w.context.pool.size →
      handle.index < context.pool.size)
    (hdefinitions : ∀ definition ∈ context.definitions, definition ∈ w.context.definitions ∨
      definition.2.index < context.pool.size ∨ ∃ name, c = .defineHandle name definition.2) :
    w.Keeps c { w with context } where
  isWellFormed := hcontext
  index_lt := hindex
  held handle hhandle := by
    rcases mem_handles.1 hhandle with hhandle | ⟨definition, hdefinition, rfl⟩
    · exact .inl (mem_handles.2 (.inl hhandle))
    · refine (hdefinitions definition hdefinition).imp_left fun hold => ?_
      exact mem_handles.2 (.inr ⟨definition, hold, rfl⟩)

theorem keeps_of_grows (h : w.context.IsWellFormed) (hgrows : w.context.Grows context) :
    w.Keeps c { w with context } :=
  keeps_withContext (h.of_grows hgrows) (fun _ => hgrows.index_lt) fun _ hdefinition =>
    .inl (hgrows.definitions ▸ hdefinition)

/-- The context stays, and no further handle is held. -/
theorem keeps_of_handles (h : w.context.IsWellFormed) (hcontext : w'.context = w.context)
    (hhandles : ∀ handle ∈ w'.handles, handle ∈ w.handles) : w.Keeps c w' where
  isWellFormed := hcontext ▸ h
  index_lt _ := hcontext ▸ id
  held handle hhandle := .inl (hhandles handle hhandle)

theorem Keeps.withSystem (h : w.Keeps c w') {system : EquationSystem}
    (hsystem : ∀ handle ∈ system.attempt.registry.handles,
      handle ∈ w.handles ∨ handle.index < w'.context.pool.size) :
    w.Keeps c (w'.withSystem place system) where
  isWellFormed := h.isWellFormed
  index_lt := h.index_lt
  held handle hhandle := (mem_handles_withSystem hhandle).elim (h.held handle) fun hhandle =>
    (hsystem handle hhandle).imp_right .inl

theorem Keeps.withRegistry (h : w.Keeps c w') {registry : SolutionRegistry Handle}
    (hregistry : ∀ handle ∈ registry.handles,
      handle ∈ w.handles ∨ handle.index < w'.context.pool.size) :
    w.Keeps c (w'.withRegistry place registry) where
  isWellFormed := h.isWellFormed
  index_lt := h.index_lt
  held handle hhandle := (mem_handles_withRegistry hhandle).elim (h.held handle) fun hhandle =>
    (hregistry handle hhandle).imp_right .inl

section Calls

variable (h : w.context.IsWellFormed)
include h

/-- A name that a text defines is defined by a handle in use. -/
theorem keeps_define (name text : String) :
    w.Keeps c { w with context := (w.context.define name text).2 } := by
  obtain ⟨hgrows, hrefused | ⟨handle, hlive, hdefine⟩⟩ := Context.define_spec h.pool name text
  · exact hrefused ▸ keeps_of_grows h hgrows
  · have hsize := Context.size_defineHandle hdefine
    refine keeps_withContext ((h.of_grows hgrows).defineHandle hdefine)
      (fun other hother => hsize ▸ hgrows.index_lt hother) fun definition hdefinition => ?_
    rcases Context.mem_defineHandle hdefine hdefinition with rfl | hold
    · exact .inr (.inl (hsize ▸ hlive))
    · exact .inl (hgrows.definitions ▸ hold)

theorem keeps_defineHandle {name : String}
    (hcall : (w.call (.defineHandle name handle)).run = some (.ok w')) :
    w.Keeps (.defineHandle name handle) w' := by
  simp only [call] at hcall
  split at hcall
  case h_1 context hdefine =>
    cases hcall
    have hsize := Context.size_defineHandle hdefine
    refine keeps_withContext (h.defineHandle hdefine) (fun other hother => hsize ▸ hother)
      fun definition hdefinition => ?_
    rcases Context.mem_defineHandle hdefine hdefinition with rfl | hold
    · exact .inr (.inr ⟨name, rfl⟩)
    · exact .inl hold
  case h_2 =>
    cases hcall
    exact keeps_of_grows h (.refl h.pool)

theorem keeps_undefine (name : String) :
    w.Keeps c { w with context := (w.context.undefine name).2 } :=
  keeps_withContext (h.undefine name) (fun _ => id) fun _ hdefinition =>
    .inl (List.mem_filter.1 hdefinition).1

/-- The solutions of an exact solve show what it has built. -/
theorem keeps_exactSolve {preferences : Preferences} {store : EquationStore}
    (hcall : (w.call (.exactSolve place preferences store)).run = some (.ok w')) :
    w.Keeps (.exactSolve place preferences store) w' := by
  obtain ⟨system, -, hcall⟩ := Unbounded.exists_of_except_bind hcall
  obtain ⟨⟨solved, context⟩, hsolve, hcall⟩ := Unbounded.exists_of_except_bind hcall
  cases hcall
  obtain ⟨hgrows, hshows⟩ := EquationSystem.grows_exactSolve h.pool hsolve
  exact (keeps_of_grows h hgrows).withSystem fun handle hhandle => .inr (hshows handle hhandle)

/-- The solutions of a numeric search show no handles. -/
theorem keeps_approximateSolve {preferences : Preferences} {store : EquationStore}
    (hcall : (w.call (.approximateSolve place preferences store)).run = some (.ok w')) :
    w.Keeps (.approximateSolve place preferences store) w' := by
  obtain ⟨system, -, hcall⟩ := Unbounded.exists_of_except_bind hcall
  obtain ⟨⟨answer, context⟩, hsearch, hcall⟩ := Unbounded.exists_of_bind hcall
  obtain ⟨hgrows, hnumbers⟩ := EquationSystem.grows_approximateSolve h.pool hsearch
  cases answer with
  | error e =>
    cases hcall
    exact keeps_of_grows h hgrows
  | ok searched =>
    cases hcall
    refine (keeps_of_grows h hgrows).withSystem fun handle hhandle => ?_
    rw [hnumbers searched rfl] at hhandle
    exact absurd hhandle List.not_mem_nil

/-- What is registered shows what was held or what has been built for it. -/
theorem keeps_register {s : Reduction.Settings} {policy : DisplayPolicy} {type : SolutionType}
    (hcall : (w.call (.register place s policy type handle)).run = some (.ok w')) :
    w.Keeps (.register place s policy type handle) w' := by
  obtain ⟨registry, hregistry, hcall⟩ := Unbounded.exists_of_except_bind hcall
  obtain ⟨t, ht, hcall⟩ := Unbounded.exists_of_except_bind hcall
  obtain ⟨⟨answer, context⟩, hregister, hcall⟩ := Unbounded.exists_of_except_bind hcall
  obtain ⟨hgrows, hadded⟩ := SolutionRegistry.grows_register h.pool
    (Context.mem_terms_of_get ht) hregister
  cases answer with
  | error e =>
    cases hcall
    exact keeps_of_grows h hgrows
  | ok registry' =>
    cases hcall
    refine (keeps_of_grows h hgrows).withRegistry fun handle hhandle => ?_
    exact (hadded registry' rfl handle hhandle).imp_left (mem_handles_of_registry hregistry)

theorem keeps_registerValue {x : Float}
    (hcall : (w.call (.registerValue place x)).run = some (.ok w')) :
    w.Keeps (.registerValue place x) w' := by
  obtain ⟨registry, hregistry, hcall⟩ := Unbounded.exists_of_except_bind hcall
  cases hcall
  refine (keeps_of_grows h (.refl h.pool)).withRegistry fun handle hhandle => .inl ?_
  rw [SolutionRegistry.handles_addValue] at hhandle
  exact mem_handles_of_registry hregistry hhandle

theorem keeps_tidySystem {cursor : Option Cursor}
    (hcall : (w.call (.tidySystem place cursor)).run = some (.ok w')) :
    w.Keeps (.tidySystem place cursor) w' := by
  obtain ⟨system, hsystem, hcall⟩ := Unbounded.exists_of_except_bind hcall
  cases hcall
  exact (keeps_of_grows h (.refl h.pool)).withSystem fun handle hhandle => .inl
    (mem_handles_of_system hsystem (SolutionRegistry.handles_tidy_subset _ cursor hhandle))

theorem keeps_tidyRegistry {cursor : Option Cursor}
    (hcall : (w.call (.tidyRegistry place cursor)).run = some (.ok w')) :
    w.Keeps (.tidyRegistry place cursor) w' := by
  obtain ⟨registry, hregistry, hcall⟩ := Unbounded.exists_of_except_bind hcall
  cases hcall
  exact (keeps_of_grows h (.refl h.pool)).withRegistry fun handle hhandle => .inl
    (mem_handles_of_registry hregistry (SolutionRegistry.handles_tidy_subset _ cursor hhandle))

/-- A call cuts the pool back, or it keeps what there is. -/
theorem call_spec (hcall : (w.call c).run = some (.ok w')) :
    (∃ cursor, c = .reclaim cursor ∧ w' = w.reclaim cursor) ∨ w.Keeps c w' := by
  cases c with
  | reclaim cursor =>
    cases hcall
    exact .inl ⟨cursor, rfl, rfl⟩
  | addSystem preferences settings =>
    cases hcall
    refine .inr (keeps_of_handles h rfl fun handle hhandle => ?_)
    simpa [handles, allRegistries, EquationSystem.unsolved, SolutionRegistry.handles] using hhandle
  | addRegistry =>
    cases hcall
    refine .inr (keeps_of_handles h rfl fun handle hhandle => ?_)
    simpa [handles, allRegistries, SolutionRegistry.handles] using hhandle
  | parse text =>
    cases hcall
    exact .inr (keeps_of_grows h (Context.grows_record h.pool (startsFrom_parseExpression text)).1)
  | parseEquation text =>
    cases hcall
    exact .inr (keeps_of_grows h (Context.grows_record h.pool (startsFrom_parseEquation text)).1)
  | define name text =>
    cases hcall
    exact .inr (keeps_define h name text)
  | defineHandle name handle => exact .inr (keeps_defineHandle h hcall)
  | undefine name =>
    cases hcall
    exact .inr (keeps_undefine h name)
  | exactSolve place preferences store => exact .inr (keeps_exactSolve h hcall)
  | approximateSolve place preferences store => exact .inr (keeps_approximateSolve h hcall)
  | register place s policy type handle => exact .inr (keeps_register h hcall)
  | registerValue place x => exact .inr (keeps_registerValue h hcall)
  | tidySystem place cursor => exact .inr (keeps_tidySystem h hcall)
  | tidyRegistry place cursor => exact .inr (keeps_tidyRegistry h hcall)

end Calls

/-! ### Runs -/

/-- Every call preserves well-formedness. -/
theorem isWellFormed_call (h : w.context.IsWellFormed) (hcall : (w.call c).run = some (.ok w')) :
    w'.context.IsWellFormed := by
  obtain ⟨cursor, -, rfl⟩ | hkeeps := call_spec h hcall
  · exact h.reclaim cursor
  · exact hkeeps.isWellFormed

theorem isWellFormed_foldlM {calls : List WorkspaceCall} (h : w.context.IsWellFormed)
    (hcalls : (calls.foldlM call w).run = some (.ok w')) : w'.context.IsWellFormed := by
  induction calls generalizing w with
  | nil =>
    cases hcalls
    exact h
  | cons c rest ih =>
    rw [List.foldlM_cons] at hcalls
    obtain ⟨next, hcall, hrest⟩ := Unbounded.exists_of_bind hcalls
    exact ih (isWellFormed_call h hcall) hrest

/-- The pool has its indices in order, and each name is defined once, whatever the calls. -/
theorem isWellFormed_run {calls : List WorkspaceCall} (h : (run calls).run = some (.ok w)) :
    w.context.IsWellFormed :=
  isWellFormed_foldlM Context.isWellFormed_empty h

/-- A call that cuts nothing back keeps what is held in use, if names are only defined by handles
    in use. -/
theorem IsLive.call (h : w.IsLive) (hcontext : w.context.IsWellFormed)
    (hcall : (w.call c).run = some (.ok w')) (hcut : ∀ cursor, c ≠ .reclaim cursor)
    (hdefine : ∀ name handle, c = .defineHandle name handle →
      handle.index < w.context.pool.size) : w'.IsLive := by
  obtain ⟨cursor, rfl, -⟩ | hkeeps := call_spec hcontext hcall
  · exact absurd rfl (hcut cursor)
  · intro handle hhandle
    obtain hold | hlive | ⟨name, rfl⟩ := hkeeps.held handle hhandle
    · exact hkeeps.index_lt handle (h handle hold)
    · exact hlive
    · exact hkeeps.index_lt handle (hdefine name handle rfl)

/-! ### Cutting back -/

/-- What a cut makes of a solution: it stays if it only shows handles before the cursor, and is
    blank otherwise. -/
def CutsSolution (cursor : Cursor) (solution solution' : Solution Handle) : Prop :=
  ((∀ handle ∈ solution.handles, handle.index < cursor.position) → solution' = solution) ∧
    ((∃ handle ∈ solution.handles, cursor.position ≤ handle.index) → solution' = {})

theorem cutsSolution_tidy (cursor : Cursor) (registry : SolutionRegistry Handle) :
    List.Forall₂ (CutsSolution cursor) registry.solutions
      (registry.tidy (some cursor)).solutions := by
  have hstale (solution : Solution Handle) :
      (solution.layouts.any fun layout => layout.node.isDownstreamOf cursor) = true ↔
        ∃ handle ∈ solution.handles, cursor.position ≤ handle.index := by
    simp [Solution.handles, Handle.isDownstreamOf]
  refine List.forall₂_map_right_iff.2 (List.forall₂_same.2 fun solution _ => ⟨?_, ?_⟩)
  · intro hbefore
    refine if_neg fun hdownstream => ?_
    obtain ⟨handle, hhandle, hle⟩ := (hstale solution).1 hdownstream
    exact Nat.not_lt.2 hle (hbefore handle hhandle)
  · exact fun hdownstream => if_pos ((hstale solution).2 hdownstream)

/-- A tidied registry shows only handles before the cursor. -/
theorem mem_handles_tidy {cursor : Cursor} {registry : SolutionRegistry Handle}
    (h : handle ∈ (registry.tidy (some cursor)).handles) :
    handle ∈ registry.handles ∧ handle.index < cursor.position := by
  refine ⟨registry.handles_tidy_subset _ h, ?_⟩
  obtain ⟨solution', hsolution', hhandle⟩ := List.mem_flatMap.1 h
  obtain ⟨solution, -, hbefore, hdownstream⟩ :=
    exists_of_mem_forall₂ (cutsSolution_tidy cursor registry) hsolution'
  by_contra hle
  by_cases hbefore' : ∀ handle ∈ solution.handles, handle.index < cursor.position
  · exact hle (hbefore' handle (hbefore hbefore' ▸ hhandle))
  · push Not at hbefore'
    rw [hdownstream hbefore'] at hhandle
    exact List.not_mem_nil hhandle

theorem allRegistries_cut (w : Workspace) (cursor : Cursor) :
    (w.cutBack cursor).allRegistries =
      w.allRegistries.map fun registry => registry.tidy (some cursor) := by
  simp [allRegistries, cutBack, tidy, reclaim, EquationSystem.tidy, Function.comp_def]

/-- What is still held after a cut was held before, and comes before the cursor. -/
theorem mem_handles_cut {cursor : Cursor}
    (h : handle ∈ (w.cutBack cursor).handles) :
    handle ∈ w.handles ∧ handle.index < cursor.position := by
  rw [mem_handles, allRegistries_cut] at h
  rcases h with ⟨registry', hregistry', hhandle⟩ | ⟨definition, hdefinition, rfl⟩
  · obtain ⟨registry, hregistry, rfl⟩ := List.mem_map.1 hregistry'
    obtain ⟨hhandle, hlt⟩ := mem_handles_tidy hhandle
    exact ⟨mem_handles.2 (.inl ⟨registry, hregistry, hhandle⟩), hlt⟩
  · obtain ⟨hdefinition, hbefore⟩ := List.mem_filter.1 hdefinition
    refine ⟨mem_handles.2 (.inr ⟨definition, hdefinition, rfl⟩), ?_⟩
    simpa [Handle.isDownstreamOf] using hbefore

/-- What a cut at a cursor makes of a workspace. -/
structure IsCut (cursor : Cursor) (w w' : Workspace) : Prop where
  live : w'.IsLive
  /-- What is still held denotes the tree that it denoted before. -/
  tree : ∀ handle ∈ w'.handles, ∃ t,
    w.context.pool.tree? handle = some t ∧ w'.context.pool.tree? handle = some t
  solutions : List.Forall₂ (fun registry registry' =>
    List.Forall₂ (CutsSolution cursor) registry.solutions registry'.solutions)
      w.allRegistries w'.allRegistries
  definition_iff : ∀ name handle, w'.context.definitionHandle? name = some handle ↔
    w.context.definitionHandle? name = some handle ∧ handle.index < cursor.position

/-- Whatever calls lead to a workspace that holds no handle but handles in use, what is still held
    after it is tidied and then cut back at a cursor denotes what it denoted before; solutions and
    definitions before the cursor stay, and the others are blank or gone. -/
theorem run_tidy_reclaim {calls : List WorkspaceCall} (h : (run calls).run = some (.ok w)) (hlive : w.IsLive)
    (cursor : Cursor) : w.IsCut cursor (w.cutBack cursor) := by
  have hcontext := isWellFormed_run h
  have hcut := hcontext.reclaim cursor
  have hget : ∀ handle ∈ (w.cutBack cursor).handles, ∃ t,
      w.context.pool.get? handle = some t ∧
        (w.context.pool.truncate cursor).get? handle = some t := by
    intro handle hhandle
    obtain ⟨hheld, hbefore⟩ := mem_handles_cut hhandle
    have hterm : w.context.pool.get? handle = _ := Array.getElem?_eq_getElem (hlive handle hheld)
    refine ⟨_, hterm, ?_⟩
    rw [Pool.get?_truncate, if_neg (by simpa [Handle.isDownstreamOf] using hbefore), hterm]
  refine ⟨fun handle hhandle => ?_, fun handle hhandle => ?_, ?_, fun name handle => ?_⟩
  · obtain ⟨t, -, ht⟩ := hget handle hhandle
    exact (Array.getElem?_eq_some_iff.1 ht).1
  · obtain ⟨t, hbefore, hafter⟩ := hget handle hhandle
    exact ⟨t, (hcontext.pool.tree?_eq_get? handle).trans hbefore,
      (hcut.pool.tree?_eq_get? handle).trans hafter⟩
  · rw [allRegistries_cut]
    exact List.forall₂_map_right_iff.2 (List.forall₂_same.2 fun registry _ =>
      cutsSolution_tidy cursor registry)
  · refine hcut.definitionHandle?_eq_some_iff.trans (List.mem_filter.trans ?_)
    rw [hcontext.definitionHandle?_eq_some_iff]
    simp [Handle.isDownstreamOf]

/-- Defining `a` as `x` on an empty workspace leaves it live, with a definition. -/
theorem exists_run_define : ∃ w handle, (run [.define "a" "x"]).run = some (.ok w) ∧ w.IsLive ∧
    w.context.definitionHandle? "a" = some handle := by
  let w : Workspace := { context := (({} : Context).define "a" "x").2 }
  have hlive : w.IsLive := by
    have hempty : ({} : Workspace).IsLive := fun _ hhandle => absurd hhandle List.not_mem_nil
    exact hempty.call (c := .define "a" "x") Context.isWellFormed_empty rfl nofun nofun
  obtain ⟨handle, hhandle⟩ : ∃ handle, w.context.definitionHandle? "a" = some handle := by
    have hread : (parseExpression "x").value.toOption = some (.symbol "x") := rfl
    show ∃ handle, (({} : Context).define "a" "x").2.definitionHandle? "a" = some handle
    unfold Context.define Context.parse Context.record Pool.record
    revert hread
    cases (parseExpression "x").value with
    | error e => exact nofun
    | ok t =>
      intro _
      dsimp only [Context.defineHandle]
      rw [if_neg (by decide)]
      exact ⟨_, rfl⟩
  exact ⟨w, handle, rfl, hlive, hhandle⟩

/-- A definition stays with its tree when the pool is cut back to its end, and goes when it is cut
    back to its start. -/
theorem run_tidy_reclaim_definition : ∃ w handle, (run [.define "a" "x"]).run = some (.ok w) ∧ w.IsLive ∧
    w.context.definitionHandle? "a" = some handle ∧
    (w.cutBack w.context.pool.checkpoint).context.definitionHandle? "a" = some handle ∧
    (∃ t, (w.cutBack w.context.pool.checkpoint).context.pool.tree? handle = some t) ∧
    (w.cutBack ⟨0⟩).context.definitionHandle? "a" = none := by
  obtain ⟨w, handle, hrun, hlive, hdefined⟩ := exists_run_define
  have hheld {w : Workspace} (hcontext : w.context.IsWellFormed)
      (h : w.context.definitionHandle? "a" = some handle) : handle ∈ w.handles :=
    mem_handles.2 (.inr ⟨_, hcontext.definitionHandle?_eq_some_iff.1 h, rfl⟩)
  have hcontext := isWellFormed_run hrun
  have hend := run_tidy_reclaim hrun hlive w.context.pool.checkpoint
  have hstart := run_tidy_reclaim hrun hlive ⟨0⟩
  have hkept := (hend.definition_iff "a" handle).2
    ⟨hdefined, hlive handle (hheld hcontext hdefined)⟩
  obtain ⟨t, -, ht⟩ := hend.tree handle (hheld (hcontext.reclaim _) hkept)
  refine ⟨w, handle, hrun, hlive, hdefined, hkept, ⟨t, ht⟩, ?_⟩
  refine Option.eq_none_iff_forall_not_mem.2 fun other hother => ?_
  exact absurd ((hstart.definition_iff "a" other).1 hother).2 (Nat.not_lt_zero _)

end Workspace

end EquationSolver
