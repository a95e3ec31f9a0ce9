import EquationSolver.Proofs.Reduction.Reuse

/-!
# Definitions within definitions

A reduction that replaces symbols keeps track of the names whose definitions are being reduced.
Here it also logs them, each time that another definition is opened, and it needs no bound on how
deep definitions nest: a name is opened only if it is not open already, so that one definition less
is left.  A name that is met while it is open is undefined, and where nothing is hidden in matrices
so is everything that leads to it.
-/

namespace EquationSolver

namespace Reduction

/-- The names whose definitions are being reduced at some time, the innermost first. -/
abbrev Nesting := List String

/-- A step, and the nestings of definitions that it opens. -/
def Logged (α : Type) : Type := Memory → Build (α × Memory) × List Nesting

namespace Logged

variable {α β : Type}

/-- The step without the log. -/
def step (run : Logged α) : Step α :=
  fun memory => (run memory).1

def log (run : Logged α) (memory : Memory) : List Nesting :=
  (run memory).2

instance : Monad Logged where
  pure a := fun memory => ((pure a : Step _) memory, [])
  bind run f := fun memory =>
    ((run.step >>= fun a => (f a).step) memory,
      run.log memory ++ (f (run.step memory).value.1).log (run.step memory).value.2)

/-- A step that opens no definition. -/
def ofStep (step : Step α) : Logged α :=
  fun memory => (step memory, [])

def enter (nesting : Nesting) : Logged Unit :=
  fun memory => ((pure () : Step Unit) memory, [nesting])

/-- A step whose result is remembered opens definitions only if there is no result yet. -/
def remember (t : Term) (run : Logged Term) : Logged Term :=
  fun memory =>
    (Step.remember t run.step memory,
      match memory[t]? with
      | some _ => []
      | none => run.log memory)

@[simp] theorem step_pure (a : α) : (pure a : Logged α).step = pure a := rfl

@[simp] theorem step_bind (run : Logged α) (f : α → Logged β) :
    (run >>= f).step = run.step >>= fun a => (f a).step := rfl

theorem step_enter_bind (nesting : Nesting) (run : Logged α) :
    (enter nesting >>= fun _ => run).step = run.step := rfl

@[simp] theorem step_ofStep (step : Step α) : (ofStep step).step = step := rfl

@[simp] theorem step_remember (t : Term) (run : Logged Term) :
    (remember t run).step = Step.remember t run.step := rfl

end Logged

open Logged

/-! ### Reduction with a log -/

mutual

def logTerm (s : Settings) (symbol : String → Logged Term) : Term → Logged Term
  | .symbol name => remember (.symbol name) (symbol name)
  | .sum terms => remember (.sum terms) do
    let terms ← logTerms s symbol terms
    ofStep (Step.ofBuild (add terms))
  | .product factors => remember (.product factors) do
    let factors ← logTerms s symbol factors
    ofStep (Step.ofBuild (mul s factors))
  | .power base exponent => remember (.power base exponent) do
    let base ← logTerm s symbol base
    let exponent ← logTerm s symbol exponent
    ofStep (Step.ofBuild (pow s base exponent))
  | .negation a => remember (.negation a) do
    let a ← logTerm s symbol a
    ofStep (Step.ofBuild do
      let minusOne ← Build.number (-1)
      mul s [minusOne, a])
  | .quotient a b => remember (.quotient a b) do
    let a ← logTerm s symbol a
    let b ← logTerm s symbol b
    ofStep (Step.ofBuild do
      let minusOne ← Build.number (-1)
      let inverse ← pow s b minusOne
      mul s [a, inverse])
  | .apply f a => remember (.apply f a) do
    let a ← logTerm s symbol a
    ofStep (Step.ofBuild (apply s f a))
  | .matrix rows columns entries => remember (.matrix rows columns entries) do
    let entries ← logTerms s symbol entries
    ofStep (Step.ofBuild (Build.make (.matrix rows columns entries)))
  | t => pure t

def logTerms (s : Settings) (symbol : String → Logged Term) : List Term → Logged (List Term)
  | [] => pure []
  | t :: ts => do
    let t ← logTerm s symbol t
    let ts ← logTerms s symbol ts
    pure (t :: ts)

end

/-- The number of definitions whose names are not open. -/
def closedCount (definitions : Definitions) (expanding : Nesting) : Nat :=
  (definitions.filter fun d => d.1 ∉ expanding).length

theorem closedCount_cons_lt {definitions : Definitions} {expanding : Nesting} {name : String}
    {definition : Term} (hlookup : definitions.lookup name = some definition)
    (hname : name ∉ expanding) :
    closedCount definitions (name :: expanding) < closedCount definitions expanding := by
  have hfilter : (definitions.filter fun d => d.1 ∉ name :: expanding) =
      (definitions.filter fun d => d.1 ∉ expanding).filter fun d => d.1 ≠ name := by
    rw [List.filter_filter]
    exact List.filter_congr fun d _ => by simp [not_or]
  rw [closedCount, hfilter]
  refine List.length_filter_lt_length_iff_exists.2 ⟨(name, definition), ?_, by simp⟩
  exact List.mem_filter.2 ⟨mem_of_lookup hlookup, by simpa using hname⟩

/-- Reduce a symbol whose definition, if it has one that is not open, is opened and reduced. -/
def logSymbol (s : Settings) (definitions : Definitions) (expanding : Nesting) (name : String) :
    Logged Term :=
  match s.symbols, _hlookup : definitions.lookup name with
  | .replaceDefined, some definition =>
    if _hname : name ∈ expanding then ofStep (Step.ofBuild (Build.make .undefined))
    else do
      enter (name :: expanding)
      logTerm s (fun other => logSymbol s definitions (name :: expanding) other) definition
  | _, _ => pure (.symbol name)
termination_by closedCount definitions expanding
decreasing_by exact closedCount_cons_lt _hlookup _hname

/-- Reduce a term, and log the definitions that are opened. -/
def logWith (s : Settings) (definitions : Definitions) (t : Term) : Logged Term :=
  logTerm s (logSymbol s definitions []) t

section Steps

variable {s : Settings} {definitions : Definitions} {expanding : Nesting} {name : String}
  {definition : Term} {levels : Nat} {symbol : String → Logged Term}

mutual

/-- Without its log, the reduction is the one that keeps none. -/
theorem step_logTerm : ∀ t : Term,
    (logTerm s symbol t).step = reduceTerm s (fun name => (symbol name).step) t
  | .number _ | .decimal _ | .constant _ | .undefined | .nonreal => by
    simp only [logTerm, reduceTerm, step_pure]
  | .symbol name => by simp only [logTerm, reduceTerm, step_remember]
  | .sum terms | .product terms | .matrix _ _ terms => by
    simp only [logTerm, reduceTerm, step_remember, step_bind, step_ofStep, step_logTerms terms]
  | .power a b | .quotient a b => by
    simp only [logTerm, reduceTerm, step_remember, step_bind, step_ofStep, step_logTerm a,
      step_logTerm b]
  | .negation a | .apply _ a => by
    simp only [logTerm, reduceTerm, step_remember, step_bind, step_ofStep, step_logTerm a]

theorem step_logTerms : ∀ ts : List Term,
    (logTerms s symbol ts).step = reduceTerms s (fun name => (symbol name).step) ts
  | [] => by simp only [logTerms, reduceTerms, step_pure]
  | t :: ts => by
    simp only [logTerms, reduceTerms, step_bind, step_pure, step_logTerm t, step_logTerms ts]

end

theorem logSymbol_of_kept (h : s.symbols = .replaceDefined → definitions.lookup name = none) :
    logSymbol s definitions expanding name = pure (.symbol name) := by
  rw [logSymbol]
  split
  case h_1 definition hs hlookup => cases (h hs).symm.trans hlookup
  case h_2 => rfl

theorem logSymbol_of_mem_expanding (hs : s.symbols = .replaceDefined)
    (hlookup : definitions.lookup name = some definition) (hname : name ∈ expanding) :
    logSymbol s definitions expanding name = ofStep (Step.ofBuild (Build.make .undefined)) := by
  rw [logSymbol]
  split
  case h_1 => exact dif_pos hname
  case h_2 hnone => exact absurd hlookup (hnone definition hs)

theorem logSymbol_of_definition (hs : s.symbols = .replaceDefined)
    (hlookup : definitions.lookup name = some definition) (hname : name ∉ expanding) :
    logSymbol s definitions expanding name = (do
      enter (name :: expanding)
      logTerm s (logSymbol s definitions (name :: expanding)) definition) := by
  rw [logSymbol]
  split
  case h_1 definition' _ hlookup' =>
    obtain rfl := Option.some.inj (hlookup.symm.trans hlookup')
    exact dif_neg hname
  case h_2 hnone => exact absurd hlookup (hnone definition hs)

/-- The bound on how deep definitions nest is never reached: without it the same is found. -/
theorem step_logSymbol (h : IsExpanding definitions levels expanding) :
    (logSymbol s definitions expanding name).step =
      reduceSymbol s definitions levels expanding name := by
  induction levels using Nat.strong_induction_on generalizing expanding name with
  | _ levels ih =>
    by_cases hs : s.symbols = .replaceDefined
    · cases hlookup : definitions.lookup name with
      | none =>
        rw [reduceSymbol_of_undefined hlookup, logSymbol_of_kept fun _ => hlookup, step_pure]
      | some definition =>
        by_cases hmem : name ∈ expanding
        · rw [reduceSymbol_of_mem_expanding hs hlookup hmem,
            logSymbol_of_mem_expanding hs hlookup hmem, step_ofStep]
        · obtain ⟨lower, rfl, hlower⟩ := h.exists_level hlookup hmem
          have hinner : (fun other => (logSymbol s definitions (name :: expanding) other).step) =
              reduceSymbol s definitions lower (name :: expanding) :=
            funext fun other => ih lower (by omega) hlower
          rw [reduceSymbol_of_definition hs hlookup hmem, logSymbol_of_definition hs hlookup hmem,
            step_enter_bind, step_logTerm, hinner]
    · have hkept : s.symbols = .keepAll := by
        cases hsymbols : s.symbols with
        | replaceDefined => exact absurd hsymbols hs
        | keepAll => rfl
      rw [reduceSymbol_keepAll hkept, logSymbol_of_kept (absurd · hs), step_pure]

/-- Without its log, reducing a term is what it is with a bound on how deep definitions nest. -/
theorem step_logWith (s : Settings) (definitions : Definitions) (t : Term) :
    (logWith s definitions t).step = reduceWith s definitions t := by
  have hsymbol : (fun name => (logSymbol s definitions [] name).step) =
      reduceSymbol s definitions definitions.length [] :=
    funext fun _ => step_logSymbol (isExpanding_nil definitions)
  rw [logWith, step_logTerm, hsymbol, reduceWith]

/-! ### What is logged -/

/-- All nestings in the log have the property, whatever is remembered before. -/
def LogsOnly {α : Type} (P : Nesting → Prop) (run : Logged α) : Prop :=
  ∀ memory, ∀ nesting ∈ run.log memory, P nesting

section Logs

variable {α β : Type} {P : Nesting → Prop}

theorem logsOnly_pure (a : α) : LogsOnly P (pure a : Logged α) :=
  fun _ _ hmem => absurd hmem List.not_mem_nil

theorem logsOnly_ofStep (step : Step α) : LogsOnly P (ofStep step) :=
  fun _ _ hmem => absurd hmem List.not_mem_nil

theorem logsOnly_enter {nesting : Nesting} (h : P nesting) : LogsOnly P (enter nesting) :=
  fun _ _ hmem => List.mem_singleton.1 hmem ▸ h

theorem LogsOnly.bind {run : Logged α} {f : α → Logged β} (h : LogsOnly P run)
    (hf : ∀ a, LogsOnly P (f a)) : LogsOnly P (run >>= f) := by
  intro memory nesting hmem
  rcases List.mem_append.1 hmem with hfirst | hnext
  · exact h memory nesting hfirst
  · exact hf _ _ nesting hnext

theorem LogsOnly.remember {run : Logged Term} (h : LogsOnly P run) (t : Term) :
    LogsOnly P (Logged.remember t run) := by
  intro memory nesting hmem
  unfold Logged.remember Logged.log at hmem
  dsimp only at hmem
  split at hmem
  · cases hmem
  · exact h memory nesting hmem

mutual

/-- Reducing a term opens the definitions that reducing the symbols in it does. -/
theorem logsOnly_logTerm : ∀ {t : Term},
    (∀ name, t.Mentions name → LogsOnly P (symbol name)) → LogsOnly P (logTerm s symbol t)
  | .number _, _ | .decimal _, _ | .constant _, _ | .undefined, _ | .nonreal, _ => by
    simp only [logTerm]
    exact logsOnly_pure _
  | .symbol name, h => by
    rw [logTerm]
    exact (h name (by simp)).remember _
  | .sum terms, h | .product terms, h | .matrix _ _ terms, h => by
    have hterms : LogsOnly P (logTerms s symbol terms) :=
      logsOnly_logTerms fun t ht name hname => h name (by simpa using ⟨t, ht, hname⟩)
    rw [logTerm]
    exact (hterms.bind fun _ => logsOnly_ofStep _).remember _
  | .power a b, h | .quotient a b, h => by
    have ha := logsOnly_logTerm (t := a) fun name hname => h name (by simp [hname])
    have hb := logsOnly_logTerm (t := b) fun name hname => h name (by simp [hname])
    rw [logTerm]
    exact (ha.bind fun _ => hb.bind fun _ => logsOnly_ofStep _).remember _
  | .negation a, h | .apply _ a, h => by
    have ha := logsOnly_logTerm (t := a) fun name hname => h name (by simpa using hname)
    rw [logTerm]
    exact (ha.bind fun _ => logsOnly_ofStep _).remember _

theorem logsOnly_logTerms : ∀ {terms : List Term},
    (∀ t ∈ terms, ∀ name, t.Mentions name → LogsOnly P (symbol name)) →
      LogsOnly P (logTerms s symbol terms)
  | [], _ => by
    rw [logTerms]
    exact logsOnly_pure _
  | t :: ts, h => by
    obtain ⟨ht, hts⟩ := List.forall_mem_cons.1 h
    rw [logTerms]
    exact (logsOnly_logTerm ht).bind fun _ => (logsOnly_logTerms hts).bind fun _ => logsOnly_pure _

end

end Logs

/-- Definitions that are open at the same time: each is open once, and there are no more of them
    than there are definitions.  Each but the outermost is referred to by the one around it. -/
structure IsNested (definitions : Definitions) (nesting : Nesting) : Prop where
  nodup : nesting.Nodup
  length_le : nesting.length ≤ definitions.length
  refers : nesting.IsChain fun inner outer => RefersTo definitions outer inner

theorem logsOnly_logSymbol (h : IsExpanding definitions levels expanding)
    (hrefers : (name :: expanding).IsChain fun inner outer => RefersTo definitions outer inner) :
    LogsOnly (IsNested definitions) (logSymbol s definitions expanding name) := by
  induction levels using Nat.strong_induction_on generalizing expanding name with
  | _ levels ih =>
    by_cases hdefined : s.symbols = .replaceDefined ∧
        ∃ definition, definitions.lookup name = some definition
    · obtain ⟨hs, definition, hlookup⟩ := hdefined
      by_cases hmem : name ∈ expanding
      · rw [logSymbol_of_mem_expanding hs hlookup hmem]
        exact logsOnly_ofStep _
      · obtain ⟨lower, rfl, hlower⟩ := h.exists_level hlookup hmem
        have hlevels := hlower.levels_add
        have hnested : IsNested definitions (name :: expanding) :=
          ⟨hlower.nodup, by omega, hrefers⟩
        rw [logSymbol_of_definition hs hlookup hmem]
        refine (logsOnly_enter hnested).bind fun _ => logsOnly_logTerm fun other hother => ?_
        exact ih lower (by omega) hlower
          (List.isChain_cons_cons.2 ⟨⟨definition, hlookup, hother⟩, hrefers⟩)
    · have hkept (hs : s.symbols = .replaceDefined) : definitions.lookup name = none :=
        Option.eq_none_iff_forall_ne_some.2 fun definition hlookup =>
          hdefined ⟨hs, definition, hlookup⟩
      rw [logSymbol_of_kept hkept]
      exact logsOnly_pure _

theorem logsOnly_logWith (s : Settings) (definitions : Definitions) (t : Term) :
    LogsOnly (IsNested definitions) (logWith s definitions t) :=
  logsOnly_logTerm fun _ _ => logsOnly_logSymbol (isExpanding_nil definitions) (.singleton _)

end Steps

/-! ### Circular definitions -/

variable {s : Settings} {definitions : Definitions} {meaning : String → Term} {t : Term}
  {name other : String}

/-- Where no definition has matrices, a name that leads to one that means nothing means nothing. -/
theorem meaning_eq_undefined (hs : s.symbols = .replaceDefined)
    (hdefinitions : ∀ d ∈ definitions, d.2.containsMatrix = false)
    (hmeaning : ∀ name, IsMeaningAt s definitions meaning name)
    (hleads : Relation.ReflTransGen (RefersTo definitions) name other)
    (hother : meaning other = .undefined) : meaning name = .undefined := by
  induction hleads using Relation.ReflTransGen.head_induction_on with
  | refl => exact hother
  | @head name _ hrefers _ ih =>
    obtain ⟨definition, hlookup, hmentions⟩ := hrefers
    have hmatrix := hdefinitions _ (mem_of_lookup hlookup)
    rw [(hmeaning name).defined hs definition hlookup]
    exact reduceUnder_of_exposes (hmentions.exposes hmatrix) ih

/-- Without matrices, a term is undefined if it leads to a circular definition. -/
theorem reduce_eq_undefined (hs : s.symbols = .replaceDefined)
    (hdefinitions : ∀ d ∈ definitions, d.2.containsMatrix = false)
    (ht : t.containsMatrix = false) (hreaches : ReachesFrom definitions t name)
    (hcircular : IsCircular definitions name) :
    (reduce s definitions t).value = .undefined := by
  obtain ⟨meaning, hmeaning⟩ := exists_isMeaningAt s definitions
  have hmeaning (other : String) : IsMeaningAt s definitions meaning other :=
    hmeaning other fun _ => showsCircularity_of_containsMatrix fun definition hlookup =>
      hdefinitions _ (mem_of_lookup hlookup)
  obtain ⟨first, hmentions, hleads⟩ := hreaches
  have hname : meaning name = .undefined := (hmeaning name).circular hs hcircular
  rw [value_reduce fun other _ => hmeaning other]
  exact reduceUnder_of_exposes (hmentions.exposes ht)
    (meaning_eq_undefined hs hdefinitions hmeaning hleads hname)

/-- Replacing symbols never opens a definition within itself.  So definitions nest no deeper than
    there are definitions, and no bound on that is needed; a term without matrices, in definitions
    or itself, is undefined if it leads to a circular definition. -/
theorem reduce_opens_definitions_once (hs : s.symbols = .replaceDefined)
    (hdefinitions : ∀ d ∈ definitions, d.2.containsMatrix = false)
    (ht : t.containsMatrix = false) :
    (logWith s definitions t).step = reduceWith s definitions t ∧
      LogsOnly (IsNested definitions) (logWith s definitions t) ∧
      ∀ name, ReachesFrom definitions t name → IsCircular definitions name →
        (reduce s definitions t).value = .undefined :=
  ⟨step_logWith s definitions t, logsOnly_logWith s definitions t,
    fun _ => reduce_eq_undefined hs hdefinitions ht⟩

/-- With `a` defined as `b + 1` and `b` as `a`, zero times `a` is undefined. -/
theorem reduce_opens_definitions_once_pair :
    let definitions : Definitions := [("a", .sum [.symbol "b", .number 1]), ("b", .symbol "a")]
    let t : Term := .product [.number 0, .symbol "a"]
    LogsOnly (IsNested definitions) (logWith {} definitions t) ∧
      (reduce {} definitions t).value = .undefined := by
  intro definitions t
  have hdefinitions : ∀ d ∈ definitions, d.2.containsMatrix = false := by decide
  have hthere : RefersTo definitions "a" "b" :=
    ⟨.sum [.symbol "b", .number 1], rfl, by simp⟩
  have hback : RefersTo definitions "b" "a" := ⟨.symbol "a", rfl, by simp⟩
  have hcircular : IsCircular definitions "a" := (Relation.TransGen.single hthere).tail hback
  have hreaches : ReachesFrom definitions t "a" := ⟨"a", by simp [t], .refl⟩
  obtain ⟨-, hlog, hundefined⟩ :=
    reduce_opens_definitions_once (s := {}) rfl hdefinitions (t := t) (by decide)
  exact ⟨hlog, hundefined "a" hreaches hcircular⟩

end Reduction

end EquationSolver
