import EquationSolver.Proofs.Reduction.Substitution

/-!
# Using a reducer again

A reducer that has reduced other terms before finds for each further term what a new one would find.
The terms in which it has met a circular name while that was being expanded could be an exception:
they are remembered as what they are reduced to there.  But a name whose definition leads back to it
is undefined in the end, too, and an undefined operand decides the result of everything except a
matrix.  So the one thing that is asked for is that no circular definition hides all that makes it
circular in matrices.
-/

namespace EquationSolver

namespace Reduction

variable {s : Settings} {ts : List Term} {a b t : Term} {name other : String}
  {definitions : Definitions} {meaning : String → Term}

/-! ### Undefined operands -/

theorem poison?_of_undefined (h : .undefined ∈ ts) : poison? ts = some .undefined :=
  if_pos (List.any_eq_true.2 ⟨.undefined, h, rfl⟩)

theorem add_of_undefined (h : .undefined ∈ ts) : (add ts).value = .undefined := by
  have hflat : .undefined ∈ ts.flatMap summands :=
    List.mem_flatMap.2 ⟨.undefined, h, by simp [summands]⟩
  unfold add
  simp only [poison?_of_undefined hflat]
  rfl

theorem mul_of_undefined (h : .undefined ∈ ts) : (mul s ts).value = .undefined := by
  have hflat : .undefined ∈ (absorb .one ts).2 := by
    rw [absorb, flatFactorsOfAll_eq_flatMap]
    refine List.mem_filter.2 ⟨List.mem_flatMap.2 ⟨.undefined, h, ?_⟩, rfl⟩
    simp [flatFactors]
  rw [mul, maxDepth_eq, mulWithin, mulWith]
  simp only [poison?_of_undefined hflat]
  rfl

theorem pow_of_undefined (h : .undefined ∈ [a, b]) : (pow s a b).value = .undefined := by
  rw [pow, maxDepth_eq, powWithin]
  unfold powWith
  simp only [poison?_of_undefined h]
  rfl

theorem apply_undefined (f : Function) : (apply s f .undefined).value = .undefined := rfl

end Reduction

/-! ### Names outside of matrices -/

/-- The name occurs in the term outside of matrices. -/
inductive Term.Exposes : Term → String → Prop
  | symbol (name : String) : Exposes (.symbol name) name
  | part {t u : Term} {name : String}
      (ht : ∀ rows columns entries, t ≠ .matrix rows columns entries)
      (hu : u ∈ t.children) (h : Exposes u name) : Exposes t name

namespace Term

variable {t : Term} {name : String}

/-- A term without matrices exposes every name in it. -/
theorem Mentions.exposes (h : t.Mentions name) (hmatrix : t.containsMatrix = false) :
    t.Exposes name := by
  induction hsize : sizeOf t using Nat.strong_induction_on generalizing t with
  | _ size ih =>
    by_cases ht : t = .symbol name
    · exact ht ▸ .symbol name
    · obtain ⟨u, hu, hname⟩ := h.exists_child ht
      refine .part ?_ hu (ih _ (hsize ▸ sizeOf_lt_of_mem_children hu) hname
        (contains_eq_false_of_mem_children hmatrix hu) rfl)
      rintro rows columns entries rfl
      simp [containsMatrix, contains] at hmatrix

end Term

namespace Reduction

/-- A term is undefined if it exposes a name that means nothing. -/
theorem reduceUnder_of_exposes (h : t.Exposes name) (hname : meaning name = .undefined) :
    reduceUnder s meaning t = .undefined := by
  induction h with
  | symbol name => rw [reduceUnder_symbol, hname]
  | @part t u name ht hu _ ih =>
    have hmem {us : List Term} (hu : u ∈ us) : .undefined ∈ reduceAllUnder s meaning us := by
      rw [reduceAllUnder_eq_map]
      exact List.mem_map.2 ⟨u, hu, ih hname⟩
    cases t with
    | number | decimal | constant | symbol | undefined | nonreal => exact absurd hu List.not_mem_nil
    | sum terms =>
      rw [reduceUnder]
      exact add_of_undefined (hmem hu)
    | product factors =>
      rw [reduceUnder]
      exact mul_of_undefined (hmem hu)
    | power a b =>
      rw [reduceUnder]
      apply pow_of_undefined
      rcases List.mem_pair.1 hu with rfl | rfl <;> simp [ih hname]
    | negation a =>
      obtain rfl := List.mem_singleton.1 hu
      rw [reduceUnder, ih hname]
      exact mul_of_undefined (by simp)
    | quotient a b =>
      rw [reduceUnder]
      apply mul_of_undefined
      rcases List.mem_pair.1 hu with rfl | rfl
      · simp [ih hname]
      · rw [ih hname, pow_of_undefined List.mem_cons_self]
        simp
    | apply f a =>
      obtain rfl := List.mem_singleton.1 hu
      rw [reduceUnder, ih hname, apply_undefined]
    | matrix rows columns entries => exact absurd rfl (ht rows columns entries)

/-! ### Circular names -/

/-- If the name is circular, its definition exposes a circular name. -/
def ShowsCircularity (definitions : Definitions) (name : String) : Prop :=
  IsCircular definitions name → ∀ definition, definitions.lookup name = some definition →
    ∃ other, definition.Exposes other ∧ IsCircular definitions other

/-- There are meanings for all names that show their circularity. -/
theorem exists_isMeaningAt (s : Settings) (definitions : Definitions) :
    ∃ meaning : String → Term, ∀ name,
      (s.symbols = .replaceDefined → ShowsCircularity definitions name) →
        IsMeaningAt s definitions meaning name := by
  cases hs : s.symbols with
  | keepAll => exact ⟨.symbol, fun name _ => isMeaningAt_symbol hs definitions name⟩
  | replaceDefined =>
    obtain ⟨meaning, hcircular, hundefined, hdefined⟩ := exists_meaning (reduceUnder s)
      (fun _ _ _ => reduceUnder_congr) definitions .symbol .undefined
    refine ⟨meaning, fun name hshows => ⟨fun hkept => hundefined name (hkept hs), ?_,
      fun _ => hcircular name⟩⟩
    intro _ definition hlookup
    by_cases hname : IsCircular definitions name
    · obtain ⟨other, hexposes, hother⟩ := hshows rfl hname definition hlookup
      rw [hcircular name hname, reduceUnder_of_exposes hexposes (hcircular other hother)]
    · exact hdefined name definition hname hlookup

/-- A circular name leads to a circular name at once: the next one on the way back to it. -/
theorem IsCircular.exists_refersTo (h : IsCircular definitions name) :
    ∃ other, RefersTo definitions name other ∧ IsCircular definitions other := by
  obtain ⟨other, hrefers, hback⟩ := Relation.TransGen.head'_iff.1 h
  exact ⟨other, hrefers, Relation.TransGen.tail' hback hrefers⟩

/-- Definitions without matrices hide nothing. -/
theorem showsCircularity_of_containsMatrix
    (h : ∀ definition, definitions.lookup name = some definition →
      definition.containsMatrix = false) : ShowsCircularity definitions name := by
  intro hcircular definition hlookup
  obtain ⟨other, ⟨definition', hlookup', hmentions⟩, hother⟩ := hcircular.exists_refersTo
  obtain rfl := Option.some.inj (hlookup.symm.trans hlookup')
  exact ⟨other, hmentions.exposes (h definition hlookup), hother⟩

end Reduction

/-! ### Reducers -/

/-- A context, and what has been reduced in it so far. -/
structure Reducer where
  context : Context
  memory : Reduction.Memory := {}

namespace Reducer

/-- Reduce the term at a handle, and remember what has been reduced on the way. -/
def reduceHandle (reducer : Reducer) (s : Reduction.Settings) (handle : Handle) :
    Except Fault (Handle × Reducer) := do
  let t ← reducer.context.pool.get handle
  let ((result, memory), context) := reducer.context.record
    (Reduction.reduceWith s reducer.context.definedTerms t reducer.memory)
  pure (context.pool.handleOf result, ⟨context, memory⟩)

/-- Reduce the terms at handles, one after the other. -/
def reduceHandles (reducer : Reducer) (s : Reduction.Settings) :
    List Handle → Except Fault (List Handle × Reducer)
  | [] => pure ([], reducer)
  | handle :: rest => do
    let (result, reducer) ← reducer.reduceHandle s handle
    let (results, reducer) ← reducer.reduceHandles s rest
    pure (result :: results, reducer)

/-- The pool is in order, and what is remembered is in it. -/
structure IsSound (reducer : Reducer) : Prop where
  pool : reducer.context.pool.IsWellFormed
  memory : Reduction.Remembers pool.sound.known reducer.memory

variable {reducer after : Reducer} {s : Reduction.Settings} {handle : Handle} {t : Term}
  {meaning : String → Term}

theorem isSound_new {context : Context} (h : context.pool.IsWellFormed) :
    IsSound ⟨context, {}⟩ :=
  ⟨h, Reduction.remembers_empty _⟩

/-- A new reducer returns what the context returns. -/
theorem reduceHandle_new (context : Context) (s : Reduction.Settings) (handle : Handle) :
    (reduceHandle ⟨context, {}⟩ s handle).map (fun found => (found.1, found.2.context)) =
      context.reduceHandle s handle := by
  unfold reduceHandle Context.reduceHandle
  cases context.pool.get handle with
  | error e => rfl
  | ok t =>
    simp only [Context.reduce, Context.record, Pool.record, Reduction.reduce, Build.value_bind,
      Build.value_pure, Build.trace_bind, Build.trace_pure, List.append_nil]
    rfl

/-- The term at a handle is reduced to a handle of what is found for it, while the pool grows. -/
theorem exists_reduceHandle (h : reducer.IsSound) (s : Reduction.Settings)
    (ht : reducer.context.pool.get? handle = some t) : ∃ result after,
      reducer.reduceHandle s handle = .ok (result, after) ∧ after.IsSound ∧
        reducer.context.Grows after.context ∧
        ∃ u, after.context.pool.get? result = some u ∧ (u, after.memory) =
          (Reduction.reduceWith s reducer.context.definedTerms t reducer.memory).value := by
  have hget : reducer.context.pool.get handle = .ok t := Pool.get_eq_ok_iff.2 ht
  have hgrounds : Reduction.GroundsTerm h.pool.sound.known
      (Reduction.reduceWith s reducer.context.definedTerms t) :=
    Reduction.groundsTerm_reduceTerm (fun k' name hle hname =>
      Reduction.groundsTerm_reduceSymbol (fun d hd => Context.mem_of_mem_definedTerms hd) _ _ k'
        name hle hname) t _ (Known.le_refl _) (Context.mem_terms.1 (Context.mem_terms_of_get hget))
  have hstep := hgrounds _ reducer.memory (Known.le_refl _) h.memory
  obtain ⟨_, -, hfound⟩ := h.pool.sound.record hstep
  have hpool := h.pool.record hstep
  have hgrows : reducer.context.Grows (reducer.context.record
      (Reduction.reduceWith s reducer.context.definedTerms t reducer.memory)).2 :=
    ⟨hpool, reducer.context.extends_record _, rfl⟩
  refine ⟨_, ⟨_, _⟩, ?_, ⟨hpool, hfound.2⟩, hgrows, _, hpool.sound.get?_handleOf hfound.1, rfl⟩
  unfold reduceHandle
  rw [hget]
  rfl

/-- What the first of the handles is reduced to, and what is done with the others. -/
theorem of_reduceHandles_cons {handles results : List Handle}
    (h : reducer.reduceHandles s (handle :: handles) = .ok (results, after)) :
    ∃ result rest next, results = result :: rest ∧
      reducer.reduceHandle s handle = .ok (result, next) ∧
      next.reduceHandles s handles = .ok (rest, after) := by
  unfold reduceHandles at h
  obtain ⟨⟨result, next⟩, hfirst, h⟩ := exists_of_bind_eq_ok h
  obtain ⟨⟨rest, last⟩, hrest, h⟩ := exists_of_bind_eq_ok h
  cases h
  exact ⟨result, rest, next, rfl, hfirst, hrest⟩

theorem exists_get?_of_reduceHandle {result : Handle}
    (h : reducer.reduceHandle s handle = .ok (result, after)) :
    ∃ t, reducer.context.pool.get? handle = some t := by
  unfold reduceHandle at h
  obtain ⟨t, ht, -⟩ := exists_of_bind_eq_ok h
  exact ⟨t, Pool.get_eq_ok_iff.1 ht⟩

/-- Handles that are in use are reduced. -/
theorem exists_reduceHandles (s : Reduction.Settings) {handles : List Handle} (h : reducer.IsSound)
    (hlive : ∀ handle ∈ handles, ∃ t, reducer.context.pool.get? handle = some t) :
    ∃ results after, reducer.reduceHandles s handles = .ok (results, after) := by
  induction handles generalizing reducer with
  | nil => exact ⟨[], reducer, rfl⟩
  | cons handle handles ih =>
    obtain ⟨⟨t, ht⟩, hrest⟩ := List.forall_mem_cons.1 hlive
    obtain ⟨result, next, hfirst, hnext, hgrows, -⟩ := exists_reduceHandle h s ht
    obtain ⟨results, after, hresults⟩ := ih hnext fun other hother =>
      (hrest other hother).imp fun u => hgrows.pool other u
    refine ⟨result :: results, after, ?_⟩
    rw [reduceHandles, hfirst]
    show (next.reduceHandles s handles >>= _) = _
    rw [hresults]
    rfl

/-- However many terms are reduced, the pool grows. -/
theorem grows_reduceHandles {handles results : List Handle} (h : reducer.IsSound)
    (hrun : reducer.reduceHandles s handles = .ok (results, after)) :
    reducer.context.Grows after.context := by
  induction handles generalizing reducer results with
  | nil =>
    cases hrun
    exact .refl h.pool
  | cons handle handles ih =>
    obtain ⟨result, rest, next, -, hfirst, hrest⟩ := of_reduceHandles_cons hrun
    obtain ⟨t, ht⟩ := exists_get?_of_reduceHandle hfirst
    obtain ⟨_, _, hfirst', hnext, hgrows, -⟩ := exists_reduceHandle h s ht
    cases hfirst.symm.trans hfirst'
    exact hgrows.trans (ih hnext hrest)

/-- A reducer that remembers nothing wrong finds the reduced form of each of the terms under the
    meanings of the names in it, and goes on remembering nothing wrong. -/
theorem reduceHandles_finds {handles results : List Handle} (h : reducer.IsSound)
    (hdefines : reducer.context.DefinesTerms)
    (hfaithful : Reduction.IsFaithful s meaning reducer.memory)
    (hrun : reducer.reduceHandles s handles = .ok (results, after))
    (hmeaning : ∀ handle ∈ handles, ∀ t, after.context.pool.get? handle = some t →
      ∀ name, Reduction.ReachesFrom reducer.context.definedTerms t name →
        Reduction.IsMeaningAt s reducer.context.definedTerms meaning name) :
    List.Forall₂ (fun handle result => ∃ t, after.context.pool.get? handle = some t ∧
      after.context.pool.get? result = some (Reduction.reduceUnder s meaning t))
        handles results := by
  induction handles generalizing reducer results with
  | nil =>
    cases hrun
    exact .nil
  | cons handle handles ih =>
    obtain ⟨result, rest, next, rfl, hfirst, hrest⟩ := of_reduceHandles_cons hrun
    obtain ⟨t, ht⟩ := exists_get?_of_reduceHandle hfirst
    obtain ⟨_, _, hfirst', hnext, hgrows, u, hu, hfound⟩ := exists_reduceHandle h s ht
    cases hfirst.symm.trans hfirst'
    have hlater := grows_reduceHandles hnext hrest
    obtain ⟨hfirstMeaning, hrestMeaning⟩ := List.forall_mem_cons.1 hmeaning
    obtain ⟨hvalue, hmemory⟩ := Reduction.finds_reduceWith
      (hfirstMeaning t (hlater.pool handle t (hgrows.pool handle t ht))) reducer.memory hfaithful
    rw [← hfound] at hvalue hmemory
    have hdefinitions := hdefines.of_extends hgrows.pool hgrows.definitions
    refine .cons ⟨t, hlater.pool handle t (hgrows.pool handle t ht), ?_⟩ ?_
    · rw [hlater.pool result u hu, ← hvalue]
    · refine ih hnext hdefinitions.1 hmemory hrest ?_
      rwa [hdefinitions.2]

end Reducer

/-- A reducer that has reduced other terms returns for each further term the handle that a new one
    returns, unless a circular definition to which the terms lead hides all that makes it circular
    in matrices. -/
theorem Reducer.reduceHandles_transparent {context : Context} (h : context.pool.IsWellFormed)
    (hdefines : context.DefinesTerms) (s : Reduction.Settings) (handles : List Handle) :
    ((∀ handle ∈ handles, ∃ t, context.pool.tree? handle = some t) →
      ∃ results after, Reducer.reduceHandles ⟨context, {}⟩ s handles = .ok (results, after)) ∧
    ∀ results after, Reducer.reduceHandles ⟨context, {}⟩ s handles = .ok (results, after) →
      (s.symbols = .replaceDefined → ∀ handle ∈ handles, ∀ t,
        after.context.pool.tree? handle = some t →
          ∀ name, Reduction.ReachesFrom context.definedTerms t name →
            Reduction.ShowsCircularity context.definedTerms name) →
      List.Forall₂ (fun handle result => ∃ again,
        after.context.reduceHandle s handle = .ok (result, again)) handles results := by
  have hsound := isSound_new h
  constructor
  · intro hlive
    refine exists_reduceHandles s hsound fun handle hhandle => ?_
    obtain ⟨t, ht⟩ := hlive handle hhandle
    exact ⟨t, (h.tree?_eq_get? handle).symm.trans ht⟩
  · intro results after hrun hshows
    have hgrows := grows_reduceHandles hsound hrun
    obtain ⟨-, hdefinitions⟩ := hdefines.of_extends hgrows.pool hgrows.definitions
    obtain ⟨meaning, hmeaning⟩ := Reduction.exists_isMeaningAt s context.definedTerms
    have hreached : ∀ handle ∈ handles, ∀ t, after.context.pool.get? handle = some t →
        ∀ name, Reduction.ReachesFrom context.definedTerms t name →
          Reduction.IsMeaningAt s context.definedTerms meaning name := by
      intro handle hhandle t ht name hname
      rw [← hgrows.isWellFormed.tree?_eq_get?] at ht
      exact hmeaning name fun hs => hshows hs handle hhandle t ht name hname
    have hfinds := reduceHandles_finds hsound hdefines (Reduction.isFaithful_empty s meaning) hrun
      hreached
    rw [List.forall₂_iff_get] at hfinds ⊢
    refine ⟨hfinds.1, fun i hi hi' => ?_⟩
    obtain ⟨t, ht, hresult⟩ := hfinds.2 i hi hi'
    rw [← Reduction.value_reduce (hreached _ (List.get_mem _ _) t ht), ← hdefinitions] at hresult
    exact Context.exists_reduceHandle_eq hgrows.isWellFormed ht hresult

/-- With `a` defined as `b + 1` and `b` as `a`, a reducer returns for `b` after `a`, and for `a`
    once more, what a new one returns. -/
theorem Reducer.reduceHandles_transparent_circular :
    let ts : List Term := [.symbol "b", .number 1, .sum [.symbol "b", .number 1], .symbol "a"]
    let context := Context.ofTerms ts [("a", .sum [.symbol "b", .number 1]), ("b", .symbol "a")]
    let handles := [.symbol "a", .symbol "b", .symbol "a"].map context.pool.handleOf
    ∃ results after, Reducer.reduceHandles ⟨context, {}⟩ {} handles = .ok (results, after) ∧
      List.Forall₂ (fun handle result => ∃ again,
        after.context.reduceHandle {} handle = .ok (result, again)) handles results := by
  intro ts context handles
  have hparts : ∀ (i : Nat) (hi : i < ts.length), ∀ u ∈ ts[i].children, u ∈ ts.take i := by decide
  have hpool : context.pool.IsWellFormed := Pool.isWellFormed_internAll hparts
  have hdefinitions : ∀ d ∈ ([("a", .sum [.symbol "b", .number 1]), ("b", .symbol "a")] :
      List (String × Term)), d.2 ∈ ts := by decide
  obtain ⟨hdefines, hterms⟩ := Context.definesTerms_ofTerms ts hparts hdefinitions
  obtain ⟨hruns, htransparent⟩ := Reducer.reduceHandles_transparent hpool hdefines {} handles
  obtain ⟨results, after, hrun⟩ := hruns <| List.forall_mem_map.2 fun t ht => by
    refine ⟨t, (hpool.tree?_eq_get? _).trans (Pool.get?_handleOf_internAll hparts ?_)⟩
    revert t
    decide
  refine ⟨results, after, hrun, htransparent results after hrun ?_⟩
  intro _ handle _ t _ name _
  refine Reduction.showsCircularity_of_containsMatrix fun definition hlookup => ?_
  rw [hterms] at hlookup
  obtain ⟨before, rest, heq, -⟩ := List.lookup_eq_some_iff.1 hlookup
  have hmem : (name, definition) ∈
      [("a", Term.sum [.symbol "b", .number 1]), ("b", .symbol "a")] := by simp [heq]
  rcases List.mem_pair.1 hmem with hmem | hmem <;> cases hmem <;> rfl

/-- Matrices can hide it: with `a` defined as the matrix of `b` and `b` as the matrix of `a`, what
    is found for `b` after `a` is not what is found for `b` at first. -/
theorem Reduction.remembers_hidden_circularity :
    let definitions : Definitions :=
      [("a", .matrix 1 1 [.symbol "b"]), ("b", .matrix 1 1 [.symbol "a"])]
    let memory := (reduceWith {} definitions (.symbol "a") {}).value.2
    (reduceWith {} definitions (.symbol "b") memory).value.1 = .matrix 1 1 [.undefined] ∧
      (reduce {} definitions (.symbol "b")).value = .matrix 1 1 [.matrix 1 1 [.undefined]] := by
  simp [reduce, reduceWith, reduceTerm, reduceTerms, reduceSymbol, List.lookup, Step.remember,
    Build.make, Std.HashMap.getElem_insert]

end EquationSolver
