import EquationSolver.Context
import EquationSolver.Proofs.Pool.Power
import EquationSolver.Proofs.Pool.Interning

/-!
# Reduced terms are in the pool

A reducer remembers only terms that are known, so that the reduction of a known term is
grounded when the definitions of symbols are known, too.  In a context whose pool is sound,
the reduced form of a term of the pool is a term of the pool, which stays sound.
-/

namespace EquationSolver

open Build

namespace Reduction

variable {k k' : Known} {α β : Type}

/-- Every result that is remembered is known. -/
def Remembers (k : Known) (memory : Memory) : Prop :=
  ∀ t result : Term, memory[t]? = some result → result ∈ k

theorem Remembers.mono {memory : Memory} (h : Remembers k memory) (hle : k ≤ k') :
    Remembers k' memory :=
  fun t result ht => hle result (h t result ht)

theorem Remembers.insert {memory : Memory} (h : Remembers k memory) {result : Term}
    (hresult : result ∈ k) (t : Term) : Remembers k (memory.insert t result) := by
  intro u r hu
  rw [Std.HashMap.getElem?_insert] at hu
  split at hu
  · cases hu
    exact hresult
  · exact h u r hu

theorem remembers_empty (k : Known) : Remembers k {} := by
  intro t result ht
  simp at ht

/-- Whatever else is known, a step is grounded and remembers known terms only. -/
def GroundsStep (k : Known) (step : Step α) (post : Known → α → Prop) : Prop :=
  ∀ k' memory, k ≤ k' → Remembers k' memory →
    (step memory).IsGrounded k' fun k'' found => post k'' found.1 ∧ Remembers k'' found.2

abbrev GroundsTerm (k : Known) (step : Step Term) : Prop :=
  GroundsStep k step fun k' t => t ∈ k'

abbrev GroundsTerms (k : Known) (step : Step (List Term)) : Prop :=
  GroundsStep k step fun k' ts => ∀ t ∈ ts, t ∈ k'

theorem groundsStep_pure {a : α} {post : Known → α → Prop}
    (h : ∀ k', k ≤ k' → post k' a) : GroundsStep k (pure a) post :=
  fun k' _ hle hmemory => isGrounded_pure ⟨h k' hle, hmemory⟩

theorem GroundsStep.bind {step : Step α} {f : α → Step β} {P : Known → α → Prop}
    {Q : Known → β → Prop} (h : GroundsStep k step P)
    (hf : ∀ k' a, k ≤ k' → P k' a → GroundsStep k' (f a) Q) : GroundsStep k (step >>= f) Q := by
  intro k' memory hle hmemory
  have hbind := (h k' memory hle hmemory).bind (f := fun found => f found.1 found.2)
    fun k'' hle' hfound =>
      hf k'' _ (Known.le_trans hle hle') hfound.1 k'' _ (Known.le_refl k'') hfound.2
  exact hbind

theorem groundsStep_ofBuild {b : Build α} {post : Known → α → Prop}
    (h : ∀ k', k ≤ k' → b.IsGrounded k' post) : GroundsStep k (Step.ofBuild b) post := by
  intro k' memory hle hmemory
  refine (h k' hle).bind fun k'' hle' hvalue => isGrounded_pure ?_
  exact ⟨hvalue, hmemory.mono hle'⟩

theorem GroundsStep.remember {step : Step Term} (h : GroundsTerm k step) (t : Term) :
    GroundsTerm k (Step.remember t step) := by
  intro k' memory hle hmemory
  unfold Step.remember
  split
  case h_1 result hresult => exact isGrounded_pure ⟨hmemory t result hresult, hmemory⟩
  case h_2 =>
    refine (h k' memory hle hmemory).bind fun k'' _ hfound => isGrounded_pure ?_
    exact ⟨hfound.1, hfound.2.insert hfound.1 t⟩

variable {s : Settings} {symbol : String → Step Term}

mutual

theorem groundsTerm_reduceTerm (hsymbol : ∀ k' name, k ≤ k' → .symbol name ∈ k' →
    GroundsTerm k' (symbol name)) : ∀ (t : Term) (k' : Known), k ≤ k' → t ∈ k' →
      GroundsTerm k' (reduceTerm s symbol t)
  | .number _, k', _, h | .decimal _, k', _, h | .constant _, k', _, h | .undefined, k', _, h
  | .nonreal, k', _, h => by
    rw [reduceTerm]
    exact groundsStep_pure fun _ hle => hle _ h
  | .symbol name, k', hle, h => by
    rw [reduceTerm]
    exact (hsymbol k' name hle h).remember _
  | .sum terms, k', hle, h => by
    rw [reduceTerm]
    refine GroundsStep.remember ?_ _
    refine (groundsTerms_reduceTerms hsymbol terms k' hle fun u hu => k'.child_mem h hu).bind
      fun k₁ terms' _ hterms => groundsStep_ofBuild fun k₂ hle₂ => grounds_add ?_
    intro t ht
    exact hle₂ t (hterms t ht)
  | .product factors, k', hle, h => by
    rw [reduceTerm]
    refine GroundsStep.remember ?_ _
    refine (groundsTerms_reduceTerms hsymbol factors k' hle fun u hu => k'.child_mem h hu).bind
      fun k₁ factors' _ hfactors => groundsStep_ofBuild fun k₂ hle₂ =>
        groundsProducts_mul s k₂ _ ?_
    intro t ht
    exact hle₂ t (hfactors t ht)
  | .power base exponent, k', hle, h => by
    have hbase : base ∈ k' := k'.child_mem h (by simp [Term.children])
    have hexponent : exponent ∈ k' := k'.child_mem h (by simp [Term.children])
    rw [reduceTerm]
    refine GroundsStep.remember ?_ _
    refine (groundsTerm_reduceTerm hsymbol base k' hle hbase).bind fun k₁ base' hle₁ hbase' => ?_
    refine (groundsTerm_reduceTerm hsymbol exponent k₁ (Known.le_trans hle hle₁)
      (hle₁ _ hexponent)).bind fun k₂ exponent' hle₂ hexponent' => ?_
    exact groundsStep_ofBuild fun k₃ hle₃ => groundsPowers_pow s k₃ _ _
      (hle₃ _ (hle₂ _ hbase')) (hle₃ _ hexponent')
  | .negation a, k', hle, h => by
    have ha : a ∈ k' := k'.child_mem h (by simp [Term.children])
    rw [reduceTerm]
    refine GroundsStep.remember ?_ _
    refine (groundsTerm_reduceTerm hsymbol a k' hle ha).bind fun k₁ a' _ ha' => ?_
    exact groundsStep_ofBuild fun k₂ hle₂ => grounds_opposite s (hle₂ _ ha')
  | .quotient a b, k', hle, h => by
    have ha : a ∈ k' := k'.child_mem h (by simp [Term.children])
    have hb : b ∈ k' := k'.child_mem h (by simp [Term.children])
    rw [reduceTerm]
    refine GroundsStep.remember ?_ _
    refine (groundsTerm_reduceTerm hsymbol a k' hle ha).bind fun k₁ a' hle₁ ha' => ?_
    refine (groundsTerm_reduceTerm hsymbol b k₁ (Known.le_trans hle hle₁) (hle₁ _ hb)).bind
      fun k₂ b' hle₂ hb' => groundsStep_ofBuild fun k₃ hle₃ => ?_
    refine (grounds_number (-1)).bind fun k₄ hle₄ hminusOne => ?_
    refine (groundsPowers_pow s k₄ _ _ (hle₄ _ (hle₃ _ hb')) hminusOne).bind
      fun k₅ hle₅ hinverse => groundsProducts_mul s k₅ _ ?_
    simpa using And.intro (hle₅ _ (hle₄ _ (hle₃ _ (hle₂ _ ha')))) hinverse
  | .apply f a, k', hle, h => by
    have ha : a ∈ k' := k'.child_mem h (by simp [Term.children])
    rw [reduceTerm]
    refine GroundsStep.remember ?_ _
    refine (groundsTerm_reduceTerm hsymbol a k' hle ha).bind fun k₁ a' _ ha' => ?_
    exact groundsStep_ofBuild fun k₂ hle₂ => grounds_apply s f (hle₂ _ ha')
  | .matrix rows columns entries, k', hle, h => by
    rw [reduceTerm]
    refine GroundsStep.remember ?_ _
    refine (groundsTerms_reduceTerms hsymbol entries k' hle fun u hu => k'.child_mem h hu).bind
      fun k₁ entries' _ hentries => groundsStep_ofBuild fun k₂ hle₂ => grounds_make ?_
    intro t ht
    exact hle₂ t (hentries t ht)

theorem groundsTerms_reduceTerms (hsymbol : ∀ k' name, k ≤ k' → .symbol name ∈ k' →
    GroundsTerm k' (symbol name)) : ∀ (terms : List Term) (k' : Known), k ≤ k' →
      (∀ t ∈ terms, t ∈ k') → GroundsTerms k' (reduceTerms s symbol terms)
  | [], k', _, _ => by
    rw [reduceTerms]
    exact groundsStep_pure (by simp)
  | t :: ts, k', hle, h => by
    obtain ⟨ht, hts⟩ := List.forall_mem_cons.1 h
    rw [reduceTerms]
    refine (groundsTerm_reduceTerm hsymbol t k' hle ht).bind fun k₁ t' hle₁ ht' => ?_
    refine (groundsTerms_reduceTerms hsymbol ts k₁ (Known.le_trans hle hle₁)
      fun u hu => hle₁ u (hts u hu)).bind fun k₂ ts' hle₂ hts' => ?_
    exact groundsStep_pure fun k₃ hle₃ => List.forall_mem_cons.2
      ⟨hle₃ _ (hle₂ _ ht'), fun u hu => hle₃ _ (hts' u hu)⟩

end

/-- The reduced form of a definition is built from the definition. -/
theorem groundsTerm_reduceSymbol {definitions : Definitions} (hdefinitions : ∀ d ∈ definitions,
    d.2 ∈ k) (levels : Nat) (expanding : List String) (k' : Known) (name : String) (hle : k ≤ k')
    (h : .symbol name ∈ k') : GroundsTerm k' (reduceSymbol s definitions levels expanding name) := by
  have hundefined : GroundsTerm k' (Step.ofBuild (make .undefined)) :=
    groundsStep_ofBuild fun _ _ => grounds_make (by simp [Term.children])
  induction levels generalizing expanding k' name with
  | zero =>
    unfold reduceSymbol
    split
    · split <;> exact hundefined
    · exact groundsStep_pure fun _ hle => hle _ h
  | succ levels ih =>
    unfold reduceSymbol
    split
    case h_1 definition _ hlookup =>
      split
      · exact hundefined
      · have hmem : (name, definition) ∈ definitions := by
          obtain ⟨before, after, rfl, -⟩ := List.lookup_eq_some_iff.1 hlookup
          simp
        refine groundsTerm_reduceTerm (k := k) (fun k'' name' hle' h' => ?_) definition k' hle
          (hle _ (hdefinitions _ hmem))
        exact ih _ k'' name' hle' h' (groundsStep_ofBuild fun _ _ =>
          grounds_make (by simp [Term.children]))
    case h_2 => exact groundsStep_pure fun _ hle => hle _ h

/-- The reduced form of a known term is built from known terms, if definitions are known. -/
theorem grounds_reduce (s : Settings) {definitions : Definitions}
    (hdefinitions : ∀ d ∈ definitions, d.2 ∈ k) {t : Term} (h : t ∈ k) :
    (reduce s definitions t).Grounds k := by
  have hstep : GroundsTerm k (reduceWith s definitions t) :=
    groundsTerm_reduceTerm (fun k' name hle hname =>
      groundsTerm_reduceSymbol hdefinitions _ _ k' name hle hname) t k (Known.le_refl k) h
  exact (hstep k {} (Known.le_refl k) (remembers_empty k)).bind
    fun k' _ hfound => isGrounded_pure hfound.1

end Reduction

namespace Context

/-- The terms that define symbols are terms of the pool. -/
theorem mem_of_mem_definedTerms {context : Context} {d : String × Term}
    (h : d ∈ context.definedTerms) : d.2 ∈ context.pool.terms := by
  obtain ⟨definition, -, hd⟩ := List.mem_filterMap.1 h
  obtain ⟨t, ht, rfl⟩ := Option.map_eq_some_iff.1 hd
  exact Array.mem_iff_getElem?.2 ⟨_, ht⟩

/-- Reduced terms come into the pool, which stays sound and keeps what it has. -/
theorem isSound_reduce {context : Context} (h : context.pool.IsSound) (s : Reduction.Settings)
    {t : Term} (ht : t ∈ context.pool.terms) :
    (context.reduce s t).2.pool.IsSound ∧
      (∀ u ∈ context.pool.terms, u ∈ (context.reduce s t).2.pool.terms) ∧
      (context.reduce s t).1 ∈ (context.reduce s t).2.pool.terms := by
  have hgrounds : (Reduction.reduce s context.definedTerms t).Grounds h.known :=
    Reduction.grounds_reduce s (fun d hd => mem_of_mem_definedTerms hd) ht
  obtain ⟨h', hle, hvalue⟩ := h.record hgrounds
  exact ⟨h', hle, hvalue⟩

end Context

end EquationSolver
