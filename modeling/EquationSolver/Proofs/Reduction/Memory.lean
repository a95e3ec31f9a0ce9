import EquationSolver.Reduction.Reduce
import Mathlib.Data.List.Basic

/-!
# Reduction without a memory

Where every symbol stands for itself, what a reducer remembers has no influence on its
results, and the terms that it builds are those that a reduction without a memory builds;
only repetitions are left out.
-/

namespace EquationSolver

namespace Reduction

open Step

mutual

/-- Reduce a term without a memory, every symbol standing for itself. -/
def reduceKept (s : Settings) : Term → Build Term
  | .sum terms => do
    let terms ← reduceKeptAll s terms
    add terms
  | .product factors => do
    let factors ← reduceKeptAll s factors
    mul s factors
  | .power base exponent => do
    let base ← reduceKept s base
    let exponent ← reduceKept s exponent
    pow s base exponent
  | .negation a => do
    let a ← reduceKept s a
    let minusOne ← Build.number (-1)
    mul s [minusOne, a]
  | .quotient a b => do
    let a ← reduceKept s a
    let b ← reduceKept s b
    let minusOne ← Build.number (-1)
    let inverse ← pow s b minusOne
    mul s [a, inverse]
  | .apply f a => do
    let a ← reduceKept s a
    apply s f a
  | .matrix rows columns entries => do
    let entries ← reduceKeptAll s entries
    Build.make (.matrix rows columns entries)
  | t => pure t

def reduceKeptAll (s : Settings) : List Term → Build (List Term)
  | [] => pure []
  | t :: ts => do
    let t ← reduceKept s t
    let ts ← reduceKeptAll s ts
    pure (t :: ts)

end

variable {s : Settings} {α β : Type}

@[simp] theorem reduceKept_number (a : Rat) : reduceKept s (.number a) = pure (.number a) := by
  simp [reduceKept]

@[simp] theorem reduceKept_constant (c : Constant) :
    reduceKept s (.constant c) = pure (.constant c) := by
  simp [reduceKept]

@[simp] theorem reduceKept_symbol (name : String) :
    reduceKept s (.symbol name) = pure (.symbol name) := by
  simp [reduceKept]

/-! ### Steps -/

@[simp] theorem value_step_pure (a : α) (memory : Memory) :
    ((pure a : Step α) memory).value = (a, memory) := rfl

@[simp] theorem value_step_bind (step : Step α) (f : α → Step β) (memory : Memory) :
    ((step >>= f) memory).value = (f (step memory).value.1 (step memory).value.2).value := rfl

@[simp] theorem value_ofBuild (b : Build α) (memory : Memory) :
    (ofBuild b memory).value = (b.value, memory) := rfl

/-- What is not remembered is reduced. -/
theorem value_remember_of_none {t : Term} {step : Step Term} {memory : Memory}
    (h : memory[t]? = none) : (remember t step memory).value =
      ((step memory).value.1, (step memory).value.2.insert t (step memory).value.1) := by
  unfold remember
  rw [h]
  rfl

/-! ### Steps that do the work of a construction -/

/-- Everything remembered is right, and what was built for it is known. -/
def Recalls (s : Settings) (known : Term → Prop) (memory : Memory) : Prop :=
  ∀ t result, memory[t]? = some result →
    result = (reduceKept s t).value ∧ ∀ u ∈ (reduceKept s t).trace, known u

/-- What a step finds out from a memory that is right: the value of the construction, and
    its terms as far as they are not known already. -/
structure Agrees (s : Settings) (known : Term → Prop) (found : Build (α × Memory))
    (b : Build α) : Prop where
  value_eq : found.value.1 = b.value
  built : ∀ u ∈ found.trace, u ∈ b.trace
  complete : ∀ u ∈ b.trace, known u ∨ u ∈ found.trace
  recalls : Recalls s (fun u => known u ∨ u ∈ found.trace) found.value.2

/-- A step that does the work of a construction, whatever it remembers. -/
def Simulates (s : Settings) (step : Step α) (b : Build α) : Prop :=
  ∀ known memory, Recalls s known memory → Agrees s known (step memory) b

theorem simulates_ofBuild (b : Build α) : Simulates s (ofBuild b) b := by
  intro known memory h
  refine ⟨rfl, ?_, ?_, ?_⟩
  · intro u hu
    simpa [ofBuild] using hu
  · intro u hu
    exact .inr (by simpa [ofBuild] using hu)
  · intro t result ht
    obtain ⟨hresult, hknown⟩ := h t result ht
    exact ⟨hresult, fun u hu => .inl (hknown u hu)⟩

theorem simulates_pure (a : α) : Simulates s (pure a : Step α) (pure a) := by
  intro known memory h
  refine ⟨rfl, fun u hu => hu, fun u hu => .inr hu, ?_⟩
  intro t result ht
  obtain ⟨hresult, hknown⟩ := h t result ht
  exact ⟨hresult, fun u hu => .inl (hknown u hu)⟩

theorem Simulates.bind {step : Step α} {b : Build α} {f : α → Step β} {g : α → Build β}
    (h : Simulates s step b) (hf : ∀ a, Simulates s (f a) (g a)) :
    Simulates s (step >>= f) (b >>= g) := by
  intro known memory hmemory
  have first := h known memory hmemory
  have second := hf (step memory).value.1 _ _ first.recalls
  have hvalue : ((step >>= f) memory).value = (f (step memory).value.1 (step memory).value.2).value :=
    rfl
  have htrace : ((step >>= f) memory).trace =
      (step memory).trace ++ (f (step memory).value.1 (step memory).value.2).trace := rfl
  rw [first.value_eq] at hvalue htrace second
  refine ⟨?_, ?_, ?_, ?_⟩
  · rw [hvalue, second.value_eq]
    rfl
  · intro u hu
    rw [htrace, List.mem_append] at hu
    rw [Build.trace_bind, List.mem_append]
    exact hu.imp (first.built u) (second.built u)
  · intro u hu
    rw [Build.trace_bind, List.mem_append] at hu
    rw [htrace, List.mem_append]
    rcases hu with hu | hu
    · exact (first.complete u hu).imp_right .inl
    · rcases second.complete u hu with (hu | hu) | hu
      · exact .inl hu
      · exact .inr (.inl hu)
      · exact .inr (.inr hu)
  · intro t result ht
    rw [hvalue] at ht
    obtain ⟨hresult, hknown⟩ := second.recalls t result ht
    refine ⟨hresult, fun u hu => ?_⟩
    change known u ∨ u ∈ ((step >>= f) memory).trace
    rw [htrace, List.mem_append]
    rcases hknown u hu with (hu | hu) | hu
    · exact .inl hu
    · exact .inr (.inl hu)
    · exact .inr (.inr hu)

theorem Simulates.remember {step : Step Term} {t : Term}
    (h : Simulates s step (reduceKept s t)) :
    Simulates s (remember t step) (reduceKept s t) := by
  intro known memory hmemory
  unfold Step.remember
  split
  case h_1 result ht =>
    obtain ⟨hresult, hknown⟩ := hmemory t result ht
    refine ⟨hresult, by simp, fun u hu => .inl (hknown u hu), ?_⟩
    intro t' result' ht'
    obtain ⟨hresult', hknown'⟩ := hmemory t' result' ht'
    exact ⟨hresult', fun u hu => .inl (hknown' u hu)⟩
  case h_2 hnone =>
    have found := h known memory hmemory
    refine ⟨found.value_eq, ?_, ?_, ?_⟩
    · intro u hu
      exact found.built u (by simpa using hu)
    · intro u hu
      exact (found.complete u hu).imp_right (by simp)
    · intro t' result' ht'
      have ht' : ((step memory).value.2.insert t (step memory).value.1)[t']? = some result' := ht'
      rw [Std.HashMap.getElem?_insert] at ht'
      have htrace : ∀ u, (known u ∨ u ∈ (step memory).trace) → known u ∨ u ∈
          (step memory >>= fun out => pure (out.1, out.2.insert t out.1) :
            Build (Term × Memory)).trace := by
        intro u hu
        simpa using hu
      split at ht'
      case isTrue heq =>
        rw [← eq_of_beq heq, ← Option.some.inj ht']
        exact ⟨found.value_eq, fun u hu => htrace u (found.complete u hu)⟩
      case isFalse =>
        obtain ⟨hresult, hknown⟩ := found.recalls t' result' ht'
        exact ⟨hresult, fun u hu => htrace u (hknown u hu)⟩

mutual

theorem simulates_reduceTerm : ∀ t : Term,
    Simulates s (reduceTerm s (fun name => pure (.symbol name)) t) (reduceKept s t)
  | .number _ | .decimal _ | .constant _ | .undefined | .nonreal => by
    simpa [reduceTerm, reduceKept] using simulates_pure _
  | .symbol name => by
    rw [reduceTerm]
    exact Simulates.remember (by simpa [reduceKept] using simulates_pure _)
  | .sum terms => by
    rw [reduceTerm]
    apply Simulates.remember
    rw [reduceKept]
    exact (simulates_reduceTerms terms).bind fun terms => simulates_ofBuild (add terms)
  | .product factors => by
    rw [reduceTerm]
    apply Simulates.remember
    rw [reduceKept]
    exact (simulates_reduceTerms factors).bind fun factors => simulates_ofBuild (mul s factors)
  | .power base exponent => by
    rw [reduceTerm]
    apply Simulates.remember
    rw [reduceKept]
    exact (simulates_reduceTerm base).bind fun base => (simulates_reduceTerm exponent).bind
      fun exponent => simulates_ofBuild (pow s base exponent)
  | .negation a => by
    rw [reduceTerm]
    apply Simulates.remember
    rw [reduceKept]
    exact (simulates_reduceTerm a).bind fun a => simulates_ofBuild _
  | .quotient a b => by
    rw [reduceTerm]
    apply Simulates.remember
    rw [reduceKept]
    exact (simulates_reduceTerm a).bind fun a => (simulates_reduceTerm b).bind
      fun b => simulates_ofBuild _
  | .apply f a => by
    rw [reduceTerm]
    apply Simulates.remember
    rw [reduceKept]
    exact (simulates_reduceTerm a).bind fun a => simulates_ofBuild (apply s f a)
  | .matrix rows columns entries => by
    rw [reduceTerm]
    apply Simulates.remember
    rw [reduceKept]
    exact (simulates_reduceTerms entries).bind fun entries =>
      simulates_ofBuild (Build.make (.matrix rows columns entries))

theorem simulates_reduceTerms : ∀ terms : List Term,
    Simulates s (reduceTerms s (fun name => pure (.symbol name)) terms) (reduceKeptAll s terms)
  | [] => by
    rw [reduceTerms, reduceKeptAll]
    exact simulates_pure []
  | t :: ts => by
    rw [reduceTerms, reduceKeptAll]
    exact (simulates_reduceTerm t).bind fun t => (simulates_reduceTerms ts).bind
      fun ts => simulates_pure (t :: ts)

end

/-- A symbol that is kept stands for itself. -/
theorem reduceSymbol_keepAll (h : s.symbols = .keepAll) (definitions : Definitions)
    (levels : Nat) (expanding : List String) :
    reduceSymbol s definitions levels expanding = fun name => pure (.symbol name) := by
  funext name
  unfold reduceSymbol
  rw [h]

/-- A symbol without a definition stands for itself. -/
theorem reduceSymbol_of_undefined {definitions : Definitions} {name : String}
    (h : definitions.lookup name = none) (s : Settings) (levels : Nat)
    (expanding : List String) :
    reduceSymbol s definitions levels expanding name = pure (.symbol name) := by
  unfold reduceSymbol
  rw [h]
  cases s.symbols <;> rfl

theorem reduceSymbol_nil (s : Settings) (levels : Nat) (expanding : List String) :
    reduceSymbol s [] levels expanding = fun name => pure (.symbol name) :=
  funext fun _ => reduceSymbol_of_undefined rfl s levels expanding

/-- A symbol that is defined as a number is replaced by it. -/
theorem reduceSymbol_of_number {definitions : Definitions} {name : String} {a : Rat}
    (hs : s.symbols = .replaceDefined) (h : definitions.lookup name = some (.number a))
    {expanding : List String} (hname : name ∉ expanding) (levels : Nat) :
    reduceSymbol s definitions (levels + 1) expanding name = pure (.number a) := by
  unfold reduceSymbol
  rw [hs, h]
  dsimp only
  rw [if_neg hname, reduceTerm]

/-- Nothing is remembered at first. -/
theorem recalls_empty : Recalls s (fun _ => False) {} := by
  intro t result ht
  simp at ht

/-- Where every symbol stands for itself, reduction is what it is without a memory: the same
    value, and the same terms built. -/
theorem reduce_of_kept {definitions : Definitions}
    (h : reduceSymbol s definitions definitions.length [] = fun name => pure (.symbol name))
    (t : Term) :
    (reduce s definitions t).value = (reduceKept s t).value ∧
      ∀ u, u ∈ (reduce s definitions t).trace ↔ u ∈ (reduceKept s t).trace := by
  have found := simulates_reduceTerm (s := s) t _ _ recalls_empty
  rw [reduce, reduceWith, h]
  refine ⟨found.value_eq, fun u => ?_⟩
  rw [Build.trace_bind, List.mem_append]
  constructor
  · rintro (hu | hu)
    · exact found.built u hu
    · simp at hu
  · intro hu
    rcases found.complete u hu with hu | hu
    · exact hu.elim
    · exact .inl hu

/-- With all symbols kept, reduction is what it is without a memory. -/
theorem reduce_keepAll (h : s.symbols = .keepAll) (definitions : Definitions) (t : Term) :
    (reduce s definitions t).value = (reduceKept s t).value ∧
      ∀ u, u ∈ (reduce s definitions t).trace ↔ u ∈ (reduceKept s t).trace :=
  reduce_of_kept (reduceSymbol_keepAll h definitions _ _) t

/-- Without definitions, reduction is what it is without a memory. -/
theorem reduce_nil (s : Settings) (t : Term) :
    (reduce s [] t).value = (reduceKept s t).value :=
  (reduce_of_kept (reduceSymbol_nil s _ _) t).1

theorem value_reduceKeptAll (s : Settings) (terms : List Term) :
    (reduceKeptAll s terms).value = terms.map fun t => (reduceKept s t).value := by
  induction terms with
  | nil => simp [reduceKeptAll]
  | cons t ts ih => simp [reduceKeptAll, ih]

theorem reduceAll_nil (s : Settings) (terms : List Term) :
    (reduceAll s [] terms).value = terms.map fun t => (reduceKept s t).value := by
  have found := simulates_reduceTerms (s := s) terms _ _ recalls_empty
  rw [← value_reduceKeptAll, ← found.value_eq, reduceAll, reduceSymbol_nil]
  rfl

end Reduction

end EquationSolver
