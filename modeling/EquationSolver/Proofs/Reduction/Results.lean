import EquationSolver.Proofs.Order.Comparison
import EquationSolver.Proofs.Reduction.Symbols

/-!
# What the results of reductions have in common

A property of terms that sums, products, powers and functions in standard form hand on from their
operands to their results is a property of every reduced term, whatever has been reduced and
remembered before, as far as the atoms have it that occur in the term and in the definitions, and
the symbols that are left as they are.
-/

namespace EquationSolver

/-- The atoms of the term have the property, apart from its symbols. -/
def Term.AtomsHave (P : Term → Prop) (t : Term) : Prop :=
  t.Everywhere fun u => u.isAtom = true → (∀ name, u ≠ .symbol name) → P u

namespace Reduction

open Step

variable {s : Settings} {P : Term → Prop} {definitions : Definitions}

/-- Results have the property if their operands have it. -/
structure IsHandedOn (s : Settings) (P : Term → Prop) : Prop where
  number : ∀ a : Rat, P (.number a)
  undefined : P .undefined
  add : ∀ ts : List Term, (∀ t ∈ ts, P t) → P (add ts).value
  mul : ∀ ts : List Term, (∀ t ∈ ts, P t) → P (mul s ts).value
  pow : ∀ a b : Term, P a → P b → P (pow s a b).value
  apply : ∀ (f : Function) (a : Term), P a → P (apply s f a).value
  matrix : ∀ (rows columns : Nat) (ts : List Term), (∀ t ∈ ts, P t) → P (.matrix rows columns ts)

/-- The reduction leaves a symbol as it is. -/
def Leaves (s : Settings) (definitions : Definitions) (name : String) : Prop :=
  s.symbols = .replaceDefined → definitions.lookup name = none

/-! ### Steps -/

/-- All remembered terms have the property. -/
def AllRemembered (P : Term → Prop) (memory : Memory) : Prop :=
  ∀ t u : Term, memory[t]? = some u → P u

/-- The step finds what is asked for, and goes on to remember only terms with the property. -/
def Yields {α : Type} (P : Term → Prop) (found : α → Prop) (step : Step α) : Prop :=
  ∀ memory, AllRemembered P memory →
    found (step memory).value.1 ∧ AllRemembered P (step memory).value.2

section Steps

variable {α β : Type} {found : α → Prop} {found' : β → Prop}

theorem yields_pure {a : α} (h : found a) : Yields P found (pure a) :=
  fun _ hmemory => ⟨h, hmemory⟩

theorem Yields.bind {step : Step α} {f : α → Step β} (h : Yields P found step)
    (hf : ∀ a, found a → Yields P found' (f a)) : Yields P found' (step >>= f) :=
  fun memory hmemory => hf _ (h memory hmemory).1 _ (h memory hmemory).2

theorem yields_ofBuild {b : Build α} (h : found b.value) : Yields P found (ofBuild b) :=
  fun _ hmemory => ⟨h, hmemory⟩

theorem Yields.remember {step : Step Term} (h : Yields P P step) (t : Term) :
    Yields P P (Step.remember t step) := by
  intro memory hmemory
  unfold Step.remember
  split
  case h_1 result hresult => exact ⟨hmemory t result hresult, hmemory⟩
  case h_2 =>
    obtain ⟨hvalue, hafter⟩ := h memory hmemory
    refine ⟨hvalue, fun u v hv => ?_⟩
    rw [Build.value_bind, Build.value_pure, Std.HashMap.getElem?_insert] at hv
    split at hv
    · exact Option.some.inj hv ▸ hvalue
    · exact hafter u v hv

end Steps

/-! ### Reduction -/

section Terms

variable {symbol : String → Step Term}

mutual

theorem IsHandedOn.yields_reduceTerm (h : IsHandedOn s P)
    (hsymbol : ∀ name, Yields P P (symbol name)) :
    ∀ t : Term, t.AtomsHave P → Yields P P (reduceTerm s symbol t)
  | .number _, ht | .decimal _, ht | .constant _, ht | .undefined, ht | .nonreal, ht => by
    unfold reduceTerm
    exact yields_pure (ht.self rfl nofun)
  | .symbol name, _ => by
    unfold reduceTerm
    exact (hsymbol name).remember _
  | .sum terms, ht => by
    unfold reduceTerm
    refine ((h.yields_reduceTerms hsymbol terms fun _ => ht.of_mem_children).bind
      fun ts hts => ?_).remember _
    exact yields_ofBuild (h.add ts hts)
  | .product factors, ht => by
    unfold reduceTerm
    refine ((h.yields_reduceTerms hsymbol factors fun _ => ht.of_mem_children).bind
      fun ts hts => ?_).remember _
    exact yields_ofBuild (h.mul ts hts)
  | .power a b, ht => by
    have ha := h.yields_reduceTerm hsymbol a (ht.of_mem_children (by simp [Term.children]))
    have hb := h.yields_reduceTerm hsymbol b (ht.of_mem_children (by simp [Term.children]))
    unfold reduceTerm
    refine (ha.bind fun x hx => hb.bind fun e he => ?_).remember _
    exact yields_ofBuild (h.pow x e hx he)
  | .negation a, ht => by
    have ha := h.yields_reduceTerm hsymbol a (ht.of_mem_children List.mem_cons_self)
    unfold reduceTerm
    refine (ha.bind fun x hx => ?_).remember _
    exact yields_ofBuild
      (h.mul _ (List.forall_mem_cons.2 ⟨h.number (-1), List.forall_mem_singleton.2 hx⟩))
  | .quotient a b, ht => by
    have ha := h.yields_reduceTerm hsymbol a (ht.of_mem_children (by simp [Term.children]))
    have hb := h.yields_reduceTerm hsymbol b (ht.of_mem_children (by simp [Term.children]))
    unfold reduceTerm
    refine (ha.bind fun x hx => hb.bind fun y hy => ?_).remember _
    have hinverse := h.pow y _ hy (h.number (-1))
    exact yields_ofBuild
      (h.mul _ (List.forall_mem_cons.2 ⟨hx, List.forall_mem_singleton.2 hinverse⟩))
  | .apply f a, ht => by
    have ha := h.yields_reduceTerm hsymbol a (ht.of_mem_children List.mem_cons_self)
    unfold reduceTerm
    refine (ha.bind fun x hx => ?_).remember _
    exact yields_ofBuild (h.apply f x hx)
  | .matrix rows columns entries, ht => by
    unfold reduceTerm
    refine ((h.yields_reduceTerms hsymbol entries fun _ => ht.of_mem_children).bind
      fun ts hts => ?_).remember _
    exact yields_ofBuild (h.matrix rows columns ts hts)

theorem IsHandedOn.yields_reduceTerms (h : IsHandedOn s P)
    (hsymbol : ∀ name, Yields P P (symbol name)) :
    ∀ ts : List Term, (∀ t ∈ ts, t.AtomsHave P) →
      Yields P (fun us => ∀ u ∈ us, P u) (reduceTerms s symbol ts)
  | [], _ => by
    unfold reduceTerms
    exact yields_pure nofun
  | t :: ts, hatoms => by
    obtain ⟨ht, hts⟩ := List.forall_mem_cons.1 hatoms
    unfold reduceTerms
    refine (h.yields_reduceTerm hsymbol t ht).bind fun u hu =>
      (h.yields_reduceTerms hsymbol ts hts).bind fun us hus => ?_
    exact yields_pure (List.forall_mem_cons.2 ⟨hu, hus⟩)

end

end Terms

theorem IsHandedOn.yields_reduceSymbol (h : IsHandedOn s P)
    (hsymbol : ∀ name, Leaves s definitions name → P (.symbol name))
    (hdefinitions : ∀ d ∈ definitions, d.2.AtomsHave P) (levels : Nat)
    (expanding : List String) (name : String) :
    Yields P P (reduceSymbol s definitions levels expanding name) := by
  have hundefined : Yields P P (ofBuild (Build.make .undefined)) := yields_ofBuild h.undefined
  induction levels generalizing expanding name with
  | zero =>
    unfold reduceSymbol
    split
    · split_ifs <;> exact hundefined
    case h_2 hnone =>
      exact yields_pure (hsymbol name fun hs => Option.eq_none_iff_forall_ne_some.2 (hnone · hs))
  | succ levels ih =>
    unfold reduceSymbol
    split
    case h_1 definition _ hlookup =>
      split_ifs
      · exact hundefined
      · exact h.yields_reduceTerm (ih _) _ (hdefinitions _ (mem_of_lookup hlookup))
    case h_2 hnone =>
      exact yields_pure (hsymbol name fun hs => Option.eq_none_iff_forall_ne_some.2 (hnone · hs))

/-- A property that is handed on is one of every reduced term, if the atoms have it that occur, and
    the symbols that are left. -/
theorem IsHandedOn.reduce (h : IsHandedOn s P)
    (hsymbol : ∀ name, Leaves s definitions name → P (.symbol name))
    (hdefinitions : ∀ d ∈ definitions, d.2.AtomsHave P) {t : Term} (ht : t.AtomsHave P) :
    P (reduce s definitions t).value := by
  have hyields := h.yields_reduceTerm
    (h.yields_reduceSymbol hsymbol hdefinitions definitions.length []) t ht
  have hnothing : AllRemembered P {} := fun t u hu => by simp at hu
  exact (hyields {} hnothing).1

/-! ### Symbols -/

theorem isHandedOn_mentionsOnly (names : String → Prop) :
    IsHandedOn s (Term.MentionsOnly names) where
  number a := Term.mentionsOnly_of_atom rfl nofun
  undefined := Term.mentionsOnly_of_atom rfl nofun
  add ts hts := by
    have hstarts : (Reduction.add ts).StartsFrom ts := startsFrom_add (List.Subset.refl ts)
    exact hstarts.mentionsOnly (addsNoSymbol_add ts) hts _ List.mem_cons_self
  mul ts hts := by
    have hstarts : (Reduction.mul s ts).StartsFrom ts := startsFrom_mul (List.Subset.refl ts)
    exact hstarts.mentionsOnly (addsNoSymbol_mul ts) hts _ List.mem_cons_self
  pow a b ha hb := by
    have hstarts : (Reduction.pow s a b).StartsFrom [a, b] := startsFrom_pow (by simp) (by simp)
    exact hstarts.mentionsOnly (addsNoSymbol_pow a b) (by simp [ha, hb]) _ List.mem_cons_self
  apply f a ha := by
    have hstarts : (Reduction.apply s f a).StartsFrom [a] := startsFrom_apply f (by simp)
    exact hstarts.mentionsOnly (addsNoSymbol_apply f a) (by simp [ha]) _ List.mem_cons_self
  matrix rows columns ts hts := Term.mentionsOnly_matrix.2 hts

/-- Only symbols that are left as they are occur in a reduced term. -/
theorem mentionsOnly_reduce (s : Settings) (definitions : Definitions) (t : Term) :
    (reduce s definitions t).value.MentionsOnly (Leaves s definitions) := by
  have hatoms (u : Term) : u.AtomsHave (Term.MentionsOnly (Leaves s definitions)) :=
    fun v _ hatom => Term.mentionsOnly_of_atom (Term.children_of_isAtom hatom)
  exact (isHandedOn_mentionsOnly (Leaves s definitions)).reduce
    (fun _ hname => Term.mentionsOnly_symbol.2 hname) (fun d _ => hatoms d.2) (hatoms t)

end Reduction

end EquationSolver
