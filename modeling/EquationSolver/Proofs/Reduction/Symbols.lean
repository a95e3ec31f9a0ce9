import EquationSolver.Proofs.Pool.Origin
import EquationSolver.Proofs.Reduction.Definitions

/-!
# Symbols and reduction

Reducing a term builds no symbols: those in the result have been in the term or in a definition.
What is built are numbers and constants, and sums, products, powers, function applications and
matrices of what is there already.  So the result mentions only names that can be reached from the
term through definitions.
-/

namespace EquationSolver

namespace Build

variable {α β : Type}

/-- None of the terms that are built is a symbol. -/
def AddsNoSymbol (b : Build α) : Prop :=
  ∀ name, Term.symbol name ∉ b.trace

@[simp] theorem addsNoSymbol_pure (a : α) : (pure a : Build α).AddsNoSymbol := by
  simp [AddsNoSymbol]

@[simp] theorem addsNoSymbol_bind {x : Build α} {f : α → Build β} :
    (x >>= f).AddsNoSymbol ↔ x.AddsNoSymbol ∧ (f x.value).AddsNoSymbol := by
  simp [AddsNoSymbol, forall_and]

@[simp] theorem addsNoSymbol_make {t : Term} :
    (make t).AddsNoSymbol ↔ ∀ name, t ≠ .symbol name := by
  simp [AddsNoSymbol, eq_comm]

@[simp] theorem addsNoSymbol_number (a : Rat) : (number a).AddsNoSymbol := by
  simp [number]

@[simp] theorem addsNoSymbol_each {f : α → Build β} {items : List α} :
    (each f items).AddsNoSymbol ↔ ∀ a ∈ items, (f a).AddsNoSymbol := by
  induction items with
  | nil => simp [each]
  | cons a rest ih => simp [each, ih]

@[simp] theorem addsNoSymbol_sum (ts : List Term) : (sum ts).AddsNoSymbol := by
  unfold sum
  split
  · simp
  · unfold Term.sumOf
    split <;> simp_all [Term.zero]

@[simp] theorem addsNoSymbol_product (ts : List Term) : (product ts).AddsNoSymbol := by
  unfold product
  split
  · simp
  · unfold Term.productOf
    split <;> simp_all [Term.one]

end Build

@[simp] theorem Term.ofDouble_ne_symbol (x : Float) (name : String) : ofDouble x ≠ .symbol name := by
  unfold ofDouble
  split_ifs <;> simp

@[simp] theorem Coefficient.toTerm_ne_symbol (c : Coefficient) (name : String) :
    c.toTerm ≠ .symbol name := by
  cases c <;> simp [toTerm]

open Build

namespace Reduction

variable {s : Settings}

theorem addsNoSymbol_poison {operands : List Term} {poison : Term}
    (h : poison? operands = some poison) : (make poison).AddsNoSymbol := by
  unfold poison? at h
  split_ifs at h <;> cases h <;> simp

/-! ### Sums -/

@[simp] theorem addsNoSymbol_splitTerm (t : Term) : (splitTerm t).AddsNoSymbol := by
  unfold splitTerm
  split <;> split <;> simp

@[simp] theorem addsNoSymbol_joinTerm (c : Coefficient) (body : Option Term) :
    (joinTerm c body).AddsNoSymbol := by
  unfold joinTerm
  split
  · simp
  · split
    · simp
    · simp only [addsNoSymbol_bind]
      split <;> simp

@[simp] theorem addsNoSymbol_add (ts : List Term) : (add ts).AddsNoSymbol := by
  unfold add
  dsimp only
  split
  case h_1 poison hpoison => exact addsNoSymbol_poison hpoison
  case h_2 => split <;> simp

/-! ### Products -/

@[simp] theorem addsNoSymbol_sortedProduct (c : Coefficient) (factors : List Term) :
    (sortedProduct c factors).AddsNoSymbol := by
  unfold sortedProduct
  dsimp only
  split_ifs <;> simp

@[simp] theorem addsNoSymbol_matrixProduct (c : Coefficient) (factors : List Term) :
    (matrixProduct c factors).AddsNoSymbol := by
  unfold matrixProduct
  split_ifs <;> simp

section Parameters

variable {pow : Term → Term → Build Term} {mul : List Term → Build Term}
  (hpow : ∀ base exponent, (pow base exponent).AddsNoSymbol)
  (hmul : ∀ factors, (mul factors).AddsNoSymbol)

include hpow in
theorem addsNoSymbol_mergePowers (factors : List Term) : (mergePowers pow factors).AddsNoSymbol := by
  unfold mergePowers mergeGroup
  simp [Term.one]
  intro group _
  split <;> simp [hpow]

include hpow in
theorem addsNoSymbol_mergeRepeatedly (passes : Nat) (c : Coefficient) (factors : List Term) :
    (mergeRepeatedly pow passes c factors).AddsNoSymbol := by
  induction passes generalizing c factors with
  | zero => simp [mergeRepeatedly]
  | succ passes ih =>
    unfold mergeRepeatedly
    split
    · simp
    · simp only [addsNoSymbol_bind, addsNoSymbol_mergePowers hpow, true_and]
      split
      · exact ih _ _
      · simp

include hmul in
theorem addsNoSymbol_pairwise (left right : List Term) : (pairwise mul left right).AddsNoSymbol := by
  simp [pairwise, hmul]

include hmul in
theorem addsNoSymbol_multiplySums (found sums : List Term) :
    (multiplySums mul found sums).AddsNoSymbol := by
  induction sums generalizing found with
  | nil => simp [multiplySums]
  | cons sum sums ih => simp [multiplySums, addsNoSymbol_pairwise hmul, ih]

include hmul in
theorem addsNoSymbol_distribute (c : Coefficient) (factors : List Term) :
    (distribute s mul c factors).AddsNoSymbol := by
  unfold distribute
  dsimp only
  split_ifs
  · simp
  · simp [addsNoSymbol_multiplySums hmul]

include hpow hmul in
theorem addsNoSymbol_mulWith (factors : List Term) : (mulWith s pow mul factors).AddsNoSymbol := by
  unfold mulWith
  dsimp only
  split
  case h_1 poison hpoison => exact addsNoSymbol_poison hpoison
  case h_2 =>
    split
    · simp
    · simp only [addsNoSymbol_bind, addsNoSymbol_mergeRepeatedly hpow, true_and]
      split
      case h_1 poison hpoison => exact addsNoSymbol_poison hpoison
      case h_2 => split_ifs <;> simp [addsNoSymbol_distribute hmul]

theorem addsNoSymbol_plainMul (factors : List Term) : (plainMul factors).AddsNoSymbol := by
  unfold plainMul
  dsimp only
  split
  case h_1 poison hpoison => exact addsNoSymbol_poison hpoison
  case h_2 => split_ifs <;> simp

/-! ### Powers -/

theorem addsNoSymbol_radical {base : Rat} {p : Int} {q : Nat} {unreduced : Build Term}
    (h : unreduced.AddsNoSymbol) : (radical s base p q unreduced).AddsNoSymbol := by
  unfold radical
  dsimp only
  split
  · exact h
  · split
    · simp
    · split
      · simp
      · simp only [addsNoSymbol_bind]
        split_ifs <;> simp

theorem addsNoSymbol_decimalPower {base exponent : Float} {unreduced : Build Term}
    (h : unreduced.AddsNoSymbol) : (decimalPower s base exponent unreduced).AddsNoSymbol := by
  unfold decimalPower
  split_ifs <;> simp [h]

include hpow hmul in
theorem addsNoSymbol_rationalPower {base exponent : Rat} {unreduced : Build Term}
    (h : unreduced.AddsNoSymbol) :
    (rationalPower s pow mul base exponent unreduced).AddsNoSymbol := by
  have hnegative (p : Int) (q : Nat) :
      (negativePower s pow mul base p q unreduced).AddsNoSymbol := by
    unfold negativePower
    split_ifs <;> simp [h, hpow, hmul, addsNoSymbol_radical h]
  unfold rationalPower
  split
  · split_ifs <;> simp [Term.zero]
  · split
    · split
      · exact h
      · split <;> simp [h]
    · split
      · exact h
      · split_ifs
        · exact h
        · exact hnegative _ _
        · exact addsNoSymbol_radical h

include hmul in
theorem addsNoSymbol_multiplyRepeatedly (base : Term) (count : Nat) (found : Term) :
    (multiplyRepeatedly mul base count found).AddsNoSymbol := by
  induction count generalizing found with
  | zero => simp [multiplyRepeatedly]
  | succ count ih => simp [multiplyRepeatedly, addsNoSymbol_pairwise hmul, ih]

include hpow hmul in
theorem addsNoSymbol_exactPower (base : Term) (exponent : Rat) :
    (exactPower s pow mul base exponent).AddsNoSymbol := by
  unfold exactPower
  dsimp only
  split
  · unfold imaginaryPower
    split_ifs <;> simp [Term.one, hmul]
  · simp [hmul, hpow]
  · simp [hmul, hpow]
  · split_ifs <;> simp [hmul, hpow]
  · split_ifs <;> simp [addsNoSymbol_multiplyRepeatedly hmul]
  · simp

include hpow hmul in
theorem addsNoSymbol_powWith (base exponent : Term) :
    (powWith s pow mul base exponent).AddsNoSymbol := by
  have hunreduced : (make (.power base exponent)).AddsNoSymbol := by simp
  unfold powWith
  dsimp only
  split
  case h_1 poison hpoison => exact addsNoSymbol_poison hpoison
  case h_2 =>
    split_ifs
    · exact hunreduced
    · simp
    · simp [Term.one]
    · simp
    · split
      · exact addsNoSymbol_rationalPower hpow hmul hunreduced
      · split_ifs
        · exact addsNoSymbol_decimalPower hunreduced
        · exact addsNoSymbol_exactPower hpow hmul _ _
      · split_ifs
        · exact addsNoSymbol_decimalPower hunreduced
        · exact hunreduced

theorem addsNoSymbol_plainPow (base exponent : Term) : (plainPow base exponent).AddsNoSymbol := by
  unfold plainPow
  split
  case h_1 poison hpoison => exact addsNoSymbol_poison hpoison
  case h_2 => split_ifs <;> simp [Term.one]

end Parameters

theorem addsNoSymbol_within (depth : Nat) :
    (∀ factors, (mulWithin s depth factors).AddsNoSymbol) ∧
      ∀ base exponent, (powWithin s depth base exponent).AddsNoSymbol := by
  induction depth with
  | zero => exact ⟨addsNoSymbol_plainMul, addsNoSymbol_plainPow⟩
  | succ depth ih => exact ⟨addsNoSymbol_mulWith ih.2 ih.1, addsNoSymbol_powWith ih.2 ih.1⟩

@[simp] theorem addsNoSymbol_mul (factors : List Term) : (mul s factors).AddsNoSymbol :=
  (addsNoSymbol_within maxDepth).1 factors

@[simp] theorem addsNoSymbol_pow (base exponent : Term) : (pow s base exponent).AddsNoSymbol :=
  (addsNoSymbol_within maxDepth).2 base exponent

/-! ### Functions -/

/-- The construction, if there is one, builds no symbol. -/
def MayAddNoSymbol (b? : Option (Build Term)) : Prop :=
  ∀ b ∈ b?, b.AddsNoSymbol

@[simp] theorem mayAddNoSymbol_none : MayAddNoSymbol none := by
  simp [MayAddNoSymbol]

@[simp] theorem mayAddNoSymbol_some {b : Build Term} :
    MayAddNoSymbol (some b) ↔ b.AddsNoSymbol := by
  simp [MayAddNoSymbol]

theorem MayAddNoSymbol.map {α : Type} {f : α → Build Term} (h : ∀ a, (f a).AddsNoSymbol)
    (a? : Option α) : MayAddNoSymbol (a?.map f) := by
  cases a? <;> simp [h]

theorem mayAddNoSymbol_exactSine? (step : Int) : MayAddNoSymbol (exactSine? s step) := by
  have hquarter (step : Int) : MayAddNoSymbol (firstQuarterSine? s step) := by
    unfold firstQuarterSine?
    split_ifs <;> simp [Term.zero, Term.one]
  unfold exactSine?
  intro b hb
  obtain ⟨sine, hsine, rfl⟩ := Option.map_eq_some_iff.1 hb
  simp only [addsNoSymbol_bind, hquarter _ _ hsine, true_and]
  split_ifs <;> simp

theorem mayAddNoSymbol_exactTangent? (step : Int) : MayAddNoSymbol (exactTangent? s step) := by
  unfold exactTangent?
  split
  case h_1 sine cosine hsine hcosine =>
    simp only [mayAddNoSymbol_some, addsNoSymbol_bind, mayAddNoSymbol_exactSine? _ _ hsine,
      mayAddNoSymbol_exactSine? _ _ hcosine, true_and]
    split_ifs <;> simp
  case h_2 => simp

theorem mayAddNoSymbol_exactInverse? (f : Function) (argument : Term) :
    MayAddNoSymbol (exactInverse? s f argument) := by
  have hangle (turns : Rat) : (angle s turns).AddsNoSymbol := by
    unfold angle
    split <;> simp
  unfold exactInverse?
  split
  · split
    · split <;> simp
    · exact .map hangle _
  · simp

theorem mayAddNoSymbol_exactLogarithm? (isDecimal : Bool) (argument : Term) :
    MayAddNoSymbol (exactLogarithm? s isDecimal argument) := by
  unfold exactLogarithm?
  split
  · split <;> simp [Term.one]
  · split_ifs
    · simp
    · simp
    · simp
    · simp [Term.zero]
    · exact .map (fun k => addsNoSymbol_number _) _
    · simp
  · simp

theorem mayAddNoSymbol_exactValue? (f : Function) (argument : Term) :
    MayAddNoSymbol (exactValue? s f argument) := by
  have hbind {g : Int → Option (Build Term)} (h : ∀ step, MayAddNoSymbol (g step)) :
      MayAddNoSymbol ((circleStep? s.angleUnit argument).bind g) := by
    intro b hb
    obtain ⟨step, -, hstep⟩ := Option.bind_eq_some_iff.1 hb
    exact h step b hstep
  unfold exactValue?
  split
  · exact hbind mayAddNoSymbol_exactSine?
  · exact hbind fun step => mayAddNoSymbol_exactSine? _
  · exact hbind mayAddNoSymbol_exactTangent?
  · exact mayAddNoSymbol_exactInverse? _ _
  · exact mayAddNoSymbol_exactInverse? _ _
  · exact mayAddNoSymbol_exactInverse? _ _
  · exact mayAddNoSymbol_exactLogarithm? _ _
  · exact mayAddNoSymbol_exactLogarithm? _ _
  · unfold exactAbsoluteValue?
    split <;> simp [Term.one]
  · unfold exactCubeRoot?
    split
    · simp only [mayAddNoSymbol_some, addsNoSymbol_bind]
      split_ifs <;> simp
    · simp

@[simp] theorem addsNoSymbol_apply (f : Function) (argument : Term) :
    (apply s f argument).AddsNoSymbol := by
  unfold apply
  split
  case h_1 poison hpoison => exact addsNoSymbol_poison hpoison
  case h_2 =>
    split
    · simp
    · unfold decimalValue
      dsimp only
      split_ifs <;> simp
    · cases hvalue : exactValue? s f argument with
      | none => simp
      | some b => exact mayAddNoSymbol_exactValue? f argument b hvalue

/-! ### Reduction -/

/-- The step builds no symbol, whatever has been reduced before. -/
def Step.AddsNoSymbol {α : Type} (step : Step α) : Prop :=
  ∀ memory, (step memory).AddsNoSymbol

namespace Step

variable {α β : Type}

@[simp] theorem addsNoSymbol_pure (a : α) : (pure a : Step α).AddsNoSymbol :=
  fun memory => Build.addsNoSymbol_pure (a, memory)

theorem AddsNoSymbol.bind {step : Step α} {f : α → Step β} (hstep : step.AddsNoSymbol)
    (hf : ∀ a, (f a).AddsNoSymbol) : (step >>= f).AddsNoSymbol := by
  intro memory
  show Build.AddsNoSymbol (step memory >>= fun found => f found.1 found.2)
  exact addsNoSymbol_bind.2 ⟨hstep memory, hf _ _⟩

theorem addsNoSymbol_ofBuild {b : Build α} (h : b.AddsNoSymbol) : (ofBuild b).AddsNoSymbol :=
  fun _ => addsNoSymbol_bind.2 ⟨h, Build.addsNoSymbol_pure _⟩

theorem AddsNoSymbol.remember {step : Step Term} (h : step.AddsNoSymbol) (t : Term) :
    (remember t step).AddsNoSymbol := by
  intro memory
  unfold Step.remember
  split
  · simp
  · exact addsNoSymbol_bind.2 ⟨h memory, Build.addsNoSymbol_pure _⟩

end Step

open Step

variable {symbol : String → Step Term}

mutual

theorem addsNoSymbol_reduceTerm (hsymbol : ∀ name, (symbol name).AddsNoSymbol) :
    ∀ t : Term, (reduceTerm s symbol t).AddsNoSymbol
  | .number _ | .decimal _ | .constant _ | .undefined | .nonreal => by
    unfold reduceTerm
    exact Step.addsNoSymbol_pure _
  | .symbol name => by
    unfold reduceTerm
    exact (hsymbol name).remember _
  | .sum terms | .product terms | .matrix _ _ terms => by
    unfold reduceTerm
    exact ((addsNoSymbol_reduceTerms hsymbol terms).bind fun _ =>
      addsNoSymbol_ofBuild (by simp)).remember _
  | .power a b => by
    unfold reduceTerm
    exact ((addsNoSymbol_reduceTerm hsymbol a).bind fun _ =>
      (addsNoSymbol_reduceTerm hsymbol b).bind fun _ =>
        addsNoSymbol_ofBuild (by simp)).remember _
  | .negation a | .apply _ a => by
    unfold reduceTerm
    exact ((addsNoSymbol_reduceTerm hsymbol a).bind fun _ =>
      addsNoSymbol_ofBuild (by simp)).remember _
  | .quotient a b => by
    unfold reduceTerm
    exact ((addsNoSymbol_reduceTerm hsymbol a).bind fun _ =>
      (addsNoSymbol_reduceTerm hsymbol b).bind fun _ =>
        addsNoSymbol_ofBuild (by simp)).remember _

theorem addsNoSymbol_reduceTerms (hsymbol : ∀ name, (symbol name).AddsNoSymbol) :
    ∀ ts : List Term, (reduceTerms s symbol ts).AddsNoSymbol
  | [] => by
    unfold reduceTerms
    exact Step.addsNoSymbol_pure _
  | t :: ts => by
    unfold reduceTerms
    exact (addsNoSymbol_reduceTerm hsymbol t).bind fun _ =>
      (addsNoSymbol_reduceTerms hsymbol ts).bind fun _ => Step.addsNoSymbol_pure _

end

theorem addsNoSymbol_reduceSymbol (definitions : Definitions) (levels : Nat)
    (expanding : List String) (name : String) :
    (reduceSymbol s definitions levels expanding name).AddsNoSymbol := by
  induction levels generalizing expanding name with
  | zero =>
    unfold reduceSymbol
    split
    · split_ifs <;> exact addsNoSymbol_ofBuild (by simp)
    · exact Step.addsNoSymbol_pure _
  | succ levels ih =>
    unfold reduceSymbol
    split
    · split_ifs
      · exact addsNoSymbol_ofBuild (by simp)
      · exact addsNoSymbol_reduceTerm (ih _) _
    · exact Step.addsNoSymbol_pure _

/-- A reduction builds no symbol. -/
@[simp] theorem addsNoSymbol_reduce (definitions : Definitions) (t : Term) :
    (reduce s definitions t).AddsNoSymbol := by
  simp [reduce, reduceWith, addsNoSymbol_reduceTerm (addsNoSymbol_reduceSymbol definitions _ _) t _]

@[simp] theorem addsNoSymbol_reduceAll (definitions : Definitions) (ts : List Term) :
    (reduceAll s definitions ts).AddsNoSymbol := by
  simp [reduceAll, addsNoSymbol_reduceTerms (addsNoSymbol_reduceSymbol definitions _ _) ts _]

end Reduction

/-! ### Names that are mentioned -/

namespace Term

/-- Every name in the term is one of the given ones. -/
def MentionsOnly (names : String → Prop) (t : Term) : Prop :=
  ∀ name, t.Mentions name → names name

section MentionsOnly

variable {names : String → Prop} {ts : List Term} {a b : Term}

@[simp] theorem mentionsOnly_symbol {name : String} :
    (symbol name).MentionsOnly names ↔ names name := by
  simp [MentionsOnly]

@[simp] theorem mentionsOnly_sum :
    (sum ts).MentionsOnly names ↔ ∀ t ∈ ts, t.MentionsOnly names := by
  simp only [MentionsOnly, mentions_sum]
  refine ⟨fun h t ht name hname => h name ⟨t, ht, hname⟩, ?_⟩
  rintro h name ⟨t, ht, hname⟩
  exact h t ht name hname

@[simp] theorem mentionsOnly_product :
    (product ts).MentionsOnly names ↔ ∀ t ∈ ts, t.MentionsOnly names := by
  simp only [MentionsOnly, mentions_product]
  refine ⟨fun h t ht name hname => h name ⟨t, ht, hname⟩, ?_⟩
  rintro h name ⟨t, ht, hname⟩
  exact h t ht name hname

@[simp] theorem mentionsOnly_matrix {rows columns : Nat} :
    (matrix rows columns ts).MentionsOnly names ↔ ∀ t ∈ ts, t.MentionsOnly names := by
  simp only [MentionsOnly, mentions_matrix]
  refine ⟨fun h t ht name hname => h name ⟨t, ht, hname⟩, ?_⟩
  rintro h name ⟨t, ht, hname⟩
  exact h t ht name hname

@[simp] theorem mentionsOnly_power :
    (power a b).MentionsOnly names ↔ a.MentionsOnly names ∧ b.MentionsOnly names := by
  simp only [MentionsOnly, mentions_power, or_imp, forall_and]

@[simp] theorem mentionsOnly_quotient :
    (quotient a b).MentionsOnly names ↔ a.MentionsOnly names ∧ b.MentionsOnly names := by
  simp only [MentionsOnly, mentions_quotient, or_imp, forall_and]

@[simp] theorem mentionsOnly_negation :
    (negation a).MentionsOnly names ↔ a.MentionsOnly names := by
  simp only [MentionsOnly, mentions_negation]

@[simp] theorem mentionsOnly_apply {f : Function} :
    (apply f a).MentionsOnly names ↔ a.MentionsOnly names := by
  simp only [MentionsOnly, mentions_apply]

/-- Numbers, constants and marks mention nothing. -/
theorem mentionsOnly_of_atom (ha : a.children = []) (hsymbol : ∀ name, a ≠ symbol name) :
    a.MentionsOnly names := by
  intro name hname
  cases a <;> simp_all [children, Mentions, dependsOn, contains, containsAny]

theorem mentionsOnly_sumOf (h : ∀ t ∈ ts, t.MentionsOnly names) :
    (sumOf ts).MentionsOnly names := by
  unfold sumOf
  split
  · exact mentionsOnly_of_atom rfl nofun
  · exact h _ List.mem_cons_self
  · exact mentionsOnly_sum.2 h

end MentionsOnly

/-- A name in a term that is no symbol is in one of its parts. -/
theorem Mentions.exists_child {t : Term} {name : String} (h : t.Mentions name)
    (ht : t ≠ .symbol name) : ∃ u ∈ t.children, u.Mentions name := by
  cases t with
  | symbol other => exact absurd (congrArg Term.symbol (mentions_symbol.1 h)) ht
  | number | decimal | constant | undefined | nonreal =>
    simp [Term.Mentions, Term.dependsOn, Term.contains] at h
  | sum terms => exact mentions_sum.1 h
  | product factors => exact mentions_product.1 h
  | matrix rows columns entries => exact mentions_matrix.1 h
  | power a b =>
    rcases mentions_power.1 h with h | h
    · exact ⟨a, by simp [children], h⟩
    · exact ⟨b, by simp [children], h⟩
  | quotient a b =>
    rcases mentions_quotient.1 h with h | h
    · exact ⟨a, by simp [children], h⟩
    · exact ⟨b, by simp [children], h⟩
  | negation a => exact ⟨a, by simp [children], mentions_negation.1 h⟩
  | apply f a => exact ⟨a, by simp [children], mentions_apply.1 h⟩

/-- The parts of a term mention what it mentions. -/
theorem MentionsOnly.child {names : String → Prop} {t u : Term} (h : t.MentionsOnly names)
    (hu : u ∈ t.children) : u.MentionsOnly names := by
  intro name hname
  apply h name
  cases t with
  | sum terms | product factors | matrix rows columns entries =>
    simpa using ⟨u, hu, hname⟩
  | power a b | quotient a b =>
    rcases List.mem_pair.1 hu with rfl | rfl <;> simp [hname]
  | negation a | apply f a =>
    obtain rfl := List.mem_singleton.1 hu
    simpa using hname
  | _ => exact absurd hu List.not_mem_nil

end Term

variable {names : String → Prop}

/-- The terms that mention only the given names. -/
def Known.ofNames (names : String → Prop) : Known where
  terms := {t | t.MentionsOnly names}
  closed _ ht _ hu := ht.child hu

/-- Without new symbols, what comes to be known mentions no new names. -/
theorem Learns.mentionsOnly {k k' : Known} {ts : List Term} (h : Learns k ts k')
    (hts : ∀ name, Term.symbol name ∉ ts) (hk : ∀ t ∈ k, t.MentionsOnly names) :
    ∀ t ∈ k', t.MentionsOnly names := by
  induction h with
  | nil => exact hk
  | @cons k k' t ts hchildren _ ih =>
    apply ih fun name hname => hts name (List.mem_cons_of_mem t hname)
    rintro u (rfl | hu)
    · intro name hname
      have hsymbol : u ≠ .symbol name := fun hu => hts name (hu ▸ List.mem_cons_self)
      obtain ⟨v, hv, hname⟩ := hname.exists_child hsymbol
      exact hk v (hchildren v hv) name hname
    · exact hk u hu

/-- What is made of terms that mention only certain names, without new symbols, mentions only
    these. -/
theorem Build.StartsFrom.mentionsOnly {α : Type} [HoldsTerms α] {parts : List Term} {b : Build α}
    (h : b.StartsFrom parts) (hb : b.AddsNoSymbol) (hparts : ∀ t ∈ parts, t.MentionsOnly names) :
    ∀ t ∈ terms b.value, t.MentionsOnly names := by
  obtain ⟨k', hlearns, hvalue⟩ := h (Known.ofNames names) hparts
  intro t ht
  exact hlearns.mentionsOnly hb (fun _ hu => hu) t (hvalue t ht)

namespace Reduction

variable {s : Settings} {definitions definitions' : Definitions}

open Classical in
/-- The definitions of the given names that a lookup finds. -/
noncomputable def restrict (names : String → Prop) (definitions : Definitions) : Definitions :=
  definitions.filterMap fun d =>
    if names d.1 then (definitions.lookup d.1).map fun t => (d.1, t) else none

theorem of_mem_restrict {d : String × Term} (h : d ∈ restrict names definitions) :
    names d.1 ∧ definitions.lookup d.1 = some d.2 := by
  obtain ⟨d', -, hd⟩ := List.mem_filterMap.1 h
  split_ifs at hd with hname
  obtain ⟨t, ht, rfl⟩ := Option.map_eq_some_iff.1 hd
  exact ⟨hname, ht⟩

theorem lookup_restrict {name : String} (hname : names name) :
    (restrict names definitions).lookup name = definitions.lookup name := by
  cases hlookup : (restrict names definitions).lookup name with
  | some t => exact (of_mem_restrict (mem_of_lookup hlookup)).2.symm
  | none =>
    cases hdefined : definitions.lookup name with
    | none => rfl
    | some t =>
      have hkept : (name, t) ∈ restrict names definitions :=
        List.mem_filterMap.2 ⟨(name, t), mem_of_lookup hdefined, by simp [hname, hdefined]⟩
      simpa using List.lookup_eq_none_iff.1 hlookup (name, t) hkept

/-- Nothing but the definitions of the names is needed. -/
theorem AgreeOn.agreeOn_restrict (h : AgreeOn names definitions definitions') :
    AgreeOn names definitions (restrict names definitions) where
  lookup_eq _ hname := (lookup_restrict hname).symm
  closed := h.closed

theorem AgreeOn.mentionsOnly_of_mem_restrict (h : AgreeOn names definitions definitions') {t : Term}
    (ht : t ∈ terms (restrict names definitions)) : t.MentionsOnly names := by
  obtain ⟨d, hd, ht⟩ := mem_terms_list.1 ht
  obtain rfl : t = d.2 := by simpa using ht
  obtain ⟨hname, hlookup⟩ := of_mem_restrict hd
  exact h.closed d.1 d.2 hname hlookup

/-- A term that mentions only names among which definitions stay is reduced to such a term. -/
theorem AgreeOn.mentionsOnly_reduce (h : AgreeOn names definitions definitions') {t : Term}
    (ht : t.MentionsOnly names) : (reduce s definitions t).value.MentionsOnly names := by
  rw [h.agreeOn_restrict.reduce_eq fun _ => ht]
  have hstarts := startsFrom_reduce (s := s)
    (List.subset_append_left (terms (restrict names definitions)) [t])
    (List.mem_append_right _ List.mem_cons_self)
  refine hstarts.mentionsOnly (by simp) (fun u hu => ?_) _ (by simp)
  rcases List.mem_append.1 hu with hu | hu
  · exact h.mentionsOnly_of_mem_restrict hu
  · obtain rfl := List.mem_singleton.1 hu
    exact ht

end Reduction

end EquationSolver
