import EquationSolver.Proofs.Reduction.Results
import Mathlib.Data.Finset.Card
import Mathlib.Logic.Relation

/-!
# What symbols mean

A reduced term is put together from the reduced forms of its symbols.  A symbol without a definition
means itself, one with a definition means the reduced form of it, and one whose definition leads
back to it means nothing.  Wherever such meanings exist, a reducer finds them, whatever names are
being expanded: nothing that it remembers depends on where it was found.
-/

namespace EquationSolver

namespace Reduction

open Step

/-! ### Terms with given meanings of symbols -/

mutual

/-- The reduced form of a term whose symbols stand for reduced terms. -/
def reduceUnder (s : Settings) (meaning : String → Term) : Term → Term
  | .symbol name => meaning name
  | .sum terms => (add (reduceAllUnder s meaning terms)).value
  | .product factors => (mul s (reduceAllUnder s meaning factors)).value
  | .power a b => (pow s (reduceUnder s meaning a) (reduceUnder s meaning b)).value
  | .negation a => (mul s [.number (-1), reduceUnder s meaning a]).value
  | .quotient a b =>
    (mul s [reduceUnder s meaning a, (pow s (reduceUnder s meaning b) (.number (-1))).value]).value
  | .apply f a => (apply s f (reduceUnder s meaning a)).value
  | .matrix rows columns entries => .matrix rows columns (reduceAllUnder s meaning entries)
  | t => t

def reduceAllUnder (s : Settings) (meaning : String → Term) : List Term → List Term
  | [] => []
  | t :: ts => reduceUnder s meaning t :: reduceAllUnder s meaning ts

end

section Under

variable {s : Settings} {meaning meaning' : String → Term}

@[simp] theorem reduceUnder_symbol (name : String) :
    reduceUnder s meaning (.symbol name) = meaning name := by
  simp only [reduceUnder]

theorem reduceAllUnder_eq_map (ts : List Term) :
    reduceAllUnder s meaning ts = ts.map (reduceUnder s meaning) := by
  induction ts with
  | nil => rfl
  | cons t ts ih => rw [reduceAllUnder, ih, List.map_cons]

mutual

/-- Only the meanings of the symbols that occur in a term matter. -/
theorem reduceUnder_congr : ∀ {t : Term},
    (∀ name, t.Mentions name → meaning name = meaning' name) →
      reduceUnder s meaning t = reduceUnder s meaning' t
  | .number _, _ | .decimal _, _ | .constant _, _ | .undefined, _ | .nonreal, _ => by
    simp only [reduceUnder]
  | .symbol name, h => by
    rw [reduceUnder_symbol, reduceUnder_symbol, h name (by simp)]
  | .sum terms, h | .product terms, h | .matrix _ _ terms, h => by
    have hterms : reduceAllUnder s meaning terms = reduceAllUnder s meaning' terms :=
      reduceAllUnder_congr fun t ht name hname => h name (by simpa using ⟨t, ht, hname⟩)
    simp only [reduceUnder, hterms]
  | .power a b, h | .quotient a b, h => by
    have ha := reduceUnder_congr (t := a) fun name hname => h name (by simp [hname])
    have hb := reduceUnder_congr (t := b) fun name hname => h name (by simp [hname])
    simp only [reduceUnder, ha, hb]
  | .negation a, h | .apply _ a, h => by
    have ha := reduceUnder_congr (t := a) fun name hname => h name (by simpa using hname)
    simp only [reduceUnder, ha]

theorem reduceAllUnder_congr : ∀ {terms : List Term},
    (∀ t ∈ terms, ∀ name, t.Mentions name → meaning name = meaning' name) →
      reduceAllUnder s meaning terms = reduceAllUnder s meaning' terms
  | [], _ => by simp only [reduceAllUnder]
  | t :: ts, h => by
    obtain ⟨ht, hts⟩ := List.forall_mem_cons.1 h
    simp only [reduceAllUnder, reduceUnder_congr ht, reduceAllUnder_congr hts]

end

end Under

/-! ### Steps that find what is meant -/

/-- What is remembered of a term is its reduced form under the meanings. -/
def IsFaithful (s : Settings) (meaning : String → Term) (memory : Memory) : Prop :=
  ∀ t result, memory[t]? = some result → result = reduceUnder s meaning t

/-- The step comes to the value, whatever it remembers, and remembers nothing wrong. -/
def Finds {α : Type} (s : Settings) (meaning : String → Term) (value : α) (step : Step α) : Prop :=
  ∀ memory, IsFaithful s meaning memory →
    (step memory).value.1 = value ∧ IsFaithful s meaning (step memory).value.2

theorem isFaithful_empty (s : Settings) (meaning : String → Term) : IsFaithful s meaning {} := by
  intro t result ht
  simp at ht

section Steps

variable {s : Settings} {meaning : String → Term} {α β : Type} {a : α} {b : β}

theorem finds_pure (a : α) : Finds s meaning a (pure a) :=
  fun _ hmemory => ⟨rfl, hmemory⟩

theorem finds_ofBuild (built : Build α) : Finds s meaning built.value (ofBuild built) :=
  fun _ hmemory => ⟨rfl, hmemory⟩

theorem Finds.bind {step : Step α} {f : α → Step β} (h : Finds s meaning a step)
    (hf : Finds s meaning b (f a)) : Finds s meaning b (step >>= f) := by
  intro memory hmemory
  obtain ⟨hvalue, hafter⟩ := h memory hmemory
  rw [value_step_bind, hvalue]
  exact hf _ hafter

/-- A result is remembered once it has been found. -/
theorem Finds.remember {t : Term} {step : Step Term}
    (h : Finds s meaning (reduceUnder s meaning t) step) :
    Finds s meaning (reduceUnder s meaning t) (Step.remember t step) := by
  intro memory hmemory
  cases hfound : memory[t]? with
  | some result =>
    unfold Step.remember
    rw [hfound]
    exact ⟨hmemory t result hfound, hmemory⟩
  | none =>
    obtain ⟨hvalue, hafter⟩ := h memory hmemory
    rw [value_remember_of_none hfound]
    refine ⟨hvalue, fun u result hu => ?_⟩
    rw [Std.HashMap.getElem?_insert] at hu
    split at hu
    case isTrue heq => rw [← Option.some.inj hu, hvalue, eq_of_beq heq]
    case isFalse => exact hafter u result hu

variable {symbol : String → Step Term}

mutual

/-- Steps that find the meanings of the symbols in a term lead to its reduced form. -/
theorem finds_reduceTerm : ∀ {t : Term},
    (∀ name, t.Mentions name → Finds s meaning (meaning name) (symbol name)) →
      Finds s meaning (reduceUnder s meaning t) (reduceTerm s symbol t)
  | .number _, _ | .decimal _, _ | .constant _, _ | .undefined, _ | .nonreal, _ => by
    simp only [reduceTerm, reduceUnder]
    exact finds_pure _
  | .symbol name, h => by
    rw [reduceTerm]
    refine Finds.remember ?_
    rw [reduceUnder_symbol]
    exact h name (by simp)
  | .sum terms, h | .product terms, h | .matrix _ _ terms, h => by
    have hterms : Finds s meaning (reduceAllUnder s meaning terms) (reduceTerms s symbol terms) :=
      finds_reduceTerms fun t ht name hname => h name (by simpa using ⟨t, ht, hname⟩)
    rw [reduceTerm]
    refine Finds.remember ?_
    rw [reduceUnder]
    exact hterms.bind (finds_ofBuild _)
  | .power a b, h => by
    have ha := finds_reduceTerm (t := a) fun name hname => h name (by simp [hname])
    have hb := finds_reduceTerm (t := b) fun name hname => h name (by simp [hname])
    rw [reduceTerm]
    refine Finds.remember ?_
    rw [reduceUnder]
    exact ha.bind (hb.bind (finds_ofBuild _))
  | .negation a, h => by
    have ha := finds_reduceTerm (t := a) fun name hname => h name (by simpa using hname)
    rw [reduceTerm]
    refine Finds.remember ?_
    rw [reduceUnder]
    exact ha.bind (finds_ofBuild (Build.number (-1) >>= fun minusOne =>
      mul s [minusOne, reduceUnder s meaning a]))
  | .quotient a b, h => by
    have ha := finds_reduceTerm (t := a) fun name hname => h name (by simp [hname])
    have hb := finds_reduceTerm (t := b) fun name hname => h name (by simp [hname])
    rw [reduceTerm]
    refine Finds.remember ?_
    rw [reduceUnder]
    exact ha.bind (hb.bind (finds_ofBuild (Build.number (-1) >>= fun minusOne =>
      pow s (reduceUnder s meaning b) minusOne >>= fun inverse =>
        mul s [reduceUnder s meaning a, inverse])))
  | .apply f a, h => by
    have ha := finds_reduceTerm (t := a) fun name hname => h name (by simpa using hname)
    rw [reduceTerm]
    refine Finds.remember ?_
    rw [reduceUnder]
    exact ha.bind (finds_ofBuild _)

theorem finds_reduceTerms : ∀ {terms : List Term},
    (∀ t ∈ terms, ∀ name, t.Mentions name → Finds s meaning (meaning name) (symbol name)) →
      Finds s meaning (reduceAllUnder s meaning terms) (reduceTerms s symbol terms)
  | [], _ => by
    rw [reduceTerms, reduceAllUnder]
    exact finds_pure _
  | t :: ts, h => by
    obtain ⟨ht, hts⟩ := List.forall_mem_cons.1 h
    rw [reduceTerms, reduceAllUnder]
    exact (finds_reduceTerm ht).bind ((finds_reduceTerms hts).bind (finds_pure _))

end

end Steps

/-! ### Definitions that refer to each other -/

/-- The definition of the first name mentions the second. -/
def RefersTo (definitions : Definitions) (name other : String) : Prop :=
  ∃ definition, definitions.lookup name = some definition ∧ definition.Mentions other

/-- The definition of the name leads back to it, at once or through other definitions. -/
def IsCircular (definitions : Definitions) (name : String) : Prop :=
  Relation.TransGen (RefersTo definitions) name name

variable {definitions : Definitions} {name other : String} {definition : Term}

theorem RefersTo.lookup (h : RefersTo definitions name other) :
    ∃ definition, definitions.lookup name = some definition :=
  h.imp fun _ => And.left

theorem lookup_of_transGen (h : Relation.TransGen (RefersTo definitions) name other) :
    ∃ definition, definitions.lookup name = some definition := by
  obtain ⟨_, hrefers, -⟩ := Relation.TransGen.head'_iff.1 h
  exact hrefers.lookup

/-! ### Meanings of symbols -/

/-- A name that is kept means its symbol, one with a definition what the definition is reduced to,
    and a circular one nothing. -/
structure IsMeaningAt (s : Settings) (definitions : Definitions) (meaning : String → Term)
    (name : String) : Prop where
  kept : Leaves s definitions name → meaning name = .symbol name
  defined : s.symbols = .replaceDefined → ∀ definition,
    definitions.lookup name = some definition → meaning name = reduceUnder s meaning definition
  circular : s.symbols = .replaceDefined → IsCircular definitions name →
    meaning name = .undefined

variable {s : Settings} {meaning : String → Term} {expanding : List String} {levels : Nat}

/-- A symbol is reduced to its meaning, if the names that are being expanded all lead to it: one of
    them that is met again is circular. -/
theorem finds_reduceSymbol
    (hmeaning : ∀ other, Relation.ReflTransGen (RefersTo definitions) name other →
      IsMeaningAt s definitions meaning other)
    (hexpanding : IsExpanding definitions levels expanding)
    (hleads : ∀ other ∈ expanding, Relation.TransGen (RefersTo definitions) other name) :
    Finds s meaning (meaning name) (reduceSymbol s definitions levels expanding name) := by
  induction levels using Nat.strong_induction_on generalizing expanding name with
  | _ levels ih =>
    have hname := hmeaning name .refl
    cases hs : s.symbols with
    | keepAll =>
      rw [reduceSymbol_keepAll hs, hname.kept fun h => nomatch hs.symm.trans h]
      exact finds_pure _
    | replaceDefined =>
      cases hlookup : definitions.lookup name with
      | none =>
        rw [reduceSymbol_of_undefined hlookup, hname.kept fun _ => hlookup]
        exact finds_pure _
      | some definition =>
        by_cases hmem : name ∈ expanding
        · rw [reduceSymbol_of_mem_expanding hs hlookup hmem, hname.circular hs (hleads name hmem)]
          exact finds_ofBuild _
        · obtain ⟨lower, rfl, hlower⟩ := hexpanding.exists_level hlookup hmem
          rw [reduceSymbol_of_definition hs hlookup hmem, hname.defined hs definition hlookup]
          refine finds_reduceTerm fun other hother => ?_
          have hrefers : RefersTo definitions name other := ⟨definition, hlookup, hother⟩
          refine ih lower (by omega) (fun further hfurther => ?_) hlower ?_
          · exact hmeaning further (hfurther.head hrefers)
          · refine List.forall_mem_cons.2 ⟨.single hrefers, fun earlier hearlier => ?_⟩
            exact (hleads earlier hearlier).tail hrefers

/-- The names that occur in a term or that definitions lead to from there. -/
def ReachesFrom (definitions : Definitions) (t : Term) (other : String) : Prop :=
  ∃ name, t.Mentions name ∧ Relation.ReflTransGen (RefersTo definitions) name other

theorem finds_reduceWith {t : Term}
    (hmeaning : ∀ name, ReachesFrom definitions t name → IsMeaningAt s definitions meaning name) :
    Finds s meaning (reduceUnder s meaning t) (reduceWith s definitions t) :=
  finds_reduceTerm fun name hname => finds_reduceSymbol
    (fun other hother => hmeaning other ⟨name, hname, hother⟩) (isExpanding_nil definitions)
    fun _ hmem => absurd hmem List.not_mem_nil

/-- A term is reduced to its reduced form under the meanings of its symbols. -/
theorem value_reduce {t : Term}
    (hmeaning : ∀ name, ReachesFrom definitions t name → IsMeaningAt s definitions meaning name) :
    (reduce s definitions t).value = reduceUnder s meaning t :=
  (finds_reduceWith hmeaning {} (isFaithful_empty s meaning)).1

/-! ### Existence of meanings -/

section Existence

variable {α : Type} {read : (String → α) → Term → α}

open Classical in
/-- What names mean if definitions are followed so many times: what a definition is read as, with
    the meanings of one time less. -/
noncomputable def meaningAfter (definitions : Definitions) (read : (String → α) → Term → α)
    (kept : String → α) (bottom : α) : Nat → String → α
  | 0, name => if (definitions.lookup name).isSome then bottom else kept name
  | rounds + 1, name =>
    if IsCircular definitions name then bottom
    else
      match definitions.lookup name with
      | some definition => read (meaningAfter definitions read kept bottom rounds) definition
      | none => kept name

open Classical in
/-- The defined names to which the definition of a name leads. -/
noncomputable def reachedNames (definitions : Definitions) (name : String) : Finset String :=
  (definitions.map Prod.fst).toFinset.filter (Relation.TransGen (RefersTo definitions) name)

/-- A definition that is not circular leads to more names than those that it mentions do. -/
theorem card_reachedNames_lt (hrefers : RefersTo definitions name other)
    (hother : ¬IsCircular definitions other)
    (hdefined : ∃ definition, definitions.lookup other = some definition) :
    (reachedNames definitions other).card < (reachedNames definitions name).card := by
  classical
  apply Finset.card_lt_card
  rw [Finset.ssubset_iff_of_subset]
  · refine ⟨other, ?_, fun hmem => hother (Finset.mem_filter.1 hmem).2⟩
    obtain ⟨definition, hlookup⟩ := hdefined
    have hmem : other ∈ definitions.map Prod.fst := List.mem_map_of_mem (mem_of_lookup hlookup)
    exact Finset.mem_filter.2 ⟨List.mem_toFinset.2 hmem, .single hrefers⟩
  · intro further hfurther
    obtain ⟨hmem, hleads⟩ := Finset.mem_filter.1 hfurther
    exact Finset.mem_filter.2 ⟨hmem, hleads.head hrefers⟩

theorem card_reachedNames_le (definitions : Definitions) (name : String) :
    (reachedNames definitions name).card ≤ definitions.length := by
  classical
  calc (reachedNames definitions name).card
      ≤ (definitions.map Prod.fst).toFinset.card := Finset.card_filter_le _ _
    _ ≤ (definitions.map Prod.fst).length := List.toFinset_card_le _
    _ = definitions.length := List.length_map _

theorem meaningAfter_circular {kept : String → α} {bottom : α}
    (h : IsCircular definitions name) (rounds : Nat) :
    meaningAfter definitions read kept bottom rounds name = bottom := by
  cases rounds with
  | zero =>
    obtain ⟨definition, hlookup⟩ := lookup_of_transGen h
    rw [meaningAfter, hlookup]
    rfl
  | succ rounds => rw [meaningAfter, if_pos h]

/-- Once every name that a definition leads to has been followed, following it again makes no
    difference. -/
theorem meaningAfter_stable
    (hread : ∀ meaning meaning' t, (∀ name, t.Mentions name → meaning name = meaning' name) →
      read meaning t = read meaning' t)
    {kept : String → α} {bottom : α} {rounds : Nat}
    (h : (reachedNames definitions name).card < rounds) :
    meaningAfter definitions read kept bottom (rounds + 1) name =
      meaningAfter definitions read kept bottom rounds name := by
  induction rounds generalizing name with
  | zero => omega
  | succ rounds ih =>
    by_cases hcircular : IsCircular definitions name
    · rw [meaningAfter_circular hcircular, meaningAfter_circular hcircular]
    · rw [meaningAfter, meaningAfter, if_neg hcircular, if_neg hcircular]
      cases hlookup : definitions.lookup name with
      | none => rfl
      | some definition =>
        refine hread _ _ _ fun other hother => ?_
        have hrefers : RefersTo definitions name other := ⟨definition, hlookup, hother⟩
        by_cases hother : IsCircular definitions other
        · rw [meaningAfter_circular hother, meaningAfter_circular hother]
        · cases hdefined : definitions.lookup other with
          | none =>
            have hkept (rounds : Nat) :
                meaningAfter definitions read kept bottom rounds other = kept other := by
              cases rounds <;> simp [meaningAfter, hdefined, hother]
            rw [hkept, hkept]
          | some _ =>
            have hlt := card_reachedNames_lt hrefers hother ⟨_, hdefined⟩
            exact ih (by omega)

/-- There are meanings of all names: circular names mean what is given for them, and any other
    definition is read with the meanings of the names in it. -/
theorem exists_meaning (read : (String → α) → Term → α)
    (hread : ∀ meaning meaning' t, (∀ name, t.Mentions name → meaning name = meaning' name) →
      read meaning t = read meaning' t)
    (definitions : Definitions) (kept : String → α) (bottom : α) :
    ∃ meaning : String → α,
      (∀ name, IsCircular definitions name → meaning name = bottom) ∧
      (∀ name, definitions.lookup name = none → meaning name = kept name) ∧
      ∀ name definition, ¬IsCircular definitions name →
        definitions.lookup name = some definition → meaning name = read meaning definition := by
  let rounds := definitions.length + 1
  have hstable (name : String) :
      meaningAfter definitions read kept bottom (rounds + 1) name =
        meaningAfter definitions read kept bottom rounds name :=
    meaningAfter_stable hread (Nat.lt_succ_of_le (card_reachedNames_le definitions name))
  refine ⟨meaningAfter definitions read kept bottom rounds,
    fun name h => meaningAfter_circular h rounds, fun name h => ?_,
    fun name definition h hlookup => ?_⟩
  · have hnot : ¬IsCircular definitions name := by
      intro hcircular
      obtain ⟨definition, hlookup⟩ := lookup_of_transGen hcircular
      rw [h] at hlookup
      cases hlookup
    rw [meaningAfter, if_neg hnot, h]
  · rw [← hstable, meaningAfter, if_neg h, hlookup]

end Existence

end Reduction

end EquationSolver
