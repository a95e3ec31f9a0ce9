import EquationSolver.Proofs.Reading.Tokens
import EquationSolver.Term.Basic
import EquationSolver.Term.Parser
import Mathlib.Algebra.BigOperators.Group.List.Basic
import Mathlib.Algebra.Field.Basic
import Mathlib.Data.Rat.Cast.CharZero
import Mathlib.Tactic.Linarith

/-!
# What the rules of the grammar read

What a text means does not depend on what functions, constants and matrices are.  An
interpretation reads them in a field as it likes, and powers by any operation of two
arguments that leaves alone what is raised to one and turns the sign of an exponent into an
inverse.  As in every field of the library, the inverse of zero is zero.

Each rule of the grammar, given a budget for the tokens ahead, reads them up to a token that
cannot continue it, and the term that it returns has the value that the operators of the
grammar give to the parts.  The levels are unary expressions, factors behind a first one,
terms, further terms and whole expressions; a primary and a power are known by what their
rules do.  The terms that are written without loss are those without approximate numbers.
-/

namespace EquationSolver

/-! ### Interpretations of terms -/

/-- A meaning for the parts of terms in a field. -/
structure Interpretation (K : Type*) [Field K] where
  symbol : String → K
  constant : Constant → K
  undefined : K
  nonreal : K
  decimal : UInt64 → K
  function : Function → K → K
  /-- The matrices of each number of rows and columns, by their entries. -/
  matrix : Nat → Nat → List K → K
  power : K → K → K
  power_one : ∀ b, power b 1 = b
  power_neg : ∀ b (r : Rat), 0 < r → power b ((-r : Rat) : K) = (power b (r : K))⁻¹

namespace Interpretation

variable {K : Type*} [Field K] [CharZero K]

open Classical in
/-- The power that is zero but for the exponents one and minus one. -/
noncomputable def leastPower (b e : K) : K :=
  if e = 1 then b else if e = -1 then b⁻¹ else 0

theorem leastPower_neg (b : K) {r : Rat} (hr : 0 < r) :
    leastPower b ((-r : Rat) : K) = (leastPower b (r : K))⁻¹ := by
  have hne : ((-r : Rat) : K) ≠ 1 := by
    intro h
    have : -r = 1 := by exact_mod_cast h
    linarith
  have hne' : (r : K) ≠ -1 := by
    intro h
    have : r = -1 := by exact_mod_cast h
    linarith
  rw [leastPower, leastPower, if_neg hne, if_neg hne']
  by_cases h1 : r = 1
  · simp [h1]
  · have hr1 : (r : K) ≠ 1 := by exact_mod_cast h1
    have hneg : ((-r : Rat) : K) ≠ -1 := by
      intro h
      have : -r = -1 := by exact_mod_cast h
      exact h1 (neg_injective this)
    rw [if_neg hneg, if_neg hr1, inv_zero]

/-- There is an interpretation in every field of characteristic zero. -/
noncomputable instance : Inhabited (Interpretation K) where
  default := {
    symbol := fun _ => 0
    constant := fun _ => 0
    undefined := 0
    nonreal := 0
    decimal := fun _ => 0
    function := fun _ _ => 0
    matrix := fun _ _ _ => 0
    power := leastPower
    power_one := fun b => by simp [leastPower]
    power_neg := fun b _ hr => leastPower_neg b hr }

end Interpretation

namespace Term

variable {K : Type*} [Field K]

mutual

/-- The value of a term under an interpretation. -/
def interpret (I : Interpretation K) : Term → K
  | .number a => (a : K)
  | .decimal bits => I.decimal bits
  | .constant c => I.constant c
  | .symbol name => I.symbol name
  | .undefined => I.undefined
  | .nonreal => I.nonreal
  | .sum terms => (interpretAll I terms).sum
  | .product factors => (interpretAll I factors).prod
  | .power base exponent => I.power (interpret I base) (interpret I exponent)
  | .negation a => -interpret I a
  | .quotient a b => interpret I a / interpret I b
  | .apply f a => I.function f (interpret I a)
  | .matrix rows columns entries => I.matrix rows columns (interpretAll I entries)

def interpretAll (I : Interpretation K) : List Term → List K
  | [] => []
  | t :: ts => interpret I t :: interpretAll I ts

end

theorem interpretAll_eq_map (I : Interpretation K) (terms : List Term) :
    interpretAll I terms = terms.map (interpret I) := by
  induction terms with
  | nil => rfl
  | cons t ts ih => rw [interpretAll, ih, List.map_cons]

theorem interpret_sumOf (I : Interpretation K) (terms : List Term) :
    interpret I (sumOf terms) = (terms.map (interpret I)).sum := by
  match terms with
  | [] => simp [sumOf, zero, interpret]
  | [t] => simp [sumOf]
  | t :: u :: rest => simp only [sumOf, interpret, interpretAll_eq_map]

theorem interpret_productOf (I : Interpretation K) (factors : List Term) :
    interpret I (productOf factors) = (factors.map (interpret I)).prod := by
  match factors with
  | [] => simp [productOf, one, interpret]
  | [t] => simp [productOf]
  | t :: u :: rest => simp only [productOf, interpret, interpretAll_eq_map]

/-! ### Terms that are written without loss -/

/-- The names that do not stand for symbols. -/
def isReserved (name : String) : Bool :=
  name ∈ ["pi", "e", "i", "undef", "sqrt", "exp"] || (Function.ofName? name).isSome

/-- A name of a symbol: a letter with letters, numerals and underscores behind it, not too
    long, and not reserved. -/
structure IsIdentifier (name : String) : Prop where
  spelled : ∃ c text, name.toList = c :: text ∧ beginsName c = true ∧
    ∀ d ∈ text, continuesName d = true
  short : name.length ≤ maxNameLength
  not_reserved : isReserved name = false

mutual

/-- The term has no approximate number and is nowhere the missing value of a real
    computation, its symbols are identifiers, and its matrices have rows and columns.  As in
    every pool, no sum is empty, and the entries of a matrix fill its rows and columns. -/
def IsWritable : Term → Prop
  | .number _ | .constant _ | .undefined => True
  | .decimal _ | .nonreal => False
  | .symbol name => IsIdentifier name
  | .sum terms => terms ≠ [] ∧ AreWritable terms
  | .product factors => AreWritable factors
  | .power a b | .quotient a b => IsWritable a ∧ IsWritable b
  | .negation a | .apply _ a => IsWritable a
  | .matrix rows columns entries =>
    0 < rows ∧ 0 < columns ∧ entries.length = rows * columns ∧ AreWritable entries

def AreWritable : List Term → Prop
  | [] => True
  | t :: ts => IsWritable t ∧ AreWritable ts

end

end Term

namespace Parser

variable {α β : Type}

/-! ### Single steps -/

theorem value_bind_of_ok {p : Parser α} {f : α → Parser β} {tokens : List Lexeme}
    {read : α × List Lexeme} (h : (p tokens).value = .ok read) :
    ((p >>= f) tokens).value = (f read.1 read.2).value := by
  rw [bind_eq, Build.value_bind, h]

theorem value_bind_of_error {p : Parser α} {f : α → Parser β} {tokens : List Lexeme}
    {e : ParseError} (h : (p tokens).value = .error e) :
    ((p >>= f) tokens).value = .error e := by
  rw [bind_eq, Build.value_bind, h]
  rfl

/-- The rule reads something from the tokens, and leaves the rest. -/
def Yields (p : Parser α) (tokens : List Lexeme) (a : α) (rest : List Lexeme) : Prop :=
  (p tokens).value = .ok (a, rest)

namespace Yields

variable {tokens middle rest : List Lexeme} {a : α} {b : β}

theorem bind {p : Parser α} {f : α → Parser β} (hp : Yields p tokens a middle)
    (hf : Yields (f a) middle b rest) : Yields (p >>= f) tokens b rest :=
  (value_bind_of_ok hp).trans hf

theorem pure : Yields (pure a) tokens a tokens := rfl

theorem build (b : Build α) : Yields (build b) tokens b.value tokens := rfl

theorem skip {lexeme : Lexeme} : Yields skip (lexeme :: rest) () rest := rfl

/-- A rule that looks at the token ahead. -/
theorem peek {f : Option Token → Parser β}
    (hf : Yields (f (tokens.head?.map Lexeme.token)) tokens b rest) :
    Yields (Parser.peek >>= f) tokens b rest :=
  bind (p := Parser.peek) rfl hf

theorem expect {token : Token} {lexeme : Lexeme} (h : lexeme.token = token) :
    Yields (expect token) (lexeme :: rest) () rest := by
  apply peek
  simp only [List.head?_cons, Option.map_some, h, if_true]
  exact skip

end Yields

/-! ### Rules -/

/-- With a budget in proportion to the tokens, and the end or a token that stops the rule
    behind them, the rule reads all of them and returns something with the property. -/
def Reads (rule : Nat → Parser α) (cost : Nat) (stops : Token → Bool) (tokens : List Token)
    (P : α → Prop) : Prop :=
  ∀ (lexemes rest : List Lexeme) (budget : Nat), lexemes.map Lexeme.token = tokens →
    (∀ lexeme ∈ rest.head?, stops lexeme.token = true) → 16 * tokens.length + cost ≤ budget →
    ∃ a, Yields (rule budget) (lexemes ++ rest) a rest ∧ P a

/-- Before the end or a token that stops it, the parser takes the tokens and returns
    something with the property. -/
def Takes (p : Parser α) (stops : Token → Bool) (tokens : List Token) (P : α → Prop) : Prop :=
  ∀ lexemes rest : List Lexeme, lexemes.map Lexeme.token = tokens →
    (∀ lexeme ∈ rest.head?, stops lexeme.token = true) →
    ∃ a, Yields p (lexemes ++ rest) a rest ∧ P a

namespace Takes

variable {p : Parser α} {f : α → Parser β} {stops stops' : Token → Bool}
  {tokens others : List Token} {token : Token} {P P' : α → Prop} {Q : β → Prop}

theorem mono (h : Takes p stops tokens P) (hP : ∀ a, P a → P' a) : Takes p stops tokens P' := by
  intro lexemes rest htokens hrest
  obtain ⟨a, ha, hPa⟩ := h lexemes rest htokens hrest
  exact ⟨a, ha, hP a hPa⟩

theorem pure {a : α} (h : P a) : Takes (pure a) stops [] P := by
  intro lexemes rest htokens hrest
  obtain rfl := List.map_eq_nil_iff.1 htokens
  exact ⟨a, Yields.pure, h⟩

theorem build {b : Build α} (h : P b.value) : Takes (build b) stops [] P := by
  intro lexemes rest htokens hrest
  obtain rfl := List.map_eq_nil_iff.1 htokens
  exact ⟨b.value, Yields.build b, h⟩

theorem build_bind {b : Build α} (h : Takes (f b.value) stops tokens Q) :
    Takes (Parser.build b >>= f) stops tokens Q := by
  intro lexemes rest htokens hrest
  obtain ⟨c, hc, hQ⟩ := h lexemes rest htokens hrest
  exact ⟨c, (Yields.build b).bind hc, hQ⟩

/-- What comes next stops the first parser: it is taken by the second one, or behind it. -/
theorem bind (h : Takes p stops tokens P) (hbegins : ∀ token ∈ others.head?, stops token = true)
    (hstops : others = [] → ∀ token, stops' token = true → stops token = true)
    (hf : ∀ a, P a → Takes (f a) stops' others Q) :
    Takes (p >>= f) stops' (tokens ++ others) Q := by
  intro lexemes rest htokens hrest
  obtain ⟨before, behind, rfl, hbefore, hbehind⟩ := List.map_eq_append_iff.1 htokens
  have hahead : ∀ lexeme ∈ (behind ++ rest).head?, stops lexeme.token = true := by
    subst hbehind
    cases behind with
    | nil =>
      intro lexeme hl
      exact hstops rfl _ (hrest lexeme hl)
    | cons lexeme behind => simpa using hbegins
  obtain ⟨a, ha, hPa⟩ := h before (behind ++ rest) hbefore hahead
  obtain ⟨b, hb, hQb⟩ := hf a hPa behind rest hbehind hrest
  refine ⟨b, ?_, hQb⟩
  rw [List.append_assoc]
  exact ha.bind hb

/-- The second parser takes nothing. -/
theorem last (h : Takes p stops tokens P) (hf : ∀ a, P a → Takes (f a) stops [] Q) :
    Takes (p >>= f) stops tokens Q := by
  rw [← List.append_nil tokens]
  refine h.bind ?_ (fun _ _ hstop => hstop) hf
  intro token htoken
  cases htoken

theorem skip {p : Parser α} (h : Takes p stops tokens P) :
    Takes (skip >>= fun _ => p) stops (token :: tokens) P := by
  intro lexemes rest htokens hrest
  obtain ⟨lexeme, lexemes, rfl, -, htokens⟩ := List.map_eq_cons_iff.1 htokens
  obtain ⟨a, ha, hPa⟩ := h lexemes rest htokens hrest
  exact ⟨a, Yields.skip.bind ha, hPa⟩

theorem expect {p : Parser α} (h : Takes p stops tokens P) :
    Takes (expect token >>= fun _ => p) stops (token :: tokens) P := by
  intro lexemes rest htokens hrest
  obtain ⟨lexeme, lexemes, rfl, htoken, htokens⟩ := List.map_eq_cons_iff.1 htokens
  obtain ⟨a, ha, hPa⟩ := h lexemes rest htokens hrest
  exact ⟨a, (Yields.expect htoken).bind ha, hPa⟩

/-- The token ahead is the first that is taken. -/
theorem peek {f : Option Token → Parser β} (htoken : token ∈ tokens.head?)
    (h : Takes (f (some token)) stops tokens Q) : Takes (Parser.peek >>= f) stops tokens Q := by
  intro lexemes rest htokens hrest
  obtain ⟨b, hb, hQb⟩ := h lexemes rest htokens hrest
  have hahead : (lexemes ++ rest).head?.map Lexeme.token = some token := by
    subst htokens
    cases lexemes with
    | nil => simp at htoken
    | cons lexeme lexemes => simpa using htoken
  refine ⟨b, Yields.peek ?_, hQb⟩
  rw [hahead]
  exact hb

/-- Nothing is taken: the token ahead, if there is one, stops the parser. -/
theorem peek_end {f : Option Token → Parser β}
    (h : ∀ ahead : Option Token, (∀ token ∈ ahead, stops token = true) →
      Takes (f ahead) stops [] Q) : Takes (Parser.peek >>= f) stops [] Q := by
  intro lexemes rest htokens hrest
  obtain rfl := List.map_eq_nil_iff.1 htokens
  have hstop : ∀ token ∈ rest.head?.map Lexeme.token, stops token = true := by
    intro token htoken
    obtain ⟨lexeme, hl, rfl⟩ := Option.map_eq_some_iff.1 htoken
    exact hrest lexeme hl
  obtain ⟨b, hb, hQb⟩ := h _ hstop [] rest rfl hrest
  exact ⟨b, Yields.peek hb, hQb⟩

end Takes

theorem Reads.takes {rule : Nat → Parser α} {cost budget : Nat} {stops : Token → Bool}
    {tokens : List Token} {P : α → Prop} (h : Reads rule cost stops tokens P)
    (hbudget : 16 * tokens.length + cost ≤ budget) : Takes (rule budget) stops tokens P := by
  intro lexemes rest htokens hrest
  exact h lexemes rest budget htokens hrest hbudget

/-- A rule spends one unit of its budget before it looks at a token. -/
theorem reads_of_takes {rule : Nat → Parser α} {cost : Nat} {stops : Token → Bool}
    {tokens : List Token} {P : α → Prop}
    (h : ∀ budget, 16 * tokens.length + cost ≤ budget →
      Takes (rule (budget + 1)) stops tokens P) : Reads rule (cost + 1) stops tokens P := by
  intro lexemes rest budget htokens hrest hbudget
  cases budget with
  | zero => omega
  | succ budget => exact h budget (by omega) lexemes rest htokens hrest

end Parser

namespace Token

/-- The token does not continue a power. -/
def stopsPower (token : Token) : Bool :=
  token ≠ .caret

def stopsTerm (token : Token) : Bool :=
  token.stopsPower && token ≠ .star && token ≠ .slash && !token.beginsOperand

def stopsExpression (token : Token) : Bool :=
  token.stopsTerm && token ≠ .plus && token ≠ .minus

theorem stopsPower_of_stopsTerm {token : Token} (h : token.stopsTerm = true) :
    token.stopsPower = true := by
  simp only [stopsTerm, Bool.and_eq_true] at h
  exact h.1.1.1

theorem stopsTerm_of_stopsExpression {token : Token} (h : token.stopsExpression = true) :
    token.stopsTerm = true := by
  simp only [stopsExpression, Bool.and_eq_true] at h
  exact h.1.1

end Token

namespace Parser

variable {K : Type*} [Field K] (I : Interpretation K)

/-- The tokens are an operand, perhaps with an exponent, of the given value. -/
structure IsPower (tokens : List Token) (v : K) : Prop where
  begins : ∃ token ∈ tokens.head?, token.beginsOperand = true
  reads : Reads power 2 Token.stopsPower tokens (Term.interpret I · = v)

/-- The tokens are an operand of the given value. -/
structure IsPrimary (tokens : List Token) (v : K) : Prop where
  begins : ∃ token ∈ tokens.head?, token.beginsOperand = true
  reads : Reads primary 1 (fun _ => true) tokens (Term.interpret I · = v)

/-- The tokens are signs before a power. -/
inductive IsUnary : List Token → K → Prop
  | power {tokens : List Token} {v : K} (h : IsPower I tokens v) : IsUnary tokens v
  | minus {tokens : List Token} {v : K} (h : IsUnary tokens v) : IsUnary (.minus :: tokens) (-v)

/-- The tokens are factors and divisors behind a first factor, which they multiply by the
    given value. -/
inductive AreFactors : List Token → K → Prop
  | nil : AreFactors [] 1
  | star {tokens others : List Token} {v w : K} (h : IsUnary I tokens v)
      (hothers : AreFactors others w) : AreFactors (.star :: (tokens ++ others)) (v * w)
  | slash {tokens others : List Token} {v w : K} (h : IsUnary I tokens v)
      (hothers : AreFactors others w) : AreFactors (.slash :: (tokens ++ others)) (v⁻¹ * w)

/-- The tokens are a first factor with factors and divisors behind it. -/
inductive IsTerm : List Token → K → Prop
  | intro {tokens others : List Token} {v w : K} (h : IsUnary I tokens v)
      (hothers : AreFactors I others w) : IsTerm (tokens ++ others) (v * w)

/-- The tokens are terms behind a first one, each with its sign. -/
inductive AreTerms : List Token → K → Prop
  | nil : AreTerms [] 0
  | plus {tokens others : List Token} {v w : K} (h : IsTerm I tokens v)
      (hothers : AreTerms others w) : AreTerms (.plus :: (tokens ++ others)) (v + w)
  | minus {tokens others : List Token} {v w : K} (h : IsTerm I tokens v)
      (hothers : AreTerms others w) : AreTerms (.minus :: (tokens ++ others)) (-v + w)

/-- The tokens are a first term with others behind it. -/
inductive IsExpression : List Token → K → Prop
  | intro {tokens others : List Token} {v w : K} (h : IsTerm I tokens v)
      (hothers : AreTerms I others w) : IsExpression (tokens ++ others) (v + w)

variable {I}

/-! ### Signs, factors and terms -/

theorem IsUnary.reads {tokens : List Token} {v : K} (h : IsUnary I tokens v) :
    Reads unary 3 Token.stopsPower tokens (Term.interpret I · = v) := by
  induction h with
  | power h =>
    apply reads_of_takes
    intro budget hbudget
    obtain ⟨token, hhead, hbegins⟩ := h.begins
    rw [unary]
    apply Takes.peek hhead
    have hpower := h.reads.takes hbudget
    cases token <;> first | exact hpower | simp [Token.beginsOperand] at hbegins
  | minus h ih =>
    apply reads_of_takes
    intro budget hbudget
    rw [List.length_cons] at hbudget
    rw [unary]
    apply Takes.peek rfl
    apply Takes.skip
    apply (ih.takes (by omega)).last
    intro t ht
    exact Takes.build (by simp [Term.interpret, ht])

theorem AreFactors.stops {tokens : List Token} {v : K} (h : AreFactors I tokens v) :
    ∀ token ∈ tokens.head?, token.stopsPower = true := by
  cases h <;> simp [Token.stopsPower]

/-- Factors behind factors multiply. -/
theorem AreFactors.append {a b : List Token} {v w : K} (ha : AreFactors I a v)
    (hb : AreFactors I b w) : AreFactors I (a ++ b) (v * w) := by
  induction ha with
  | nil => simpa using hb
  | star h _ ih =>
    rw [List.cons_append, List.append_assoc, mul_assoc]
    exact .star h ih
  | slash h _ ih =>
    rw [List.cons_append, List.append_assoc, mul_assoc]
    exact .slash h ih

theorem AreFactors.reads {tokens : List Token} {v : K} (h : AreFactors I tokens v)
    (first : Term) : Reads (moreFactors · first) 1 Token.stopsTerm tokens
      (Term.interpret I · = first.interpret I * v) := by
  induction h generalizing first with
  | nil =>
    apply reads_of_takes
    intro budget hbudget
    rw [moreFactors]
    apply Takes.peek_end
    intro ahead hstop
    have hfirst : Takes (pure first) Token.stopsTerm []
        (Term.interpret I · = first.interpret I * 1) := Takes.pure (by simp)
    cases ahead with
    | none => exact hfirst
    | some token =>
      have hstop := hstop token rfl
      cases token <;> first
        | exact hfirst
        | simp [Token.stopsTerm, Token.beginsOperand] at hstop
  | star h hothers ih =>
    apply reads_of_takes
    intro budget hbudget
    simp only [List.length_cons, List.length_append] at hbudget
    rw [moreFactors]
    apply Takes.peek rfl
    apply Takes.skip
    apply (h.reads.takes (by omega)).bind hothers.stops fun _ _ => Token.stopsPower_of_stopsTerm
    intro t ht
    apply Takes.build_bind
    apply ((ih (Term.productOf [first, t])).takes (by omega)).mono
    intro u hu
    rw [hu, Term.interpret_productOf]
    simp [ht, mul_assoc]
  | slash h hothers ih =>
    apply reads_of_takes
    intro budget hbudget
    simp only [List.length_cons, List.length_append] at hbudget
    rw [moreFactors]
    apply Takes.peek rfl
    apply Takes.skip
    apply (h.reads.takes (by omega)).bind hothers.stops fun _ _ => Token.stopsPower_of_stopsTerm
    intro t ht
    apply Takes.build_bind
    apply ((ih (.quotient first t)).takes (by omega)).mono
    intro u hu
    rw [hu]
    simp [Term.interpret, ht, div_eq_mul_inv, mul_assoc]

theorem IsTerm.reads {tokens : List Token} {v : K} (h : IsTerm I tokens v) :
    Reads term 4 Token.stopsTerm tokens (Term.interpret I · = v) := by
  obtain ⟨h, hothers⟩ := h
  apply reads_of_takes
  intro budget hbudget
  rw [List.length_append] at hbudget
  rw [term]
  apply (h.reads.takes (by omega)).bind hothers.stops fun _ _ => Token.stopsPower_of_stopsTerm
  intro t ht
  rw [← ht]
  exact (hothers.reads t).takes (by omega)

/-! ### Sums -/

theorem AreTerms.stops {tokens : List Token} {v : K} (h : AreTerms I tokens v) :
    ∀ token ∈ tokens.head?, token.stopsTerm = true := by
  cases h <;> simp [Token.stopsTerm, Token.stopsPower, Token.beginsOperand]

theorem AreTerms.reads {tokens : List Token} {v : K} (h : AreTerms I tokens v) :
    Reads moreTerms 1 Token.stopsExpression tokens fun ts =>
      (ts.map (Term.interpret I)).sum = v := by
  induction h with
  | nil =>
    apply reads_of_takes
    intro budget hbudget
    rw [moreTerms]
    apply Takes.peek_end
    intro ahead hstop
    cases ahead with
    | none => exact Takes.pure (by simp)
    | some token =>
      have hstop := hstop token rfl
      cases token <;> first
        | exact Takes.pure (by simp)
        | simp [Token.stopsExpression] at hstop
  | plus h hothers ih =>
    apply reads_of_takes
    intro budget hbudget
    simp only [List.length_cons, List.length_append] at hbudget
    rw [moreTerms]
    apply Takes.peek rfl
    apply Takes.skip
    apply (h.reads.takes (by omega)).bind hothers.stops
      fun _ _ => Token.stopsTerm_of_stopsExpression
    intro t ht
    apply (ih.takes (by omega)).last
    intro ts hts
    exact Takes.pure (by simp [ht, hts])
  | minus h hothers ih =>
    apply reads_of_takes
    intro budget hbudget
    simp only [List.length_cons, List.length_append] at hbudget
    rw [moreTerms]
    apply Takes.peek rfl
    apply Takes.skip
    apply (h.reads.takes (by omega)).bind hothers.stops
      fun _ _ => Token.stopsTerm_of_stopsExpression
    intro t ht
    apply Takes.build_bind
    apply (ih.takes (by omega)).last
    intro ts hts
    exact Takes.pure (by simp [Term.interpret, ht, hts])

theorem IsExpression.reads {tokens : List Token} {v : K} (h : IsExpression I tokens v) :
    Reads expression 5 Token.stopsExpression tokens (Term.interpret I · = v) := by
  obtain ⟨h, hothers⟩ := h
  apply reads_of_takes
  intro budget hbudget
  rw [List.length_append] at hbudget
  rw [expression]
  apply (h.reads.takes (by omega)).bind hothers.stops
      fun _ _ => Token.stopsTerm_of_stopsExpression
  intro t ht
  apply (hothers.reads.takes (by omega)).last
  intro ts hts
  apply Takes.build
  rw [Build.value_sum, Term.interpret_sumOf, List.map_cons, List.sum_cons, ht, hts]

end Parser

end EquationSolver
