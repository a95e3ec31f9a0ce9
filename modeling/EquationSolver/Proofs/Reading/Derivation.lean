import EquationSolver.Proofs.Reading.Operands

/-!
# Derivations of the grammar

`Derives` says which tokens the rules of the grammar derive, and the term that each derivation
prescribes.  It knows nothing of budgets, of tokens ahead or of the order in which they are
read.  What a rule derives its parser reads, before any token that cannot continue it: no
derivation is missed.
-/

namespace EquationSolver

/-! ### The grammar -/

/-- The rules of the grammar; the repetitions in them are rules of their own. -/
inductive Rule where
  | expression
  /-- Terms behind a first one, each with its sign. -/
  | moreTerms
  | term
  /-- Factors and divisors behind what the term begins with. -/
  | moreFactors (first : Term)
  | unary
  | power
  | primary
  | row
  | moreEntries
  /-- Rows behind a first one of the given length. -/
  | moreRows (columns : Nat)

/-- What a rule derives: a term, several terms, or rows of terms. -/
abbrev Rule.Result : Rule → Type
  | moreTerms | row | moreEntries => List Term
  | moreRows _ => List (List Term)
  | expression | term | moreFactors _ | unary | power | primary => Term

/-- The names that are operands on their own and no symbols. -/
def constantNamed? (name : String) : Option Term :=
  if name = "pi" then some (.constant .pi)
  else if name = "e" then some (.constant .e)
  else if name = "i" then some (.constant .i)
  else if name = "undef" then some .undefined
  else none

/-- The names that take an argument in parentheses, and what they make of it. -/
def operatorNamed? (name : String) : Option (Term → Term) :=
  if name = "sqrt" then some Term.squareRoot
  else if name = "exp" then some (Term.power (.constant .e))
  else (Function.ofName? name).map Term.apply

/-- The rule derives the tokens and prescribes the result. -/
inductive Derives : (rule : Rule) → List Token → rule.Result → Prop
  | expression {ts us : List Token} {t : Term} {others : List Term}
      (ht : Derives .term ts t) (hothers : Derives .moreTerms us others) :
      Derives .expression (ts ++ us) (Term.sumOf (t :: others))
  | noTerms : Derives .moreTerms [] []
  | plus {ts us : List Token} {t : Term} {others : List Term}
      (ht : Derives .term ts t) (hothers : Derives .moreTerms us others) :
      Derives .moreTerms (.plus :: (ts ++ us)) (t :: others)
  | minus {ts us : List Token} {t : Term} {others : List Term}
      (ht : Derives .term ts t) (hothers : Derives .moreTerms us others) :
      Derives .moreTerms (.minus :: (ts ++ us)) (.negation t :: others)
  | term {ts us : List Token} {first t : Term}
      (hfirst : Derives .unary ts first) (hothers : Derives (.moreFactors first) us t) :
      Derives .term (ts ++ us) t
  | noFactors (first : Term) : Derives (.moreFactors first) [] first
  | star {ts us : List Token} {first factor t : Term} (hfactor : Derives .unary ts factor)
      (hothers : Derives (.moreFactors (.product [first, factor])) us t) :
      Derives (.moreFactors first) (.star :: (ts ++ us)) t
  | slash {ts us : List Token} {first divisor t : Term} (hdivisor : Derives .unary ts divisor)
      (hothers : Derives (.moreFactors (.quotient first divisor)) us t) :
      Derives (.moreFactors first) (.slash :: (ts ++ us)) t
  /-- The sign of a product is left out. -/
  | implicit {ts us : List Token} {first factor t : Term} (hfactor : Derives .power ts factor)
      (hothers : Derives (.moreFactors (.product [first, factor])) us t) :
      Derives (.moreFactors first) (ts ++ us) t
  | negative {ts : List Token} {t : Term} (ht : Derives .unary ts t) :
      Derives .unary (.minus :: ts) (.negation t)
  | positive {ts : List Token} {t : Term} (ht : Derives .unary ts t) :
      Derives .unary (.plus :: ts) t
  | unary {ts : List Token} {t : Term} (ht : Derives .power ts t) : Derives .unary ts t
  | power {ts : List Token} {t : Term} (ht : Derives .primary ts t) : Derives .power ts t
  | caret {ts us : List Token} {base exponent : Term} (hbase : Derives .primary ts base)
      (hexponent : Derives .unary us exponent) :
      Derives .power (ts ++ .caret :: us) (.power base exponent)
  | number {text : List Char} {a : Rat} (ha : Literal.ofChars? text = some a) :
      Derives .primary [.number text] (.number a)
  | pi : Derives .primary [.pi] (.constant .pi)
  | root {ts : List Token} {t : Term} (ht : Derives .primary ts t) :
      Derives .primary (.root :: ts) (.squareRoot t)
  | constant {text : List Char} {t : Term} (ht : constantNamed? (String.ofList text) = some t) :
      Derives .primary [.name text] t
  | application {text : List Char} {f : Term → Term} {ts : List Token} {t : Term}
      (hf : operatorNamed? (String.ofList text) = some f) (ht : Derives .expression ts t) :
      Derives .primary (.name text :: .openParen :: (ts ++ [.closeParen])) (f t)
  | symbol {text : List Char} (hconstant : constantNamed? (String.ofList text) = none)
      (hoperator : operatorNamed? (String.ofList text) = none)
      (hlength : text.length ≤ maxNameLength) :
      Derives .primary [.name text] (.symbol (String.ofList text))
  | parenthesized {ts : List Token} {t : Term} (ht : Derives .expression ts t) :
      Derives .primary (.openParen :: (ts ++ [.closeParen])) t
  | matrix {ts us : List Token} {first : List Term} {others : List (List Term)}
      (hfirst : Derives .row ts first) (hothers : Derives (.moreRows first.length) us others) :
      Derives .primary (.openBracket :: (ts ++ (us ++ [.closeBracket])))
        (.matrix (others.length + 1) first.length (first ++ others.flatten))
  | row {ts us : List Token} {first : Term} {others : List Term}
      (hfirst : Derives .expression ts first) (hothers : Derives .moreEntries us others) :
      Derives .row (.openBracket :: (ts ++ (us ++ [.closeBracket]))) (first :: others)
  | noEntries : Derives .moreEntries [] []
  | entry {ts us : List Token} {t : Term} {others : List Term}
      (ht : Derives .expression ts t) (hothers : Derives .moreEntries us others) :
      Derives .moreEntries (.comma :: (ts ++ us)) (t :: others)
  | noRows (columns : Nat) : Derives (.moreRows columns) [] []
  | nextRow {columns : Nat} {ts us : List Token} {terms : List Term} {others : List (List Term)}
      (hterms : Derives .row ts terms) (hlength : terms.length = columns)
      (hothers : Derives (.moreRows columns) us others) :
      Derives (.moreRows columns) (.comma :: (ts ++ us)) (terms :: others)

/-! ### What begins a derivation -/

namespace Derives

variable {ts : List Token}

theorem primary_head {t : Term} (h : Derives .primary ts t) :
    ∃ token ∈ ts.head?, token.beginsOperand = true := by
  cases h <;> exact ⟨_, rfl, rfl⟩

theorem power_head {t : Term} (h : Derives .power ts t) :
    ∃ token ∈ ts.head?, token.beginsOperand = true := by
  cases h with
  | power ht => exact ht.primary_head
  | caret hbase =>
    obtain ⟨token, hhead, hbegins⟩ := hbase.primary_head
    exact ⟨token, List.mem_head?_append_of_mem_head? hhead, hbegins⟩

theorem one_le_length_of_power {t : Term} (h : Derives .power ts t) : 1 ≤ ts.length := by
  obtain ⟨token, hhead, -⟩ := h.power_head
  exact List.length_pos_of_mem (List.mem_of_mem_head? hhead)

/-- Factors behind a unary expression do not continue its power. -/
theorem moreFactors_stops {first t : Term} (h : Derives (.moreFactors first) ts t) :
    ∀ token ∈ ts.head?, token.stopsPower = true := by
  cases h with
  | noFactors => simp
  | star | slash => simp [Token.stopsPower]
  | implicit hfactor =>
    obtain ⟨token, hhead, hbegins⟩ := hfactor.power_head
    intro token' hhead'
    obtain rfl := Option.mem_unique hhead' (List.mem_head?_append_of_mem_head? hhead)
    cases token' <;> first | rfl | cases hbegins

theorem moreTerms_stops {others : List Term} (h : Derives .moreTerms ts others) :
    ∀ token ∈ ts.head?, token.stopsTerm = true := by
  cases h <;> simp [Token.stopsTerm, Token.stopsPower, Token.beginsOperand]

theorem moreEntries_stops {others : List Term} (h : Derives .moreEntries ts others) :
    ∀ token ∈ ts.head?, token.stopsExpression = true := by
  cases h <;>
    simp [Token.stopsExpression, Token.stopsTerm, Token.stopsPower, Token.beginsOperand]

theorem moreEntries_stops_row {others : List Term} (h : Derives .moreEntries ts others) :
    ∀ token ∈ (ts ++ [Token.closeBracket]).head?, token.stopsExpression = true := by
  cases h <;>
    simp [Token.stopsExpression, Token.stopsTerm, Token.stopsPower, Token.beginsOperand]

end Derives

/-! ### Every derivation is read -/

namespace Rule

def parser : (rule : Rule) → Nat → Parser rule.Result
  | expression => Parser.expression
  | moreTerms => Parser.moreTerms
  | term => Parser.term
  | moreFactors first => (Parser.moreFactors · first)
  | unary => Parser.unary
  | power => Parser.power
  | primary => Parser.primary
  | row => Parser.row
  | moreEntries => Parser.moreEntries
  | moreRows columns => (Parser.moreRows · columns)

/-- The token does not continue what the rule derives. -/
def stops : Rule → Token → Bool
  | expression | moreTerms => Token.stopsExpression
  | term | moreFactors _ => Token.stopsTerm
  | unary | power => Token.stopsPower
  | moreEntries | moreRows _ => Parser.endsRow
  | primary | row => fun _ => true

/-- The budget that a rule needs beyond its tokens: the chain of rules down to an operand. -/
def cost : Rule → Nat
  | expression => 5
  | term => 4
  | unary | moreFactors _ => 3
  | power => 2
  | moreTerms | primary | row | moreEntries | moreRows _ => 1

end Rule

namespace Parser

/-! #### Names -/

theorem named_of_constant {name : String} {t : Term} (h : constantNamed? name = some t)
    (budget : Nat) : named (budget + 1) name = build (Build.make t) := by
  unfold constantNamed? at h
  rw [named]
  split_ifs at h <;> cases h <;> simp_all

theorem constantNamed?_of_operator {name : String} {f : Term → Term}
    (h : operatorNamed? name = some f) : constantNamed? name = none := by
  have hfunctions : ∀ g : Function, constantNamed? g.name = none := by
    intro g
    cases g <;> decide
  unfold operatorNamed? at h
  split_ifs at h with hsqrt hexp
  · subst hsqrt
    decide
  · subst hexp
    decide
  · obtain ⟨g, hg, rfl⟩ := Option.map_eq_some_iff.1 h
    have hname : g.name = name := by simpa using List.find?_some hg
    rw [← hname]
    exact hfunctions g

/-- A name that takes an argument builds what it makes of it. -/
theorem exists_named_of_operator {name : String} {f : Term → Term}
    (h : operatorNamed? name = some f) :
    ∃ g : Term → Build Term, (∀ t, (g t).value = f t) ∧
      ∀ budget, named (budget + 1) name = argument budget >>= fun t => build (g t) := by
  have hconstant := constantNamed?_of_operator h
  unfold constantNamed? at hconstant
  unfold operatorNamed? at h
  split_ifs at hconstant
  split_ifs at h
  case pos hsqrt =>
    cases h
    exact ⟨Build.squareRoot, fun t => rfl, fun budget => by rw [named]; simp_all⟩
  case pos hexp =>
    cases h
    refine ⟨fun t => do
      let e ← Build.make (.constant .e)
      Build.make (.power e t), fun t => rfl, fun budget => by rw [named]; simp_all⟩
  case neg =>
    obtain ⟨g, hg, rfl⟩ := Option.map_eq_some_iff.1 h
    exact ⟨fun t => Build.make (.apply g t), fun t => rfl, fun budget => by rw [named]; simp_all⟩

theorem named_of_symbol {name : String} (hconstant : constantNamed? name = none)
    (hoperator : operatorNamed? name = none) (budget : Nat) :
    named (budget + 1) name =
      if maxNameLength < name.length then fail (.nameTooLong name)
      else build (Build.make (.symbol name)) := by
  unfold constantNamed? at hconstant
  unfold operatorNamed? at hoperator
  rw [named]
  split_ifs at hconstant hoperator
  rw [Option.map_eq_none_iff] at hoperator
  simp_all

end Parser

/-! #### One lemma for each rule -/

/-- The parser of the rule reads the tokens, before the end or a token that does not continue
    it, and returns the result. -/
def Rule.IsRead (rule : Rule) (ts : List Token) (a : rule.Result) : Prop :=
  Parser.Reads rule.parser rule.cost rule.stops ts (· = a)

namespace Rule.IsRead

open EquationSolver.Parser (Takes reads_of_takes)

variable {rule : Rule} {ts us : List Token} {budget : Nat}

theorem takes {a : rule.Result} (h : rule.IsRead ts a)
    (hbudget : 16 * ts.length + rule.cost ≤ budget) :
    Takes (rule.parser budget) rule.stops ts (· = a) :=
  Parser.Reads.takes h hbudget

theorem expression {t : Term} {others : List Term} (ht : term.IsRead ts t)
    (hothers : moreTerms.IsRead us others) (hnext : Derives .moreTerms us others) :
    Rule.expression.IsRead (ts ++ us) (Term.sumOf (t :: others)) := by
  apply reads_of_takes
  intro budget hbudget
  rw [List.length_append] at hbudget
  rw [parser, Parser.expression]
  apply (ht.takes (by simp only [cost]; omega)).bind hnext.moreTerms_stops
    fun _ _ => Token.stopsTerm_of_stopsExpression
  rintro t rfl
  apply (hothers.takes (by simp only [cost]; omega)).last
  rintro others rfl
  exact Takes.build (Build.value_sum _)

theorem noTerms : moreTerms.IsRead [] [] := by
  apply reads_of_takes
  intro budget hbudget
  rw [parser, Parser.moreTerms]
  apply Takes.peek_end
  intro ahead hstop
  cases ahead with
  | none => exact Takes.pure rfl
  | some token =>
    have hstop := hstop token rfl
    cases token <;> first
      | exact Takes.pure rfl
      | simp [stops, Token.stopsExpression] at hstop

theorem plus {t : Term} {others : List Term} (ht : term.IsRead ts t)
    (hothers : moreTerms.IsRead us others) (hnext : Derives .moreTerms us others) :
    moreTerms.IsRead (.plus :: (ts ++ us)) (t :: others) := by
  apply reads_of_takes
  intro budget hbudget
  simp only [List.length_cons, List.length_append] at hbudget
  rw [parser, Parser.moreTerms]
  apply Takes.peek rfl
  apply Takes.skip
  apply (ht.takes (by simp only [cost]; omega)).bind hnext.moreTerms_stops
    fun _ _ => Token.stopsTerm_of_stopsExpression
  rintro t rfl
  apply (hothers.takes (by simp only [cost]; omega)).last
  rintro others rfl
  exact Takes.pure rfl

theorem minus {t : Term} {others : List Term} (ht : term.IsRead ts t)
    (hothers : moreTerms.IsRead us others) (hnext : Derives .moreTerms us others) :
    moreTerms.IsRead (.minus :: (ts ++ us)) (.negation t :: others) := by
  apply reads_of_takes
  intro budget hbudget
  simp only [List.length_cons, List.length_append] at hbudget
  rw [parser, Parser.moreTerms]
  apply Takes.peek rfl
  apply Takes.skip
  apply (ht.takes (by simp only [cost]; omega)).bind hnext.moreTerms_stops
    fun _ _ => Token.stopsTerm_of_stopsExpression
  rintro t rfl
  apply Takes.build_bind
  apply (hothers.takes (by simp only [cost]; omega)).last
  rintro others rfl
  exact Takes.pure rfl

theorem term {first t : Term} (hfirst : unary.IsRead ts first)
    (hothers : (moreFactors first).IsRead us t) (hnext : Derives (.moreFactors first) us t) :
    Rule.term.IsRead (ts ++ us) t := by
  apply reads_of_takes
  intro budget hbudget
  rw [List.length_append] at hbudget
  rw [parser, Parser.term]
  apply (hfirst.takes (by simp only [cost]; omega)).bind hnext.moreFactors_stops
    fun _ _ => Token.stopsPower_of_stopsTerm
  rintro first rfl
  exact hothers.takes (by simp only [cost]; omega)

theorem noFactors (first : Term) : (moreFactors first).IsRead [] first := by
  apply reads_of_takes
  intro budget hbudget
  simp only [parser, Parser.moreFactors]
  apply Takes.peek_end
  intro ahead hstop
  cases ahead with
  | none => exact Takes.pure rfl
  | some token =>
    have hstop := hstop token rfl
    cases token <;> first
      | exact Takes.pure rfl
      | simp [stops, Token.stopsTerm, Token.beginsOperand] at hstop

theorem star {first factor t : Term} (hfactor : unary.IsRead ts factor)
    (hothers : (moreFactors (.product [first, factor])).IsRead us t)
    (hnext : Derives (.moreFactors (.product [first, factor])) us t) :
    (moreFactors first).IsRead (.star :: (ts ++ us)) t := by
  apply reads_of_takes
  intro budget hbudget
  simp only [List.length_cons, List.length_append] at hbudget
  simp only [parser, Parser.moreFactors]
  apply Takes.peek rfl
  apply Takes.skip
  apply (hfactor.takes (by simp only [cost]; omega)).bind hnext.moreFactors_stops
    fun _ _ => Token.stopsPower_of_stopsTerm
  rintro factor rfl
  apply Takes.build_bind
  exact hothers.takes (by simp only [cost]; omega)

theorem slash {first divisor t : Term} (hdivisor : unary.IsRead ts divisor)
    (hothers : (moreFactors (.quotient first divisor)).IsRead us t)
    (hnext : Derives (.moreFactors (.quotient first divisor)) us t) :
    (moreFactors first).IsRead (.slash :: (ts ++ us)) t := by
  apply reads_of_takes
  intro budget hbudget
  simp only [List.length_cons, List.length_append] at hbudget
  simp only [parser, Parser.moreFactors]
  apply Takes.peek rfl
  apply Takes.skip
  apply (hdivisor.takes (by simp only [cost]; omega)).bind hnext.moreFactors_stops
    fun _ _ => Token.stopsPower_of_stopsTerm
  rintro divisor rfl
  apply Takes.build_bind
  exact hothers.takes (by simp only [cost]; omega)

/-- The factor is not announced by a sign: that it has a token makes up for the budget. -/
theorem implicit {first factor t : Term} (hfactor : power.IsRead ts factor)
    (hderives : Derives .power ts factor)
    (hothers : (moreFactors (.product [first, factor])).IsRead us t)
    (hnext : Derives (.moreFactors (.product [first, factor])) us t) :
    (moreFactors first).IsRead (ts ++ us) t := by
  have hlength := hderives.one_le_length_of_power
  obtain ⟨token, hhead, hbegins⟩ := hderives.power_head
  apply reads_of_takes
  intro budget hbudget
  rw [List.length_append] at hbudget
  have hread : Takes (do
      let factor ← Parser.power budget
      let longer ← Parser.build (Build.product [first, factor])
      Parser.moreFactors budget longer) Token.stopsTerm (ts ++ us) (· = t) := by
    apply (hfactor.takes (by simp only [cost]; omega)).bind hnext.moreFactors_stops
      fun _ _ => Token.stopsPower_of_stopsTerm
    rintro factor rfl
    apply Takes.build_bind
    exact hothers.takes (by simp only [cost]; omega)
  simp only [parser, Parser.moreFactors]
  apply Takes.peek (List.mem_head?_append_of_mem_head? hhead)
  cases token <;> first
    | exact hread
    | cases hbegins

theorem negative {t : Term} (ht : unary.IsRead ts t) :
    unary.IsRead (.minus :: ts) (.negation t) := by
  apply reads_of_takes
  intro budget hbudget
  rw [List.length_cons] at hbudget
  rw [parser, Parser.unary]
  apply Takes.peek rfl
  apply Takes.skip
  apply (ht.takes (by simp only [cost]; omega)).last
  rintro t rfl
  exact Takes.build rfl

theorem positive {t : Term} (ht : unary.IsRead ts t) : unary.IsRead (.plus :: ts) t := by
  apply reads_of_takes
  intro budget hbudget
  rw [List.length_cons] at hbudget
  rw [parser, Parser.unary]
  apply Takes.peek rfl
  apply Takes.skip
  exact ht.takes (by simp only [cost]; omega)

theorem unary {t : Term} (ht : power.IsRead ts t) (hderives : Derives .power ts t) :
    Rule.unary.IsRead ts t := by
  obtain ⟨token, hhead, hbegins⟩ := hderives.power_head
  apply reads_of_takes
  intro budget hbudget
  have hpower := ht.takes hbudget
  rw [parser, Parser.unary]
  apply Takes.peek hhead
  cases token <;> first
    | exact hpower
    | cases hbegins

theorem power {t : Term} (ht : primary.IsRead ts t) : Rule.power.IsRead ts t := by
  apply reads_of_takes
  intro budget hbudget
  rw [parser, Parser.power, ← List.append_nil ts]
  apply (ht.takes hbudget).bind (by simp) fun _ _ _ => rfl
  rintro t rfl
  apply Takes.peek_end
  intro ahead hstop
  rw [if_neg]
  · exact Takes.pure rfl
  · rintro rfl
    have hstop := hstop .caret rfl
    simp [stops, Token.stopsPower] at hstop

theorem caret {base exponent : Term} (hbase : primary.IsRead ts base)
    (hexponent : Rule.unary.IsRead us exponent) :
    Rule.power.IsRead (ts ++ .caret :: us) (.power base exponent) := by
  apply reads_of_takes
  intro budget hbudget
  simp only [List.length_append, List.length_cons] at hbudget
  rw [parser, Parser.power]
  apply (hbase.takes (by simp only [cost]; omega)).bind (by simp [stops]) (by simp [stops])
  rintro base rfl
  apply Takes.peek rfl
  rw [if_pos rfl]
  apply Takes.skip
  apply (hexponent.takes (by simp only [cost]; omega)).last
  rintro exponent rfl
  exact Takes.build rfl

theorem number {text : List Char} {a : Rat} (ha : Literal.ofChars? text = some a) :
    primary.IsRead [.number text] (.number a) := by
  apply reads_of_takes
  intro budget hbudget
  rw [parser, Parser.primary]
  apply Takes.peek rfl
  apply Takes.skip
  simp only [ha]
  exact Takes.build rfl

theorem pi : primary.IsRead [.pi] (.constant .pi) := by
  apply reads_of_takes
  intro budget hbudget
  rw [parser, Parser.primary]
  apply Takes.peek rfl
  apply Takes.skip
  exact Takes.build rfl

theorem root {t : Term} (ht : primary.IsRead ts t) :
    primary.IsRead (.root :: ts) (.squareRoot t) := by
  apply reads_of_takes
  intro budget hbudget
  rw [List.length_cons] at hbudget
  rw [parser, Parser.primary]
  apply Takes.peek rfl
  apply Takes.skip
  apply (ht.takes (by simp only [cost]; omega)).last
  rintro t rfl
  exact Takes.build rfl

/-- A name that stands alone. -/
theorem named {text : List Char} {t : Term} (h : ∀ budget,
    Parser.named (budget + 1) (String.ofList text) = Parser.build (Build.make t)) :
    primary.IsRead [.name text] t := by
  apply reads_of_takes
  intro budget hbudget
  obtain ⟨budget, rfl⟩ := Nat.exists_eq_add_of_le' (show 1 ≤ budget by simp at hbudget; omega)
  rw [parser, Parser.primary]
  apply Takes.peek rfl
  apply Takes.skip
  rw [h]
  exact Takes.build rfl

/-- An expression in parentheses, behind the opening one. -/
theorem enclosed {t : Term} (ht : Rule.expression.IsRead ts t)
    (hbudget : 16 * ts.length + 5 ≤ budget) :
    Takes (do
      let inner ← Parser.expression budget
      Parser.expect .closeParen
      pure inner) (fun _ => true) (ts ++ [.closeParen]) (· = t) := by
  apply (ht.takes hbudget).bind Parser.stops_closeParen (by simp)
  intro u hu
  exact Takes.expect (Takes.pure hu)

theorem application {text : List Char} {f : Term → Term} {t : Term}
    (hf : operatorNamed? (String.ofList text) = some f) (ht : Rule.expression.IsRead ts t) :
    primary.IsRead (.name text :: .openParen :: (ts ++ [.closeParen])) (f t) := by
  obtain ⟨g, hvalue, hnamed⟩ := Parser.exists_named_of_operator hf
  apply reads_of_takes
  intro budget hbudget
  simp only [List.length_cons, List.length_append] at hbudget
  obtain ⟨budget, rfl⟩ := Nat.exists_eq_add_of_le' (show 2 ≤ budget by omega)
  rw [parser, Parser.primary]
  apply Takes.peek rfl
  apply Takes.skip
  rw [hnamed, Parser.argument]
  apply Takes.last (P := (· = t))
  · exact Takes.expect (ht.enclosed (by omega))
  · rintro t rfl
    exact Takes.build (hvalue _)

theorem parenthesized {t : Term} (ht : Rule.expression.IsRead ts t) :
    primary.IsRead (.openParen :: (ts ++ [.closeParen])) t := by
  apply reads_of_takes
  intro budget hbudget
  simp only [List.length_cons, List.length_append] at hbudget
  rw [parser, Parser.primary]
  apply Takes.peek rfl
  apply Takes.skip
  exact ht.enclosed (by omega)

theorem matrix {first : List Term} {others : List (List Term)} (hfirst : row.IsRead ts first)
    (hothers : (moreRows first.length).IsRead us others) :
    primary.IsRead (.openBracket :: (ts ++ (us ++ [.closeBracket])))
      (.matrix (others.length + 1) first.length (first ++ others.flatten)) := by
  apply reads_of_takes
  intro budget hbudget
  simp only [List.length_cons, List.length_append] at hbudget
  obtain ⟨budget, rfl⟩ := Nat.exists_eq_add_of_le' (show 1 ≤ budget by omega)
  rw [parser, Parser.primary]
  apply Takes.peek rfl
  apply Takes.skip
  rw [Parser.matrix]
  apply (hfirst.takes (by simp only [cost]; omega)).bind (by simp [stops]) (by simp [stops])
  rintro first rfl
  apply (hothers.takes (by simp only [cost]; omega)).bind (by simp [stops, Parser.endsRow])
    (by simp)
  rintro others rfl
  exact Takes.expect (Takes.build rfl)

theorem row {first : Term} {others : List Term} (hfirst : Rule.expression.IsRead ts first)
    (hothers : moreEntries.IsRead us others) (hnext : Derives .moreEntries us others) :
    Rule.row.IsRead (.openBracket :: (ts ++ (us ++ [.closeBracket]))) (first :: others) := by
  apply reads_of_takes
  intro budget hbudget
  simp only [List.length_cons, List.length_append] at hbudget
  rw [parser, Parser.row]
  apply Takes.expect
  apply (hfirst.takes (by simp only [cost]; omega)).bind hnext.moreEntries_stops_row (by simp)
  rintro first rfl
  apply (hothers.takes (by simp only [cost]; omega)).bind (by simp [stops, Parser.endsRow])
    (by simp)
  rintro others rfl
  exact Takes.expect (Takes.pure rfl)

theorem noEntries : moreEntries.IsRead [] [] := by
  apply reads_of_takes
  intro budget hbudget
  rw [parser, Parser.moreEntries]
  exact Parser.takes_noComma rfl

theorem entry {t : Term} {others : List Term} (ht : Rule.expression.IsRead ts t)
    (hothers : moreEntries.IsRead us others) (hnext : Derives .moreEntries us others) :
    moreEntries.IsRead (.comma :: (ts ++ us)) (t :: others) := by
  apply reads_of_takes
  intro budget hbudget
  simp only [List.length_cons, List.length_append] at hbudget
  rw [parser, Parser.moreEntries]
  apply Takes.peek rfl
  rw [if_pos rfl]
  apply Takes.skip
  apply (ht.takes (by simp only [cost]; omega)).bind hnext.moreEntries_stops
    fun _ _ => Parser.stopsExpression_of_endsRow
  rintro t rfl
  apply (hothers.takes (by simp only [cost]; omega)).last
  rintro others rfl
  exact Takes.pure rfl

theorem noRows (columns : Nat) : (moreRows columns).IsRead [] [] := by
  apply reads_of_takes
  intro budget hbudget
  simp only [parser, Parser.moreRows]
  exact Parser.takes_noComma rfl

theorem nextRow {columns : Nat} {terms : List Term} {others : List (List Term)}
    (hterms : Rule.row.IsRead ts terms) (hlength : terms.length = columns)
    (hothers : (moreRows columns).IsRead us others) :
    (moreRows columns).IsRead (.comma :: (ts ++ us)) (terms :: others) := by
  apply reads_of_takes
  intro budget hbudget
  simp only [List.length_cons, List.length_append] at hbudget
  simp only [parser, Parser.moreRows]
  apply Takes.peek rfl
  rw [if_pos rfl]
  apply Takes.skip
  apply (hterms.takes (by simp only [cost]; omega)).bind (by simp [stops]) (by simp [stops])
  rintro terms rfl
  rw [if_neg (not_not_intro hlength)]
  apply (hothers.takes (by simp only [cost]; omega)).last
  rintro others rfl
  exact Takes.pure rfl

end Rule.IsRead

/-- What a rule derives its parser reads, and it returns the result that the derivation
    prescribes. -/
theorem Derives.isRead {rule : Rule} {ts : List Token} {a : rule.Result} (h : Derives rule ts a) :
    rule.IsRead ts a := by
  induction h with
  | expression _ hothers iht ihothers => exact iht.expression ihothers hothers
  | noTerms => exact .noTerms
  | plus _ hothers iht ihothers => exact iht.plus ihothers hothers
  | minus _ hothers iht ihothers => exact iht.minus ihothers hothers
  | term _ hothers ihfirst ihothers => exact ihfirst.term ihothers hothers
  | noFactors first => exact .noFactors first
  | star _ hothers ihfactor ihothers => exact ihfactor.star ihothers hothers
  | slash _ hothers ihdivisor ihothers => exact ihdivisor.slash ihothers hothers
  | implicit hfactor hothers ihfactor ihothers => exact ihfactor.implicit hfactor ihothers hothers
  | negative _ iht => exact iht.negative
  | positive _ iht => exact iht.positive
  | unary ht iht => exact iht.unary ht
  | power _ iht => exact iht.power
  | caret _ _ ihbase ihexponent => exact ihbase.caret ihexponent
  | number ha => exact .number ha
  | pi => exact .pi
  | root _ iht => exact iht.root
  | constant ht => exact .named (Parser.named_of_constant ht)
  | application hf _ iht => exact .application hf iht
  | symbol hconstant hoperator hlength =>
    refine .named fun budget => ?_
    rw [Parser.named_of_symbol hconstant hoperator, if_neg]
    rw [String.length_ofList]
    omega
  | parenthesized _ iht => exact iht.parenthesized
  | matrix _ _ ihfirst ihothers => exact ihfirst.matrix ihothers
  | row _ hothers ihfirst ihothers => exact ihfirst.row ihothers hothers
  | noEntries => exact .noEntries
  | entry _ hothers iht ihothers => exact iht.entry ihothers hothers
  | noRows columns => exact .noRows columns
  | nextRow _ hlength _ ihterms ihothers => exact ihterms.nextRow hlength ihothers

end EquationSolver
