import EquationSolver.Proofs.Reading.Grammar

/-!
# Operands

Numbers, names, roots, parentheses, functions and matrices, and powers of them, are read with
the values that they have.
-/

namespace EquationSolver

namespace Parser

variable {K : Type*} [Field K] {I : Interpretation K}

/-! ### Powers -/

theorem IsPrimary.isPower {tokens : List Token} {v : K} (h : IsPrimary I tokens v) :
    IsPower I tokens v := by
  refine ⟨h.begins, reads_of_takes ?_⟩
  intro budget hbudget
  rw [power, ← List.append_nil tokens]
  apply (h.reads.takes hbudget).bind (by simp) fun _ _ _ => rfl
  intro t ht
  apply Takes.peek_end
  intro ahead hstop
  rw [if_neg]
  · exact Takes.pure ht
  · rintro rfl
    have hstop := hstop .caret rfl
    simp [Token.stopsPower] at hstop

/-- An operand with an exponent. -/
theorem IsPrimary.caret {base exponent : List Token} {v w : K} (hbase : IsPrimary I base v)
    (hexponent : IsUnary I exponent w) :
    IsPower I (base ++ .caret :: exponent) (I.power v w) := by
  constructor
  · obtain ⟨token, hhead, hbegins⟩ := hbase.begins
    cases base with
    | nil => simp at hhead
    | cons t base => exact ⟨token, hhead, hbegins⟩
  · apply reads_of_takes
    intro budget hbudget
    simp only [List.length_append, List.length_cons] at hbudget
    rw [power]
    apply (hbase.reads.takes (by omega)).bind (by simp) (by simp)
    intro t ht
    apply Takes.peek rfl
    rw [if_pos rfl]
    apply Takes.skip
    apply (hexponent.reads.takes (by omega)).last
    intro u hu
    exact Takes.build (by simp [Term.interpret, ht, hu])

/-! ### Numbers, constants and roots -/

/-- A literal is read as the number that it denotes. -/
theorem isPrimary_number {text : List Char} {a : Rat} (h : Literal.ofChars? text = some a) :
    IsPrimary I [.number text] (a : K) := by
  refine ⟨⟨_, rfl, rfl⟩, reads_of_takes ?_⟩
  intro budget hbudget
  rw [primary]
  apply Takes.peek rfl
  apply Takes.skip
  simp only [h]
  exact Takes.build (by simp [Term.interpret])

theorem isPrimary_pi : IsPrimary I [.pi] (I.constant .pi) := by
  refine ⟨⟨_, rfl, rfl⟩, reads_of_takes ?_⟩
  intro budget hbudget
  rw [primary]
  apply Takes.peek rfl
  apply Takes.skip
  exact Takes.build (by simp [Term.interpret])

theorem IsPrimary.root {tokens : List Token} {v : K} (h : IsPrimary I tokens v) :
    IsPrimary I (.root :: tokens) (I.power v ((1 / 2 : Rat) : K)) := by
  refine ⟨⟨_, rfl, rfl⟩, reads_of_takes ?_⟩
  intro budget hbudget
  rw [List.length_cons] at hbudget
  rw [primary]
  apply Takes.peek rfl
  apply Takes.skip
  apply (h.reads.takes (by omega)).last
  intro t ht
  exact Takes.build (by simp [Build.squareRoot, Term.interpret, ht])

/-! ### Parentheses -/

theorem stops_closeParen {others : List Token} :
    ∀ token ∈ (Token.closeParen :: others).head?, token.stopsExpression = true := by
  simp [Token.stopsExpression, Token.stopsTerm, Token.stopsPower, Token.beginsOperand]

/-- An expression in parentheses, behind the opening one. -/
theorem IsExpression.enclosed {tokens : List Token} {v : K} (h : IsExpression I tokens v)
    {budget : Nat} (hbudget : 16 * tokens.length + 5 ≤ budget) :
    Takes (do
      let inner ← expression budget
      expect .closeParen
      pure inner) (fun _ => true) (tokens ++ [.closeParen]) (Term.interpret I · = v) := by
  apply (h.reads.takes hbudget).bind stops_closeParen (by simp)
  intro t ht
  exact Takes.expect (Takes.pure ht)

theorem IsExpression.parenthesized {tokens : List Token} {v : K} (h : IsExpression I tokens v) :
    IsPrimary I (.openParen :: (tokens ++ [.closeParen])) v := by
  refine ⟨⟨_, rfl, rfl⟩, reads_of_takes ?_⟩
  intro budget hbudget
  simp only [List.length_cons, List.length_append] at hbudget
  rw [primary]
  apply Takes.peek rfl
  apply Takes.skip
  exact h.enclosed (by omega)

/-! ### Names -/

/-- A name is read as what it stands for, given the tokens behind it. -/
theorem isPrimary_named {name : String} {tokens : List Token} {v : K}
    (h : Reads (named · name) 2 (fun _ => true) tokens (Term.interpret I · = v)) :
    IsPrimary I (.name name.toList :: tokens) v := by
  refine ⟨⟨_, rfl, rfl⟩, reads_of_takes ?_⟩
  intro budget hbudget
  rw [List.length_cons] at hbudget
  rw [primary]
  apply Takes.peek rfl
  apply Takes.skip
  rw [String.ofList_toList]
  exact h.takes (by omega)

theorem isPrimary_of_named (name : String) {t : Term}
    (h : ∀ budget, named (budget + 1) name = build (Build.make t)) :
    IsPrimary I [.name name.toList] (t.interpret I) := by
  apply isPrimary_named
  apply reads_of_takes
  intro budget hbudget
  rw [h]
  exact Takes.build rfl

theorem isPrimary_e : IsPrimary I [.name "e".toList] (I.constant .e) := by
  apply isPrimary_of_named "e" (t := .constant .e)
  intro budget
  simp [named]

theorem isPrimary_i : IsPrimary I [.name "i".toList] (I.constant .i) := by
  apply isPrimary_of_named "i" (t := .constant .i)
  intro budget
  simp [named]

theorem isPrimary_undefined : IsPrimary I [.name "undef".toList] I.undefined := by
  apply isPrimary_of_named "undef" (t := .undefined)
  intro budget
  simp [named]

theorem isPrimary_symbol {name : String} (h : Term.IsIdentifier name) :
    IsPrimary I [.name name.toList] (I.symbol name) := by
  apply isPrimary_of_named name (t := .symbol name)
  intro budget
  have hreserved := h.not_reserved
  simp only [Term.isReserved, List.mem_cons, List.not_mem_nil, or_false, Bool.or_eq_false_iff,
    decide_eq_false_iff_not, not_or, Option.isSome_eq_false_iff, Option.isNone_iff_eq_none]
    at hreserved
  obtain ⟨⟨hpi, he, hi, hundef, hsqrt, hexp⟩, hfunction⟩ := hreserved
  rw [named, if_neg hpi, if_neg he, if_neg hi, if_neg hundef, if_neg hsqrt, if_neg hexp,
    hfunction]
  simp only [Nat.not_lt.2 h.short, if_false]

theorem IsExpression.argument {tokens : List Token} {v : K} (h : IsExpression I tokens v) :
    Reads argument 1 (fun _ => true) (.openParen :: (tokens ++ [.closeParen]))
      (Term.interpret I · = v) := by
  apply reads_of_takes
  intro budget hbudget
  simp only [List.length_cons, List.length_append] at hbudget
  rw [Parser.argument]
  apply Takes.expect
  exact h.enclosed (by omega)

theorem IsExpression.apply {tokens : List Token} {v : K} (h : IsExpression I tokens v)
    (f : Function) :
    IsPrimary I (.name f.name.toList :: .openParen :: (tokens ++ [.closeParen]))
      (I.function f v) := by
  apply isPrimary_named
  apply reads_of_takes
  intro budget hbudget
  have hfound : Function.ofName? f.name = some f := by cases f <;> decide
  have hnames : f.name ≠ "pi" ∧ f.name ≠ "e" ∧ f.name ≠ "i" ∧ f.name ≠ "undef" ∧
      f.name ≠ "sqrt" ∧ f.name ≠ "exp" := by cases f <;> decide
  obtain ⟨hpi, he, hi, hundef, hsqrt, hexp⟩ := hnames
  rw [named, if_neg hpi, if_neg he, if_neg hi, if_neg hundef, if_neg hsqrt, if_neg hexp, hfound]
  apply (h.argument.takes (by simpa using hbudget)).last
  intro t ht
  exact Takes.build (by simp [Term.interpret, ht])

/-! ### Matrices -/

variable (I)

/-- The tokens are entries behind the first one of a row. -/
inductive AreEntries : List Token → List K → Prop
  | nil : AreEntries [] []
  | comma {tokens others : List Token} {v : K} {vs : List K} (h : IsExpression I tokens v)
      (hothers : AreEntries others vs) : AreEntries (.comma :: (tokens ++ others)) (v :: vs)

/-- The tokens are a row of a matrix. -/
inductive IsRow : List Token → List K → Prop
  | intro {tokens others : List Token} {v : K} {vs : List K} (h : IsExpression I tokens v)
      (hothers : AreEntries I others vs) :
      IsRow (.openBracket :: (tokens ++ (others ++ [.closeBracket]))) (v :: vs)

/-- The tokens are rows behind the first one, all of the same length. -/
inductive AreRows (columns : Nat) : List Token → List (List K) → Prop
  | nil : AreRows columns [] []
  | comma {tokens others : List Token} {vs : List K} {vss : List (List K)}
      (h : IsRow I tokens vs) (hlength : vs.length = columns) (hothers : AreRows columns others vss) :
      AreRows columns (.comma :: (tokens ++ others)) (vs :: vss)

variable {I}

/-- Only the closing bracket ends entries and rows. -/
def endsRow (token : Token) : Bool :=
  token = .closeBracket

theorem AreEntries.stops {tokens : List Token} {vs : List K} (h : AreEntries I tokens vs) :
    ∀ token ∈ tokens.head?, token.stopsExpression = true := by
  cases h <;>
    simp [Token.stopsExpression, Token.stopsTerm, Token.stopsPower, Token.beginsOperand]

theorem AreEntries.stops_row {tokens : List Token} {vs : List K} (h : AreEntries I tokens vs) :
    ∀ token ∈ (tokens ++ [Token.closeBracket]).head?, token.stopsExpression = true := by
  cases h <;>
    simp [Token.stopsExpression, Token.stopsTerm, Token.stopsPower, Token.beginsOperand]

theorem stopsExpression_of_endsRow {token : Token} (h : endsRow token = true) :
    token.stopsExpression = true := by
  obtain rfl : token = .closeBracket := by simpa [endsRow] using h
  rfl

/-- Where a list of entries or rows ends there is no comma. -/
theorem takes_noComma {α : Type} {p : Parser (List α)} {P : List α → Prop} (h : P []) :
    Takes (do if (← peek) = some .comma then p else pure []) endsRow [] P := by
  apply Takes.peek_end
  intro ahead hstop
  rw [if_neg]
  · exact Takes.pure h
  · rintro rfl
    have hstop := hstop .comma rfl
    simp [endsRow] at hstop

theorem AreEntries.reads {tokens : List Token} {vs : List K} (h : AreEntries I tokens vs) :
    Reads moreEntries 1 endsRow tokens fun ts => ts.map (Term.interpret I) = vs := by
  induction h with
  | nil =>
    apply reads_of_takes
    intro budget hbudget
    rw [moreEntries]
    exact takes_noComma rfl
  | comma h hothers ih =>
    apply reads_of_takes
    intro budget hbudget
    simp only [List.length_cons, List.length_append] at hbudget
    rw [moreEntries]
    apply Takes.peek rfl
    rw [if_pos rfl]
    apply Takes.skip
    apply (h.reads.takes (by omega)).bind hothers.stops fun _ _ => stopsExpression_of_endsRow
    intro t ht
    apply (ih.takes (by omega)).last
    intro ts hts
    exact Takes.pure (by simp [ht, hts])

theorem IsRow.reads {tokens : List Token} {vs : List K} (h : IsRow I tokens vs) :
    Reads row 1 (fun _ => true) tokens fun ts => ts.map (Term.interpret I) = vs := by
  obtain ⟨h, hothers⟩ := h
  apply reads_of_takes
  intro budget hbudget
  simp only [List.length_cons, List.length_append] at hbudget
  rw [row]
  apply Takes.expect
  apply (h.reads.takes (by omega)).bind hothers.stops_row (by simp)
  intro t ht
  apply (hothers.reads.takes (by omega)).bind (by simp [endsRow]) (by simp)
  intro ts hts
  exact Takes.expect (Takes.pure (by simp [ht, hts]))

theorem AreRows.reads {columns : Nat} {tokens : List Token} {vss : List (List K)}
    (h : AreRows I columns tokens vss) :
    Reads (moreRows · columns) 1 endsRow tokens
      fun rows => rows.map (List.map (Term.interpret I)) = vss := by
  induction h with
  | nil =>
    apply reads_of_takes
    intro budget hbudget
    rw [moreRows]
    exact takes_noComma rfl
  | comma h hlength hothers ih =>
    apply reads_of_takes
    intro budget hbudget
    simp only [List.length_cons, List.length_append] at hbudget
    rw [moreRows]
    apply Takes.peek rfl
    rw [if_pos rfl]
    apply Takes.skip
    apply (h.reads.takes (by omega)).bind (by simp) (by simp)
    intro ts hts
    have hcolumns : ts.length = columns := by
      rw [← hlength, ← hts, List.length_map]
    rw [if_neg (by simpa using hcolumns)]
    apply (ih.takes (by omega)).last
    intro rows hrows
    exact Takes.pure (by simp [hts, hrows])

/-- Rows of one length are a matrix. -/
theorem IsRow.matrix {first others : List Token} {vs : List K} {vss : List (List K)}
    (hfirst : IsRow I first vs) (hothers : AreRows I vs.length others vss) :
    IsPrimary I (.openBracket :: (first ++ (others ++ [.closeBracket])))
      (I.matrix (vss.length + 1) vs.length (vs ++ vss.flatten)) := by
  have hrows : Reads Parser.matrix 2 (fun _ => true) (first ++ (others ++ [.closeBracket]))
      (Term.interpret I · = I.matrix (vss.length + 1) vs.length (vs ++ vss.flatten)) := by
    apply reads_of_takes
    intro budget hbudget
    simp only [List.length_append] at hbudget
    rw [Parser.matrix]
    apply (hfirst.reads.takes (by omega)).bind (by simp) (by simp)
    intro ts hts
    subst hts
    rw [List.length_map] at hothers
    apply (hothers.reads.takes (by omega)).bind (by simp [endsRow]) (by simp)
    intro rows hrows
    subst hrows
    apply Takes.expect
    apply Takes.build
    simp [Term.interpret, Term.interpretAll_eq_map, List.map_flatten]
  refine ⟨⟨_, rfl, rfl⟩, reads_of_takes ?_⟩
  intro budget hbudget
  rw [List.length_cons] at hbudget
  rw [primary]
  apply Takes.peek rfl
  apply Takes.skip
  exact hrows.takes (by omega)

end Parser

end EquationSolver
