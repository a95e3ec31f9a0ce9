import EquationSolver.Proofs.Reading.Derivation

/-!
# Whatever is read is derived

A parser that returns something has consumed tokens from the front, and the grammar derives
exactly those, with what is returned as the result.  Each combinator of parsers says what it
consumes in terms of its parts, and the rules follow their definitions.
-/

namespace EquationSolver

namespace Parser

variable {α β : Type}

/-! ### What combinators consume -/

/-- Whatever the parser returns, the tokens that it has consumed are as claimed. -/
def Consumes (p : Parser α) (claim : List Token → α → Prop) : Prop :=
  ∀ lexemes a rest, Yields p lexemes a rest →
    ∃ read, lexemes = read ++ rest ∧ claim (read.map Lexeme.token) a

/-- The parser consumes tokens as claimed where the given token, or the end, is ahead. -/
def ConsumesAhead (ahead : Option Token) (p : Parser α) (claim : List Token → α → Prop) : Prop :=
  ∀ lexemes a rest, lexemes.head?.map Lexeme.token = ahead → Yields p lexemes a rest →
    ∃ read, lexemes = read ++ rest ∧ claim (read.map Lexeme.token) a

theorem exists_of_yields_bind {p : Parser α} {f : α → Parser β} {lexemes rest : List Lexeme} {b : β}
    (h : Yields (p >>= f) lexemes b rest) :
    ∃ a middle, Yields p lexemes a middle ∧ Yields (f a) middle b rest := by
  cases hread : (p lexemes).value with
  | ok read => exact ⟨read.1, read.2, hread, (value_bind_of_ok hread).symm.trans h⟩
  | error e => cases (value_bind_of_error hread).symm.trans h

theorem exists_of_yields_expect {token : Token} {lexemes rest : List Lexeme}
    (h : Yields (expect token) lexemes () rest) :
    ∃ lexeme, lexemes = lexeme :: rest ∧ lexeme.token = token := by
  obtain ⟨ahead, lexemes', hpeek, hskip⟩ := exists_of_yields_bind (p := Parser.peek) h
  cases hpeek
  rcases lexemes with _ | ⟨lexeme, lexemes⟩
  · rw [if_neg (by simp)] at hskip
    exact nomatch hskip
  · by_cases htoken : lexeme.token = token
    · rw [if_pos (by simp [htoken])] at hskip
      cases hskip
      exact ⟨lexeme, rfl, htoken⟩
    · rw [if_neg (by simpa using htoken)] at hskip
      exact nomatch hskip

namespace Consumes

variable {p : Parser α} {f : α → Parser β} {claim : List Token → β → Prop}

theorem bind {first : List Token → α → Prop} (hp : Consumes p first)
    (hf : ∀ ts a, first ts a → Consumes (f a) fun us b => claim (ts ++ us) b) :
    Consumes (p >>= f) claim := by
  intro lexemes b rest h
  obtain ⟨a, middle, ha, hb⟩ := exists_of_yields_bind h
  obtain ⟨before, rfl, hfirst⟩ := hp lexemes a middle ha
  obtain ⟨behind, rfl, hclaim⟩ := hf _ a hfirst middle b rest hb
  exact ⟨before ++ behind, by rw [List.append_assoc], by rwa [List.map_append]⟩

theorem pure {b : β} (h : claim [] b) : Consumes (pure b) claim := by
  intro lexemes a rest hyields
  cases hyields
  exact ⟨[], rfl, h⟩

theorem build {b : Build β} (h : claim [] b.value) : Consumes (build b) claim := by
  intro lexemes a rest hyields
  cases hyields
  exact ⟨[], rfl, h⟩

theorem build_bind {b : Build α} (h : Consumes (f b.value) claim) :
    Consumes (Parser.build b >>= f) claim := by
  have hfirst : Consumes (Parser.build b) fun ts a => ts = [] ∧ a = b.value := build ⟨rfl, rfl⟩
  refine bind hfirst ?_
  rintro _ _ ⟨rfl, rfl⟩
  exact h

theorem fail (e : ParseError) : Consumes (fail e) claim := by
  intro lexemes b rest h
  exact nomatch h

theorem unexpected : Consumes unexpected claim := by
  intro lexemes b rest h
  cases lexemes <;> exact nomatch h

/-- A parser that looks at the token ahead. -/
theorem peek {f : Option Token → Parser β} (h : ∀ ahead, ConsumesAhead ahead (f ahead) claim) :
    Consumes (Parser.peek >>= f) claim := by
  intro lexemes b rest hyields
  obtain ⟨ahead, middle, hahead, hb⟩ := exists_of_yields_bind hyields
  cases hahead
  exact h _ lexemes b rest rfl hb

theorem expect {token : Token} {p : Parser β}
    (h : Consumes p fun us b => claim (token :: us) b) :
    Consumes (Parser.expect token >>= fun _ => p) claim := by
  intro lexemes b rest hyields
  obtain ⟨⟨⟩, middle, hexpect, hb⟩ := exists_of_yields_bind hyields
  obtain ⟨lexeme, rfl, htoken⟩ := exists_of_yields_expect hexpect
  obtain ⟨read, rfl, hclaim⟩ := h middle b rest hb
  exact ⟨lexeme :: read, rfl, by rwa [List.map_cons, htoken]⟩

theorem ahead {p : Parser β} (h : Consumes p claim) (ahead : Option Token) :
    ConsumesAhead ahead p claim :=
  fun lexemes b rest _ => h lexemes b rest

/-- The token ahead is passed over. -/
theorem skip {p : Parser β} {token : Token} (h : Consumes p fun us b => claim (token :: us) b) :
    ConsumesAhead (some token) (Parser.skip >>= fun _ => p) claim := by
  intro lexemes b rest hhead hyields
  obtain ⟨⟨⟩, middle, hskip, hb⟩ := exists_of_yields_bind hyields
  cases hskip
  obtain ⟨lexeme, hlexeme, rfl⟩ := Option.map_eq_some_iff.1 hhead
  obtain ⟨lexemes, rfl⟩ : ∃ others, lexemes = lexeme :: others := ⟨_, (List.cons_head?_tail hlexeme).symm⟩
  obtain ⟨read, hread, hclaim⟩ := h _ b rest hb
  exact ⟨lexeme :: read, by rw [List.cons_append, ← hread, List.tail_cons], hclaim⟩

end Consumes

/-! ### What rules consume -/

/-- With less than the budget, every rule consumes what it derives. -/
def RulesConsume (budget : Nat) : Prop :=
  ∀ less < budget, ∀ rule : Rule, Consumes (rule.parser less) (Derives rule)

variable {budget : Nat}

theorem RulesConsume.pred (h : RulesConsume (budget + 1)) : RulesConsume budget :=
  fun less hless => h less (by omega)

theorem consumes_enclosed (h : RulesConsume (budget + 1)) :
    Consumes (do
      let inner ← expression budget
      expect .closeParen
      pure inner) fun ts t => ∃ us, ts = us ++ [.closeParen] ∧ Derives .expression us t := by
  refine Consumes.bind (h budget (by omega) .expression) fun us t ht => ?_
  exact Consumes.expect (Consumes.pure ⟨us, rfl, ht⟩)

theorem consumes_argument (h : RulesConsume budget) :
    Consumes (argument budget) fun ts t =>
      ∃ us, ts = .openParen :: (us ++ [.closeParen]) ∧ Derives .expression us t := by
  cases budget with
  | zero => exact Consumes.unexpected
  | succ budget =>
    rw [argument]
    refine Consumes.expect fun lexemes t rest hyields => ?_
    obtain ⟨read, hread, us, hus, ht⟩ := consumes_enclosed h lexemes t rest hyields
    exact ⟨read, hread, us, by rw [hus], ht⟩

/-- The tokens behind a name are none, or its argument. -/
theorem consumes_named (h : RulesConsume budget) (text : List Char) :
    Consumes (named budget (String.ofList text)) fun us t =>
      Derives .primary (.name text :: us) t := by
  cases budget with
  | zero => exact Consumes.unexpected
  | succ budget =>
    cases hconstant : constantNamed? (String.ofList text) with
    | some t =>
      rw [named_of_constant hconstant]
      exact Consumes.build (.constant hconstant)
    | none =>
      cases hoperator : operatorNamed? (String.ofList text) with
      | some f =>
        obtain ⟨g, hvalue, hnamed⟩ := exists_named_of_operator hoperator
        rw [hnamed]
        refine Consumes.bind (consumes_argument h.pred) ?_
        rintro _ t ⟨us, rfl, ht⟩
        refine Consumes.build ?_
        rw [hvalue, List.append_nil]
        exact .application hoperator ht
      | none =>
        rw [named_of_symbol hconstant hoperator]
        split
        case isTrue => exact Consumes.fail _
        case isFalse hlength =>
          rw [String.length_ofList] at hlength
          exact Consumes.build (.symbol hconstant hoperator (by omega))

theorem consumes_matrix (h : RulesConsume budget) :
    Consumes (matrix budget) fun us t => Derives .primary (.openBracket :: us) t := by
  cases budget with
  | zero => exact Consumes.unexpected
  | succ budget =>
    rw [matrix]
    refine Consumes.bind (h budget (by omega) .row) fun ts first hfirst => ?_
    refine Consumes.bind (h budget (by omega) (.moreRows first.length)) fun us others hothers => ?_
    refine Consumes.expect (Consumes.build ?_)
    exact .matrix hfirst hothers

theorem consumes_primary (h : RulesConsume budget) :
    Consumes (primary budget) (Derives .primary) := by
  cases budget with
  | zero => exact Consumes.unexpected
  | succ budget =>
    rw [primary]
    refine Consumes.peek fun ahead => ?_
    split
    case h_1 text =>
      refine Consumes.skip ?_
      split
      case h_1 a ha => exact Consumes.build (.number ha)
      case h_2 => exact Consumes.fail _
    case h_2 => exact Consumes.skip (Consumes.build .pi)
    case h_3 =>
      refine Consumes.skip (Consumes.bind (h budget (by omega) .primary) fun ts t ht => ?_)
      refine Consumes.build ?_
      rw [List.append_nil]
      exact .root ht
    case h_4 text => exact Consumes.skip (consumes_named h.pred text)
    case h_5 =>
      refine Consumes.skip fun lexemes t rest hyields => ?_
      obtain ⟨read, hread, us, hus, ht⟩ := consumes_enclosed h lexemes t rest hyields
      exact ⟨read, hread, by rw [hus]; exact .parenthesized ht⟩
    case h_6 => exact Consumes.skip (consumes_matrix h.pred)
    case h_7 => exact Consumes.unexpected.ahead _

theorem consumes_power (h : RulesConsume budget) : Consumes (power budget) (Derives .power) := by
  cases budget with
  | zero => exact Consumes.unexpected
  | succ budget =>
    rw [power]
    refine Consumes.bind (h budget (by omega) .primary) fun ts base hbase => ?_
    refine Consumes.peek fun ahead => ?_
    split
    case isTrue hcaret =>
      subst hcaret
      refine Consumes.skip (Consumes.bind (h budget (by omega) .unary) fun us exponent hexponent => ?_)
      refine Consumes.build ?_
      rw [List.append_nil]
      exact .caret hbase hexponent
    case isFalse =>
      refine (Consumes.pure ?_).ahead _
      rw [List.append_nil]
      exact .power hbase

theorem consumes_unary (h : RulesConsume budget) : Consumes (unary budget) (Derives .unary) := by
  cases budget with
  | zero => exact Consumes.unexpected
  | succ budget =>
    rw [unary]
    refine Consumes.peek fun ahead => ?_
    split
    case h_1 =>
      refine Consumes.skip (Consumes.bind (h budget (by omega) .unary) fun ts t ht => ?_)
      refine Consumes.build ?_
      rw [List.append_nil]
      exact .negative ht
    case h_2 =>
      refine Consumes.skip fun lexemes t rest hyields => ?_
      obtain ⟨read, hread, ht⟩ := h budget (by omega) .unary lexemes t rest hyields
      exact ⟨read, hread, .positive ht⟩
    case h_3 =>
      refine Consumes.ahead (fun lexemes t rest hyields => ?_) _
      obtain ⟨read, hread, ht⟩ := h budget (by omega) .power lexemes t rest hyields
      exact ⟨read, hread, .unary ht⟩

theorem consumes_moreFactors (h : RulesConsume budget) (first : Term) :
    Consumes (moreFactors budget first) (Derives (.moreFactors first)) := by
  cases budget with
  | zero => exact Consumes.unexpected
  | succ budget =>
    rw [moreFactors]
    refine Consumes.peek fun ahead => ?_
    split
    case h_1 =>
      refine Consumes.skip (Consumes.bind (h budget (by omega) .unary) fun ts factor hfactor => ?_)
      refine Consumes.build_bind fun lexemes t rest hyields => ?_
      obtain ⟨read, hread, ht⟩ := h budget (by omega) (.moreFactors _) lexemes t rest hyields
      exact ⟨read, hread, .star hfactor ht⟩
    case h_2 =>
      refine Consumes.skip (Consumes.bind (h budget (by omega) .unary) fun ts divisor hdivisor => ?_)
      refine Consumes.build_bind fun lexemes t rest hyields => ?_
      obtain ⟨read, hread, ht⟩ := h budget (by omega) (.moreFactors _) lexemes t rest hyields
      exact ⟨read, hread, .slash hdivisor ht⟩
    case h_3 =>
      refine Consumes.ahead ?_ _
      split
      case isTrue =>
        refine Consumes.bind (h budget (by omega) .power) fun ts factor hfactor => ?_
        refine Consumes.build_bind fun lexemes t rest hyields => ?_
        obtain ⟨read, hread, ht⟩ := h budget (by omega) (.moreFactors _) lexemes t rest hyields
        exact ⟨read, hread, .implicit hfactor ht⟩
      case isFalse => exact Consumes.pure (.noFactors first)
    case h_4 => exact (Consumes.pure (.noFactors first)).ahead _

theorem consumes_term (h : RulesConsume budget) : Consumes (term budget) (Derives .term) := by
  cases budget with
  | zero => exact Consumes.unexpected
  | succ budget =>
    rw [term]
    refine Consumes.bind (h budget (by omega) .unary) fun ts first hfirst => ?_
    intro lexemes t rest hyields
    obtain ⟨read, hread, ht⟩ := h budget (by omega) (.moreFactors first) lexemes t rest hyields
    exact ⟨read, hread, .term hfirst ht⟩

theorem consumes_moreTerms (h : RulesConsume budget) :
    Consumes (moreTerms budget) (Derives .moreTerms) := by
  cases budget with
  | zero => exact Consumes.unexpected
  | succ budget =>
    rw [moreTerms]
    refine Consumes.peek fun ahead => ?_
    split
    case h_1 =>
      refine Consumes.skip (Consumes.bind (h budget (by omega) .term) fun ts t ht => ?_)
      refine Consumes.bind (h budget (by omega) .moreTerms) fun us others hothers => ?_
      refine Consumes.pure ?_
      rw [List.append_nil]
      exact .plus ht hothers
    case h_2 =>
      refine Consumes.skip (Consumes.bind (h budget (by omega) .term) fun ts t ht => ?_)
      refine Consumes.build_bind ?_
      refine Consumes.bind (h budget (by omega) .moreTerms) fun us others hothers => ?_
      refine Consumes.pure ?_
      rw [List.append_nil]
      exact .minus ht hothers
    case h_3 => exact (Consumes.pure .noTerms).ahead _

theorem consumes_expression (h : RulesConsume budget) :
    Consumes (expression budget) (Derives .expression) := by
  cases budget with
  | zero => exact Consumes.unexpected
  | succ budget =>
    rw [expression]
    refine Consumes.bind (h budget (by omega) .term) fun ts t ht => ?_
    refine Consumes.bind (h budget (by omega) .moreTerms) fun us others hothers => ?_
    refine Consumes.build ?_
    rw [Build.value_sum, List.append_nil]
    exact .expression ht hothers

theorem consumes_row (h : RulesConsume budget) : Consumes (row budget) (Derives .row) := by
  cases budget with
  | zero => exact Consumes.unexpected
  | succ budget =>
    rw [row]
    refine Consumes.expect ?_
    refine Consumes.bind (h budget (by omega) .expression) fun ts first hfirst => ?_
    refine Consumes.bind (h budget (by omega) .moreEntries) fun us others hothers => ?_
    exact Consumes.expect (Consumes.pure (.row hfirst hothers))

theorem consumes_moreEntries (h : RulesConsume budget) :
    Consumes (moreEntries budget) (Derives .moreEntries) := by
  cases budget with
  | zero => exact Consumes.unexpected
  | succ budget =>
    rw [moreEntries]
    refine Consumes.peek fun ahead => ?_
    split
    case isTrue hcomma =>
      subst hcomma
      refine Consumes.skip (Consumes.bind (h budget (by omega) .expression) fun ts t ht => ?_)
      refine Consumes.bind (h budget (by omega) .moreEntries) fun us others hothers => ?_
      refine Consumes.pure ?_
      rw [List.append_nil]
      exact .entry ht hothers
    case isFalse => exact (Consumes.pure .noEntries).ahead _

theorem consumes_moreRows (h : RulesConsume budget) (columns : Nat) :
    Consumes (moreRows budget columns) (Derives (.moreRows columns)) := by
  cases budget with
  | zero => exact Consumes.unexpected
  | succ budget =>
    rw [moreRows]
    refine Consumes.peek fun ahead => ?_
    split
    case isTrue hcomma =>
      subst hcomma
      refine Consumes.skip (Consumes.bind (h budget (by omega) .row) fun ts terms hterms => ?_)
      split
      case isTrue => exact Consumes.fail _
      case isFalse hlength =>
        refine Consumes.bind (h budget (by omega) (.moreRows columns)) fun us others hothers => ?_
        refine Consumes.pure ?_
        rw [List.append_nil]
        exact .nextRow hterms (not_not.1 hlength) hothers
    case isFalse => exact (Consumes.pure (.noRows columns)).ahead _

/-- Whatever the parser of a rule returns, the rule derives it from the tokens consumed. -/
theorem consumes_rule (rule : Rule) (budget : Nat) :
    Consumes (rule.parser budget) (Derives rule) := by
  induction budget using Nat.strong_induction_on generalizing rule with
  | _ budget ih =>
    have h : RulesConsume budget := fun less hless rule => ih less hless rule
    cases rule with
    | expression => exact consumes_expression h
    | moreTerms => exact consumes_moreTerms h
    | term => exact consumes_term h
    | moreFactors first => exact consumes_moreFactors h first
    | unary => exact consumes_unary h
    | power => exact consumes_power h
    | primary => exact consumes_primary h
    | row => exact consumes_row h
    | moreEntries => exact consumes_moreEntries h
    | moreRows columns => exact consumes_moreRows h columns

end Parser

end EquationSolver
