import EquationSolver.Proofs.Number.Display
import EquationSolver.Proofs.Reading.Acceptance
import EquationSolver.Proofs.Reading.Text
import EquationSolver.Proofs.Reduction.Symbols

/-!
# Names in texts

The symbols of a term that has been read stand in the text as names, and the names of constants
and functions are none of them.  Text of a numeric value holds no other names, so reading it back
mentions no symbol.
-/

namespace EquationSolver

/-! ### Names among tokens -/

/-- If the token is the name of a symbol, the name is one of the given ones. -/
def Token.NamesOnly (names : String → Prop) : Token → Prop
  | name text => constantNamed? (String.ofList text) = none →
      operatorNamed? (String.ofList text) = none → names (String.ofList text)
  | _ => True

variable {names : String → Prop}

@[simp] theorem Token.namesOnly_name {text : List Char} : (Token.name text).NamesOnly names ↔
    (constantNamed? (String.ofList text) = none → operatorNamed? (String.ofList text) = none →
      names (String.ofList text)) := Iff.rfl

theorem Token.namesOnly_of_ofChar? {c : Char} {token : Token} (h : ofChar? c = some token) :
    token.NamesOnly names := by
  unfold ofChar? at h
  split at h <;> cases h <;> trivial

/-- What the rule prescribes mentions only the given names, and so does what it goes on from. -/
def Rule.MentionsOnly (names : String → Prop) : (rule : Rule) → rule.Result → Prop
  | expression, t | term, t | unary, t | power, t | primary, t => t.MentionsOnly names
  | moreFactors first, t => first.MentionsOnly names → t.MentionsOnly names
  | moreTerms, ts | row, ts | moreEntries, ts => ∀ t ∈ ts, t.MentionsOnly names
  | moreRows _, rows => ∀ row ∈ rows, ∀ t ∈ row, t.MentionsOnly names

theorem mentionsOnly_constantNamed {name : String} {t : Term} (h : constantNamed? name = some t) :
    t.MentionsOnly names := by
  unfold constantNamed? at h
  split_ifs at h <;> cases h <;> exact Term.mentionsOnly_of_atom rfl (by simp)

theorem mentionsOnly_operatorNamed {name : String} {f : Term → Term}
    (h : operatorNamed? name = some f) {t : Term} (ht : t.MentionsOnly names) :
    (f t).MentionsOnly names := by
  unfold operatorNamed? at h
  split_ifs at h
  · cases h
    exact Term.mentionsOnly_power.2 ⟨ht, Term.mentionsOnly_of_atom rfl (by simp)⟩
  · cases h
    exact Term.mentionsOnly_power.2 ⟨Term.mentionsOnly_of_atom rfl (by simp), ht⟩
  · obtain ⟨g, -, rfl⟩ := Option.map_eq_some_iff.1 h
    exact Term.mentionsOnly_apply.2 ht

theorem mentionsOnly_pair {a b : Term} (ha : a.MentionsOnly names) (hb : b.MentionsOnly names) :
    (Term.product [a, b]).MentionsOnly names :=
  Term.mentionsOnly_product.2 (List.forall_mem_cons.2 ⟨ha, List.forall_mem_singleton.2 hb⟩)

/-- A derived term mentions only what its tokens name. -/
theorem Derives.mentionsOnly {rule : Rule} {tokens : List Token} {a : rule.Result}
    (h : Derives rule tokens a) (hnames : ∀ token ∈ tokens, token.NamesOnly names) :
    rule.MentionsOnly names a := by
  induction h with
  | expression _ _ iht ihothers =>
    simp only [List.forall_mem_append] at hnames
    exact Term.mentionsOnly_sumOf (List.forall_mem_cons.2 ⟨iht hnames.1, ihothers hnames.2⟩)
  | noTerms | noEntries => exact fun t ht => absurd ht List.not_mem_nil
  | plus _ _ iht ihothers | entry _ _ iht ihothers =>
    simp only [List.forall_mem_cons, List.forall_mem_append] at hnames
    exact List.forall_mem_cons.2 ⟨iht hnames.2.1, ihothers hnames.2.2⟩
  | minus _ _ iht ihothers =>
    simp only [List.forall_mem_cons, List.forall_mem_append] at hnames
    exact List.forall_mem_cons.2
      ⟨Term.mentionsOnly_negation.2 (iht hnames.2.1), ihothers hnames.2.2⟩
  | term _ _ ihfirst ihothers =>
    simp only [List.forall_mem_append] at hnames
    exact ihothers hnames.2 (ihfirst hnames.1)
  | noFactors first => exact id
  | star _ _ ihfactor ihothers =>
    simp only [List.forall_mem_cons, List.forall_mem_append] at hnames
    exact fun hfirst => ihothers hnames.2.2
      (mentionsOnly_pair hfirst (ihfactor hnames.2.1))
  | slash _ _ ihdivisor ihothers =>
    simp only [List.forall_mem_cons, List.forall_mem_append] at hnames
    exact fun hfirst => ihothers hnames.2.2
      (Term.mentionsOnly_quotient.2 ⟨hfirst, ihdivisor hnames.2.1⟩)
  | implicit _ _ ihfactor ihothers =>
    simp only [List.forall_mem_append] at hnames
    exact fun hfirst => ihothers hnames.2
      (mentionsOnly_pair hfirst (ihfactor hnames.1))
  | negative _ ih =>
    exact Term.mentionsOnly_negation.2 (ih (List.forall_mem_cons.1 hnames).2)
  | positive _ ih => exact ih (List.forall_mem_cons.1 hnames).2
  | unary _ ih | power _ ih => exact ih hnames
  | caret _ _ ihbase ihexponent =>
    simp only [List.forall_mem_append, List.forall_mem_cons] at hnames
    exact Term.mentionsOnly_power.2 ⟨ihbase hnames.1, ihexponent hnames.2.2⟩
  | number | pi => exact Term.mentionsOnly_of_atom rfl (by simp)
  | root _ ih =>
    exact Term.mentionsOnly_power.2
      ⟨ih (List.forall_mem_cons.1 hnames).2, Term.mentionsOnly_of_atom rfl (by simp)⟩
  | constant ht => exact mentionsOnly_constantNamed ht
  | application hf _ ih =>
    simp only [List.forall_mem_cons, List.forall_mem_append] at hnames
    exact mentionsOnly_operatorNamed hf (ih hnames.2.2.1)
  | symbol hconstant hoperator _ =>
    exact Term.mentionsOnly_symbol.2 (hnames _ List.mem_cons_self hconstant hoperator)
  | parenthesized _ ih =>
    simp only [List.forall_mem_cons, List.forall_mem_append] at hnames
    exact ih hnames.2.1
  | matrix _ _ ihfirst ihothers =>
    simp only [List.forall_mem_cons, List.forall_mem_append] at hnames
    refine Term.mentionsOnly_matrix.2 (List.forall_mem_append.2 ⟨ihfirst hnames.2.1, ?_⟩)
    exact List.forall_mem_flatten.2 (ihothers hnames.2.2.1)
  | row _ _ ihfirst ihothers =>
    simp only [List.forall_mem_cons, List.forall_mem_append] at hnames
    exact List.forall_mem_cons.2 ⟨ihfirst hnames.2.1, ihothers hnames.2.2.1⟩
  | noRows => exact fun row hrow => absurd hrow List.not_mem_nil
  | nextRow _ _ _ ihterms ihothers =>
    simp only [List.forall_mem_cons, List.forall_mem_append] at hnames
    exact List.forall_mem_cons.2 ⟨ihterms hnames.2.1, ihothers hnames.2.2⟩

/-! ### Pieces of text without names -/

/-- The piece of text names no symbols but the given ones. -/
def NamesOnly (names : String → Prop) (text : List Char) : Prop :=
  ∃ tokens, Lexes text tokens ∧ ∀ token ∈ tokens, token.NamesOnly names

/-- Reading a text that names only certain symbols gives a term that mentions only these. -/
theorem NamesOnly.mentionsOnly {text : String} {t : Term} (h : NamesOnly names text.toList)
    (ht : (parseExpression text).value = .ok t) : t.MentionsOnly names := by
  obtain ⟨tokens, hlexes, hnames⟩ := h
  obtain ⟨lexemes, rfl, htokens⟩ := hlexes.tokenize
  obtain ⟨tokens', hscans, hderives⟩ := parseExpression_eq_ok_iff.1 ht
  obtain ⟨lexemes', htokens', rfl⟩ := exists_tokenize_iff.2 hscans
  cases htokens.symm.trans htokens'
  exact hderives.mentionsOnly hnames

namespace NamesOnly

variable {a b : List Char}

theorem nil : NamesOnly names [] :=
  ⟨[], Lexes.nil, by simp⟩

theorem append (ha : NamesOnly names a) (hb : NamesOnly names b) (hapart : BeginsApart b) :
    NamesOnly names (a ++ b) := by
  obtain ⟨s, hs, hsnames⟩ := ha
  obtain ⟨t, ht, htnames⟩ := hb
  exact ⟨s ++ t, hs.append ht hapart, List.forall_mem_append.2 ⟨hsnames, htnames⟩⟩

/-- A mark of the grammar or the sign of the root in front. -/
theorem cons {c : Char} {token : Token} (hb : NamesOnly names b) (hc : c ∈ '√' :: 'π' :: separators)
    (htoken : Token.ofChar? c = some token) : NamesOnly names (c :: b) := by
  obtain ⟨t, ht, htnames⟩ := hb
  exact ⟨token :: t, ht.cons hc htoken,
    List.forall_mem_cons.2 ⟨Token.namesOnly_of_ofChar? htoken, htnames⟩⟩

/-- A mark of the grammar between two pieces. -/
theorem between {c : Char} {token : Token} (ha : NamesOnly names a) (hb : NamesOnly names b)
    (hc : c ∈ separators) (htoken : Token.ofChar? c = some token) : NamesOnly names (a ++ c :: b) :=
  ha.append (hb.cons (by simp [hc]) htoken) (beginsApart_cons.2 hc)

theorem parenthesize (ha : NamesOnly names a) (wrap : Bool) :
    NamesOnly names (Term.parenthesize wrap a) := by
  cases wrap with
  | false => exact ha
  | true => exact (ha.between nil (c := ')') (by decide) rfl).cons (by decide) rfl

theorem joinTexts {texts : List (List Char)} (h : ∀ text ∈ texts, NamesOnly names text) :
    NamesOnly names (Term.joinTexts '*' texts) := by
  induction texts with
  | nil => exact nil
  | cons text texts ih =>
    obtain ⟨htext, htexts⟩ := List.forall_mem_cons.1 h
    cases texts with
    | nil => exact htext
    | cons next texts =>
      rw [Term.joinTexts]
      · exact htext.between (ih htexts) (by decide) rfl
      · simp

end NamesOnly

/-- A numeral that no mark of the grammar extends is one token. -/
theorem Lexes.numeral {text : List Char} (h : IsNumeral text)
    (hends : ∀ c ∈ separators, ¬IsNumeral (text ++ [c])) : Lexes text [.number text] := by
  intro position rest hrest
  obtain ⟨c, more, rfl, hc⟩ := h.exists_cons
  have hfits : (Pending.mantissa position [c]).Fits := ⟨by simp, by simpa using hc⟩
  obtain ⟨next, lexeme, hlexeme, hread⟩ : ∃ next lexeme, lexeme.token = .number (c :: more) ∧
      tokensFrom (position + c.utf8Size) (.mantissa position [c]) (more ++ rest) =
        (tokensFrom next .nothing rest).map (lexeme :: ·) :=
    hfits.exists_token h rfl (fun d hd => hends d (hrest d hd)) _
  refine ⟨next, [lexeme], by rw [List.map_singleton, hlexeme], ?_⟩
  rw [List.cons_append, tokensFrom_begin? (isBlank_eq_false hc) (by rw [Pending.begin?, if_pos hc]),
    hread]
  rfl

theorem separator_not_digit {c : Char} (hc : c ∈ separators) :
    Pending.beginsNumber c = false ∧ c ≠ 'E' :=
  ⟨eq_false_of_all (by decide) hc, by rintro rfl; exact absurd hc (by decide)⟩

theorem Lexes.mantissa {text : List Char} (h : IsMantissa text) : Lexes text [.number text] := by
  refine Lexes.numeral (.inl h) fun c hc hnumeral => ?_
  obtain ⟨hnumber, hmark⟩ := separator_not_digit hc
  rcases h.extension hnumeral with hextends | rfl
  · rw [hnumber] at hextends
    cases hextends
  · exact hmark rfl

/-- Behind the digits of an exponent no sign is part of the numeral. -/
theorem Lexes.scientific {mantissa exponent : List Char} (h : IsMantissa mantissa)
    (hexponent : IsExponent exponent) (hne : exponent ≠ []) :
    Lexes (mantissa ++ 'E' :: exponent) [.number (mantissa ++ 'E' :: exponent)] := by
  refine Lexes.numeral (.inr ⟨mantissa, exponent, rfl, h, hexponent⟩) fun c hc hnumeral => ?_
  rw [List.append_assoc, List.cons_append] at hnumeral
  obtain ⟨d, digits, rfl⟩ := List.exists_cons_of_ne_nil hne
  have hdigit : c.isDigit = true := (IsNumeral.exponent h hnumeral).2 c (by simp)
  have hnumber := (separator_not_digit hc).1
  rw [Pending.beginsNumber, hdigit] at hnumber
  cases hnumber

/-! ### Decimals -/

theorem isMantissa_joinPoint {whole fraction : List Char} (hne : whole ≠ [])
    (hwhole : ∀ c ∈ whole, c.isDigit = true) (hfraction : ∀ c ∈ fraction, c.isDigit = true) :
    IsMantissa (Digits.joinPoint whole fraction) := by
  have hnumber : ∀ c : Char, c.isDigit = true → Pending.beginsNumber c = true :=
    fun c hc => by rw [Pending.beginsNumber, hc, Bool.true_or]
  unfold Digits.joinPoint
  split_ifs
  · exact ⟨hne, fun c hc => hnumber c (hwhole c hc)⟩
  · refine ⟨by simp, List.forall_mem_append.2 ⟨fun c hc => hnumber c (hwhole c hc), ?_⟩⟩
    exact List.forall_mem_cons.2 ⟨rfl, fun c hc => hnumber c (hfraction c hc)⟩

theorem isMantissa_pointed {digits : List Char} {places : Nat} (h : Literal.IsDigits digits)
    (hplaces : places < digits.length) : IsMantissa (Digits.pointed digits places) := by
  refine isMantissa_joinPoint ?_ (Digits.isDigits_take h _) ((Digits.isDigits_drop h _).trimEnd '0')
  rw [ne_eq, List.take_eq_nil_iff, not_or]
  exact ⟨by omega, List.ne_nil_of_length_pos (by omega)⟩

theorem isExponent_int (z : Int) :
    IsExponent (toString z).toList ∧ (toString z).toList ≠ [] := by
  have hdigits (n : Nat) : ∀ c ∈ Digits.ofNat n, c.isDigit = true :=
    fun c hc => Digits.isDigit_of_mem_ofNat hc
  rw [Digits.toList_toString_int]
  split_ifs
  · refine ⟨⟨fun c hc => ?_, fun c hc => ?_⟩, Digits.ofNat_ne_nil _⟩
    · exact .inr (.inr (hdigits _ c (List.mem_of_mem_head? hc)))
    · exact hdigits _ c (List.mem_of_mem_tail hc)
  · exact ⟨⟨by simp, hdigits _⟩, List.cons_ne_nil _ _⟩

/-- A decimal in display form is one numeral with the sign in front. -/
theorem exists_display_eq {bits : UInt64} {count : Nat} (h : Binary64.significand bits ≠ 0)
    (hcount : 0 < count) : ∃ text, Digits.display bits count = Digits.signed bits text ∧
      Lexes text [.number text] := by
  have hdigits := Literal.isDigits_ofNat (Digits.rounded bits count).significand
  have hlength := (Digits.isRound_rounded h hcount).length_significand hcount
  obtain hdisplay | ⟨places, -, -, hdisplay⟩ := Digits.display_cases h hcount
  · obtain ⟨hexponent, hne⟩ := isExponent_int
      ((Digits.rounded bits count).scale + (count - 1 : Nat))
    refine ⟨_, hdisplay, Lexes.scientific (isMantissa_pointed hdigits ?_) hexponent hne⟩
    omega
  · refine ⟨_, hdisplay, Lexes.mantissa
      (isMantissa_pointed (Digits.isDigits_leftpad _ hdigits) ?_)⟩
    rw [List.length_leftpad]
    omega

theorem significantCount_pos (count : Nat) : 0 < Digits.significantCount count :=
  Nat.le_max_left 1 _

namespace NamesOnly

theorem numeral {text : List Char} (h : Lexes text [.number text]) : NamesOnly names text :=
  ⟨_, h, List.forall_mem_singleton.2 trivial⟩

theorem digits (n : Nat) : NamesOnly names (Digits.ofNat n) :=
  numeral (Lexes.number (Digits.ofNat_ne_nil n) fun _ hc => Digits.isDigit_of_mem_ofNat hc)

theorem int (z : Int) : NamesOnly names (toString z).toList := by
  rw [Digits.toList_toString_int]
  split_ifs
  · exact digits _
  · exact (digits _).cons (by decide) rfl

theorem rational (a : Rat) : NamesOnly names (Rational.text a).toList := by
  unfold Rational.text
  split_ifs
  · exact int _
  · rw [String.toList_append, String.toList_append, List.append_assoc, Digits.toList_toString_nat]
    exact (int _).between (digits _) (by decide) rfl

theorem constantNamed {c : Char} {text : List Char} {t : Term} (hc : beginsName c = true)
    (htext : text.all continuesName = true)
    (h : constantNamed? (String.ofList (c :: text)) = some t) : NamesOnly names (c :: text) :=
  ⟨_, Lexes.name hc htext,
    List.forall_mem_singleton.2 fun hnone => absurd (h.symm.trans hnone) (by simp)⟩

theorem undefined : NamesOnly names "undef".toList :=
  constantNamed (by decide +kernel) (by decide +kernel) rfl

theorem constant (c : Constant) : NamesOnly names c.name.toList := by
  cases c with
  | pi => exact nil.cons (by decide) rfl
  | e => exact constantNamed (by decide +kernel) (by simp) rfl
  | i => exact constantNamed (by decide +kernel) (by simp) rfl

theorem decimal (bits : UInt64) (digits : Nat) :
    NamesOnly names (Digits.format bits digits).toList := by
  unfold Digits.format
  split_ifs with _ hzero
  · exact undefined
  · exact (NamesOnly.digits 0 : NamesOnly names (Digits.ofNat 0))
  · obtain ⟨text, hdisplay, hlexes⟩ := exists_display_eq hzero (significantCount_pos digits)
    rw [String.toList_ofList, hdisplay, Digits.signed]
    split_ifs
    · exact (numeral hlexes).cons (by decide) rfl
    · exact numeral hlexes

end NamesOnly

/-! ### Numeric terms -/

namespace Term

/-- A term of numbers and constants, put together by sums, products and powers. -/
inductive IsNumeric : Term → Prop
  | number (a : Rat) : IsNumeric (.number a)
  | decimal (bits : UInt64) : IsNumeric (.decimal bits)
  | constant (c : Constant) : IsNumeric (.constant c)
  | undefined : IsNumeric .undefined
  | sum {ts : List Term} (h : ∀ t ∈ ts, IsNumeric t) : IsNumeric (.sum ts)
  | product {ts : List Term} (h : ∀ t ∈ ts, IsNumeric t) : IsNumeric (.product ts)
  | power {base exponent : Term} (hbase : IsNumeric base) (hexponent : IsNumeric exponent) :
      IsNumeric (.power base exponent)

theorem isNumeric_ofDouble (x : Float) : (ofDouble x).IsNumeric := by
  unfold ofDouble
  split_ifs
  · exact .decimal _
  · exact .decimal _
  · exact .undefined

end Term

section Writing

variable {digits : Nat} {base exponent : Term}

theorem namesOnly_writePower (hbase : NamesOnly names (base.write digits))
    (hexponent : NamesOnly names (exponent.write digits)) : NamesOnly names
      (Term.writePower base exponent (base.write digits) (exponent.write digits)) := by
  unfold Term.writePower
  split_ifs
  · exact (hbase.parenthesize true).cons (by decide) rfl
  · exact (hbase.parenthesize _).between (hexponent.parenthesize _) (by decide) rfl

theorem namesOnly_writeDenominatorPower (hbase : NamesOnly names (base.write digits)) (e : Rat) :
    NamesOnly names (Term.writeDenominatorPower base e (base.write digits)) := by
  unfold Term.writeDenominatorPower
  dsimp only
  split_ifs
  · exact (hbase.parenthesize true).cons (by decide) rfl
  · exact hbase.parenthesize _
  · exact (hbase.parenthesize _).between ((NamesOnly.rational e).parenthesize _) (by decide) rfl

/-- All parts of a written product name only the given symbols. -/
structure ProductNamesOnly (names : String → Prop) (p : Term.ProductText) : Prop where
  numerator : ∀ text ∈ p.numerator, NamesOnly names text
  denominator : ∀ text ∈ p.denominator, NamesOnly names text

theorem namesOnly_quotient {top : List Char} (htop : NamesOnly names top) :
    ∀ {texts : List (List Char)}, (∀ text ∈ texts, NamesOnly names text) →
      NamesOnly names (top ++ match texts with
        | [] => []
        | [text] => '/' :: text
        | texts => '/' :: Term.parenthesize true (Term.joinTexts '*' texts))
  | [], _ => by simpa using htop
  | [text], h => htop.between (h text List.mem_cons_self) (by decide) rfl
  | _ :: _ :: _, h =>
    htop.between ((NamesOnly.joinTexts h).parenthesize true) (by decide) rfl

theorem ProductNamesOnly.write {p : Term.ProductText} (h : ProductNamesOnly names p) :
    NamesOnly names p.write := by
  have hleading {texts : List (List Char)} (htexts : ∀ text ∈ texts, NamesOnly names text)
      (n : Nat) (leads : Prop) [Decidable leads] :
      ∀ text ∈ (if leads then Digits.ofNat n :: texts else texts), NamesOnly names text := by
    split_ifs
    · exact List.forall_mem_cons.2 ⟨.digits n, htexts⟩
    · exact htexts
  have hsigned {text : List Char} (htext : NamesOnly names text) (negative : Prop)
      [Decidable negative] : NamesOnly names ((if negative then ['-'] else []) ++ text) := by
    split_ifs
    · exact htext.cons (by decide) rfl
    · exact htext
  unfold Term.ProductText.write
  dsimp only
  by_cases hzero : p.coefficient = 0
  · rw [if_pos hzero]
    exact (.digits 0 : NamesOnly names (Digits.ofNat 0))
  · rw [if_neg hzero]
    exact namesOnly_quotient (hsigned (NamesOnly.joinTexts (hleading h.numerator _ _)) _)
      (hleading h.denominator _ _)

variable {t : Term}

/-- What a factor contributes to a written product. -/
theorem ProductNamesOnly.addFactor {p : Term.ProductText} (h : ProductNamesOnly names p)
    {text : List Char} (htext : NamesOnly names text) :
    ProductNamesOnly names (p.addFactor digits t text) := by
  have hnumerator (wrap : Bool) : ∀ text' ∈ Term.parenthesize wrap text :: p.numerator,
      NamesOnly names text' := List.forall_mem_cons.2 ⟨htext.parenthesize wrap, h.numerator⟩
  unfold Term.ProductText.addFactor
  split
  · exact ⟨h.numerator, h.denominator⟩
  · exact ⟨List.forall_mem_cons.2 ⟨.decimal _ _, h.numerator⟩, h.denominator⟩
  · split_ifs
    · exact ⟨h.numerator, List.forall_mem_cons.2 ⟨htext, h.denominator⟩⟩
    · exact ⟨hnumerator false, h.denominator⟩
  · exact ⟨hnumerator _, h.denominator⟩

/-- The term is written with no other names, by itself and as a factor. -/
structure WritesNamesOnly (names : String → Prop) (digits : Nat) (t : Term) : Prop where
  write : NamesOnly names (t.write digits)
  factor : NamesOnly names (t.writeFactor digits)

theorem productNamesOnly_productText {factors : List Term}
    (h : ∀ t ∈ factors, WritesNamesOnly names digits t) :
    ProductNamesOnly names (Term.productText digits factors) := by
  induction factors with
  | nil => exact ⟨by simp [Term.productText], by simp [Term.productText]⟩
  | cons factor rest ih =>
    obtain ⟨hfactor, hrest⟩ := List.forall_mem_cons.1 h
    rw [Term.productText]
    exact (ih hrest).addFactor hfactor.factor

theorem namesOnly_writeSum {terms : List Term} (h : ∀ t ∈ terms, WritesNamesOnly names digits t)
    (isFirst : Bool) : NamesOnly names (Term.writeSum digits terms isFirst) := by
  induction terms generalizing isFirst with
  | nil =>
    rw [Term.writeSum]
    exact .nil
  | cons t ts ih =>
    obtain ⟨ht, hts⟩ := List.forall_mem_cons.1 h
    have htext := (ht.write.parenthesize t.isSum).append (ih hts false)
      (Parser.beginsApart_writeSum digits ts)
    rw [Term.writeSum, List.append_assoc]
    split_ifs
    · exact htext
    · exact htext.cons (by decide) rfl

/-- Only powers are written in another way as factors. -/
theorem writesNamesOnly_of_write (h : NamesOnly names (t.write digits))
    (ht : ∀ base exponent, t ≠ .power base exponent) : WritesNamesOnly names digits t := by
  have hfactor : t.writeFactor digits = t.write digits := by
    cases t <;> simp_all [Term.writeFactor]
  exact ⟨h, hfactor ▸ h⟩

theorem writesNamesOnly_power (hbase : WritesNamesOnly names digits base)
    (hexponent : WritesNamesOnly names digits exponent) :
    WritesNamesOnly names digits (.power base exponent) := by
  constructor
  · rw [Term.write]
    split
    case h_1 e _ =>
      have hproduct : ProductNamesOnly names
          { denominator := [Term.writeDenominatorPower base e (base.write digits)] } :=
        ⟨by simp, List.forall_mem_singleton.2 (namesOnly_writeDenominatorPower hbase.write e)⟩
      exact hproduct.write
    case h_2 => exact namesOnly_writePower hbase.write hexponent.write
  · rw [Term.writeFactor]
    split
    · exact namesOnly_writeDenominatorPower hbase.write _
    · exact namesOnly_writePower hbase.write hexponent.write

/-- The text of a numeric term names no symbols. -/
theorem Term.IsNumeric.writes (h : t.IsNumeric) : WritesNamesOnly names digits t := by
  induction h with
  | number a =>
    refine writesNamesOnly_of_write ?_ nofun
    rw [Term.write]
    exact .rational a
  | decimal bits =>
    refine writesNamesOnly_of_write ?_ nofun
    rw [Term.write]
    exact .decimal bits digits
  | constant c =>
    refine writesNamesOnly_of_write ?_ nofun
    rw [Term.write]
    exact .constant c
  | undefined =>
    refine writesNamesOnly_of_write ?_ nofun
    rw [Term.write]
    exact .undefined
  | sum _ ih =>
    refine writesNamesOnly_of_write ?_ nofun
    rw [Term.write]
    exact namesOnly_writeSum ih true
  | product _ ih =>
    refine writesNamesOnly_of_write ?_ nofun
    rw [Term.write]
    exact (productNamesOnly_productText ih).write
  | power _ _ ihbase ihexponent => exact writesNamesOnly_power ihbase ihexponent

end Writing

/-- What is read back from the text of a numeric term mentions no symbols. -/
theorem mentionsOnly_of_parseExpression_text {digits : Nat} {t read : Term} (ht : t.IsNumeric)
    (hread : (parseExpression (t.text digits)).value = .ok read) : read.MentionsOnly names := by
  refine NamesOnly.mentionsOnly ?_ hread
  rw [Term.text, String.toList_ofList]
  exact ht.writes.write

/-! ### Approximate values -/

namespace Approximation

theorem isNumeric_multiple {t u : Term} (ht : t.IsNumeric) (hu : u.IsNumeric) :
    (Term.product [t, u]).IsNumeric :=
  .product (List.forall_mem_cons.2 ⟨ht, List.forall_mem_singleton.2 hu⟩)

theorem isNumeric_imaginaryTerm (im : Float) : (imaginaryTerm im).value.IsNumeric := by
  unfold imaginaryTerm
  split_ifs
  · exact .constant .i
  · exact isNumeric_multiple (.number (-1)) (.constant .i)
  · exact isNumeric_multiple (Term.isNumeric_ofDouble im) (.constant .i)

theorem isNumeric_polarTerm (z : ComplexFloat) : (polarTerm z).value.IsNumeric := by
  have hexponent := isNumeric_multiple (Term.isNumeric_ofDouble z.argument) (.constant .i)
  have hrotation := Term.IsNumeric.power (.constant .e) hexponent
  unfold polarTerm
  simp only [Build.value_bind]
  split_ifs
  · exact hrotation
  · exact isNumeric_multiple (Term.isNumeric_ofDouble _) hrotation

theorem isNumeric_cartesianTerm (z : ComplexFloat) : (cartesianTerm z).value.IsNumeric := by
  have himaginary := isNumeric_imaginaryTerm z.im
  unfold cartesianTerm
  simp only [Build.value_bind]
  split_ifs
  · exact himaginary
  · exact .sum (List.forall_mem_cons.2
      ⟨Term.isNumeric_ofDouble _, List.forall_mem_singleton.2 himaginary⟩)

theorem isNumeric_toTerm_value (z : ComplexFloat) (format : ComplexFormat) :
    ((value z).toTerm format).value.IsNumeric := by
  unfold toTerm
  dsimp only
  split_ifs
  · exact Term.isNumeric_ofDouble z.re
  · exact isNumeric_polarTerm z
  · exact isNumeric_cartesianTerm z

/-- Unless it is not real, an approximate value is shown by a numeric term. -/
theorem isNumeric_toTerm {a : Approximation} {format : ComplexFormat}
    (h : (a.toTerm format).value ≠ .nonreal) : (a.toTerm format).value.IsNumeric := by
  cases a with
  | nonreal => exact absurd rfl h
  | undefined => exact .undefined
  | value z => exact isNumeric_toTerm_value z format

end Approximation

end EquationSolver
