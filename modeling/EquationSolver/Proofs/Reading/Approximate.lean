import EquationSolver.Proofs.Reading.Names

/-!
# How approximate values are read back

An approximate value is written as a decimal, as `a+b*i` or as `r*e^(θ*i)`, with signs in front of
the decimals.  Reading such a text gives a term of the same shape in which the decimals are exact
numbers; what is not a finite number is written as a name and read as a term without a value.
-/

namespace EquationSolver

/-! ### Literals among tokens -/

/-- If the token is a number, it has a value. -/
def Token.IsLiteral : Token → Prop
  | number text => ∃ a, Literal.ofChars? text = some a
  | _ => True

/-- The numbers among derived tokens have values. -/
theorem Derives.isLiteral {rule : Rule} {tokens : List Token} {a : rule.Result}
    (h : Derives rule tokens a) : ∀ token ∈ tokens, token.IsLiteral := by
  induction h with
  | number ha => exact List.forall_mem_singleton.2 ⟨_, ha⟩
  | _ => simp_all [Token.IsLiteral, or_imp]

/-! ### Texts that a rule reads -/

/-- The text is cut into tokens which, if the numbers among them have values, the rule derives from
    something with the property. -/
def Prescribes (rule : Rule) (text : List Char) (P : rule.Result → Prop) : Prop :=
  ∃ tokens, Lexes text tokens ∧
    ((∀ token ∈ tokens, token.IsLiteral) → ∃ a, Derives rule tokens a ∧ P a)

/-- A sign in front of a text. -/
def signed (negative : Bool) (text : List Char) : List Char :=
  if negative then '-' :: text else text

/-- The term, or its opposite. -/
def Term.signed (negative : Bool) (t : Term) : Term :=
  if negative then .negation t else t

@[simp] theorem Term.signed_false (t : Term) : t.signed false = t := rfl

@[simp] theorem Term.signed_true (t : Term) : t.signed true = .negation t := rfl

/-- The sign in front of a text, as a token. -/
def signTokens (negative : Bool) : List Token :=
  if negative then [.minus] else []

theorem Lexes.signed {text : List Char} {tokens : List Token} (h : Lexes text tokens)
    (negative : Bool) : Lexes (signed negative text) (signTokens negative ++ tokens) := by
  cases negative with
  | false => exact h
  | true => exact h.cons (by decide) rfl

theorem Derives.signed {tokens : List Token} {t : Term} (h : Derives .unary tokens t)
    (negative : Bool) : Derives .unary (signTokens negative ++ tokens) (t.signed negative) := by
  cases negative with
  | false => exact h
  | true => exact h.negative

namespace Prescribes

variable {a b : List Char} {A B : Term → Prop}

/-- What has been read from the text has the property. -/
theorem of_parseExpression {text : String} {t : Term} (h : Prescribes .expression text.toList A)
    (ht : (parseExpression text).value = .ok t) : A t := by
  obtain ⟨tokens, hlexes, hderives⟩ := h
  obtain ⟨lexemes, rfl, htokens⟩ := hlexes.tokenize
  have hscans := exists_tokenize_iff.1 ⟨lexemes, htokens, rfl⟩
  obtain ⟨tokens', hscans', ht'⟩ := parseExpression_eq_ok_iff.1 ht
  obtain ⟨lexemes', htokens', rfl⟩ := exists_tokenize_iff.2 hscans'
  cases htokens.symm.trans htokens'
  obtain ⟨u, hu, hA⟩ := hderives ht'.isLiteral
  have hread := parseExpression_eq_ok_iff.2 ⟨_, hscans, hu⟩
  obtain rfl : u = t := Except.ok.inj (hread.symm.trans ht)
  exact hA

theorem mono {rule : Rule} {P Q : rule.Result → Prop} (h : Prescribes rule a P)
    (hPQ : ∀ r, P r → Q r) : Prescribes rule a Q := by
  obtain ⟨tokens, hlexes, hderives⟩ := h
  refine ⟨tokens, hlexes, fun hliterals => ?_⟩
  obtain ⟨r, hr, hP⟩ := hderives hliterals
  exact ⟨r, hr, hPQ r hP⟩

/-- A power with a sign in front. -/
theorem sign (h : Prescribes .power a A) (negative : Bool) :
    Prescribes .term (signed negative a) fun t => ∃ u, A u ∧ t = u.signed negative := by
  obtain ⟨tokens, hlexes, hderives⟩ := h
  refine ⟨_, hlexes.signed negative, fun hliterals => ?_⟩
  obtain ⟨u, hu, hA⟩ := hderives (List.forall_mem_append.1 hliterals).2
  refine ⟨u.signed negative, ?_, u, hA, rfl⟩
  simpa using ((Derives.unary hu).signed negative).term (.noFactors _)

/-- A power with a sign in front and another one behind it. -/
theorem product (ha : Prescribes .power a A) (hb : Prescribes .power b B) (negative : Bool) :
    Prescribes .term (signed negative (a ++ '*' :: b)) fun t =>
      ∃ u w, A u ∧ B w ∧ t = .product [u.signed negative, w] := by
  obtain ⟨ts, hts, hderives⟩ := ha
  obtain ⟨us, hus, hderives'⟩ := hb
  have hlexes : Lexes (a ++ '*' :: b) (ts ++ .star :: us) :=
    hts.append (hus.cons (by decide) rfl) (beginsApart_cons.2 (by decide))
  refine ⟨_, hlexes.signed negative, fun hliterals => ?_⟩
  simp only [List.forall_mem_append, List.forall_mem_cons] at hliterals
  obtain ⟨u, hu, hA⟩ := hderives hliterals.2.1
  obtain ⟨w, hw, hB⟩ := hderives' hliterals.2.2.2
  have hfirst := (Derives.unary hu).signed negative
  have hfactors := Derives.star (.unary hw) (.noFactors (.product [u.signed negative, w]))
  refine ⟨_, ?_, u, w, hA, hB, rfl⟩
  simpa using hfirst.term hfactors

theorem expression (h : Prescribes .term a A) : Prescribes .expression a A := by
  obtain ⟨tokens, hlexes, hderives⟩ := h
  refine ⟨tokens, hlexes, fun hliterals => ?_⟩
  obtain ⟨t, ht, hA⟩ := hderives hliterals
  exact ⟨t, by simpa [Term.sumOf] using ht.expression .noTerms, hA⟩

/-- Two terms with a sign between them. -/
theorem sum (ha : Prescribes .term a A) (hb : Prescribes .term b B) (negative : Bool) :
    Prescribes .expression (a ++ (if negative then '-' else '+') :: b) fun t =>
      ∃ u w, A u ∧ B w ∧ t = .sum [u, w.signed negative] := by
  obtain ⟨ts, hts, hderives⟩ := ha
  obtain ⟨us, hus, hderives'⟩ := hb
  refine ⟨ts ++ (if negative then .minus else .plus) :: us, hts.append (hus.cons ?_ ?_)
    (beginsApart_cons.2 ?_), fun hliterals => ?_⟩
  · cases negative <;> decide
  · cases negative <;> rfl
  · cases negative <;> decide
  simp only [List.forall_mem_append, List.forall_mem_cons] at hliterals
  obtain ⟨u, hu, hA⟩ := hderives hliterals.1
  obtain ⟨w, hw, hB⟩ := hderives' hliterals.2.2
  have hothers : Derives .moreTerms ((if negative then .minus else .plus) :: us)
      [w.signed negative] := by
    cases negative with
    | false => simpa using hw.plus .noTerms
    | true => simpa using hw.minus .noTerms
  exact ⟨_, hu.expression hothers, u, w, hA, hB, rfl⟩

/-- A constant with a name of one letter. -/
theorem constant {c : Char} {t : Term} (hc : beginsName c = true)
    (h : constantNamed? (String.ofList [c]) = some t) : Prescribes .primary [c] (· = t) :=
  ⟨_, Lexes.name hc rfl, fun _ => ⟨t, .constant h, rfl⟩⟩

/-- A power of Euler's number. -/
theorem exp (h : Prescribes .term a A) :
    Prescribes .power ('e' :: '^' :: '(' :: a ++ [')']) fun t =>
      ∃ u, A u ∧ t = .power (.constant .e) u := by
  obtain ⟨tokens, hlexes, hderives⟩ := h.expression
  have henclosed : Lexes ('(' :: (a ++ [')'])) (.openParen :: (tokens ++ [.closeParen])) :=
    (hlexes.append (Lexes.nil.cons (by decide) rfl) (beginsApart_cons.2 (by decide))).cons
      (by decide) rfl
  obtain ⟨base, hbase, hderived⟩ := constant (c := 'e') (t := .constant .e)
    (by decide +kernel) rfl
  refine ⟨base ++ .caret :: .openParen :: (tokens ++ [.closeParen]),
    hbase.append (henclosed.cons (by decide) rfl) (beginsApart_cons.2 (by decide)),
    fun hliterals => ?_⟩
  simp only [List.forall_mem_append, List.forall_mem_cons] at hliterals
  obtain ⟨_, he, rfl⟩ := hderived hliterals.1
  obtain ⟨u, hu, hA⟩ := hderives hliterals.2.2.2.1
  exact ⟨_, he.caret (.unary (.power hu.parenthesized)), u, hA, rfl⟩

end Prescribes

/-! ### Decimals -/

/-- What the text of a magnitude is read as. -/
inductive IsMagnitude : Term → Prop
  | number (a : Rat) : IsMagnitude (.number a)
  | undefined : IsMagnitude .undefined

/-- The text of a magnitude. -/
structure WritesMagnitude (text : List Char) : Prop where
  prescribes : Prescribes .power text IsMagnitude
  head_ne : text.head? ≠ some '-'

theorem writesMagnitude_numeral {text : List Char} (h : Lexes text [.number text]) :
    WritesMagnitude text := by
  refine ⟨⟨_, h, fun hliterals => ?_⟩, fun hhead => ?_⟩
  · obtain ⟨a, ha⟩ := hliterals _ List.mem_cons_self
    exact ⟨.number a, .power (.number ha), .number a⟩
  · obtain ⟨rest, rfl⟩ := List.head?_eq_some_iff.1 hhead
    have hminus : [Token.number ('-' :: rest)].head? = some .minus := h.head?_eq (by decide) rfl
    cases hminus

theorem writesMagnitude_undefined : WritesMagnitude "undef".toList := by
  refine ⟨⟨[.name "undef".toList], ?_, fun _ => ?_⟩, ?_⟩
  · exact Lexes.name (by decide +kernel) (by decide +kernel)
  · exact ⟨.undefined, .power (.constant rfl), .undefined⟩
  · decide

/-- Without its sign a double is not negative. -/
theorem Binary64.signBit_magnitude (bits : UInt64) :
    signBit (UInt64.ofNat (bits.toNat % signWord)) = false := by
  have hlt : bits.toNat % signWord < signWord := Nat.mod_lt _ (by decide)
  have hword : signWord < UInt64.size := by decide
  rw [signBit, UInt64.toNat_ofNat_of_lt' (hlt.trans hword), Nat.div_eq_of_lt hlt]
  rfl

/-- A decimal is a magnitude with the sign of its bits. -/
theorem exists_format_eq (bits : UInt64) (digits : Nat) : ∃ negative text,
    (Digits.format bits digits).toList = signed negative text ∧ WritesMagnitude text ∧
      (negative = true → Binary64.signBit bits = true) := by
  unfold Digits.format
  split_ifs with _ hzero
  · exact ⟨false, _, rfl, writesMagnitude_undefined, nofun⟩
  · exact ⟨false, Digits.ofNat 0, by decide, writesMagnitude_numeral (Lexes.number
      (Digits.ofNat_ne_nil 0) fun _ hc => Digits.isDigit_of_mem_ofNat hc), nofun⟩
  · obtain ⟨text, hdisplay, hlexes⟩ := exists_display_eq hzero (significantCount_pos digits)
    rw [String.toList_ofList, hdisplay]
    exact ⟨Binary64.signBit bits, text, rfl, writesMagnitude_numeral hlexes, id⟩

namespace Term

variable {digits : Nat}

/-- A double is written as a magnitude with a sign. -/
theorem exists_write_ofDouble (digits : Nat) (x : Float) : ∃ negative text,
    (ofDouble x).write digits = EquationSolver.signed negative text ∧ WritesMagnitude text := by
  have hdecimal (bits : UInt64) : ∃ negative text,
      (decimal bits).write digits = EquationSolver.signed negative text ∧ WritesMagnitude text := by
    obtain ⟨negative, text, htext, hwrites, -⟩ := exists_format_eq bits digits
    exact ⟨negative, text, by rw [write, htext], hwrites⟩
  unfold ofDouble
  split_ifs
  · exact hdecimal _
  · exact hdecimal _
  · exact ⟨false, _, by rw [write]; rfl, writesMagnitude_undefined⟩

theorem write_productText_pair (negative : Bool) (a b : List Char) :
    ProductText.write { negative, numerator := [a, b] } =
      EquationSolver.signed negative (a ++ '*' :: b) := by
  cases negative <;> simp [ProductText.write, joinTexts, EquationSolver.signed]

/-- A multiple by a double is written as a magnitude times what it multiplies, with the sign in
    front. -/
theorem exists_write_multiple (x : Float) {t : Term} {factor : List Char}
    (ht : productText digits [t] = { numerator := [factor] }) :
    ∃ negative text, (product [ofDouble x, t]).write digits =
        EquationSolver.signed negative (text ++ '*' :: factor) ∧ WritesMagnitude text := by
  have hdecimal (bits : UInt64) : ∃ negative text, (product [decimal bits, t]).write digits =
      EquationSolver.signed negative (text ++ '*' :: factor) ∧ WritesMagnitude text := by
    obtain ⟨negative, text, htext, hwrites, hsign⟩ :=
      exists_format_eq (UInt64.ofNat (bits.toNat % Binary64.signWord)) digits
    have hpositive : negative = false := by
      by_contra hnegative
      have hsigned := hsign (Bool.of_not_eq_false hnegative)
      rw [Binary64.signBit_magnitude] at hsigned
      cases hsigned
    refine ⟨Binary64.signBit bits, text, ?_, hwrites⟩
    rw [write, productText, ht, ProductText.addFactor, htext, hpositive, Bool.xor_false]
    exact write_productText_pair _ _ _
  unfold ofDouble
  split_ifs
  · exact hdecimal _
  · exact hdecimal _
  · refine ⟨false, _, ?_, writesMagnitude_undefined⟩
    have hundefined : writeFactor digits undefined = "undef".toList := by
      simp only [writeFactor, write]
    rw [write, productText, ht, hundefined]
    exact write_productText_pair _ _ _

end Term

/-! ### Real, cartesian and polar values -/

/-- What the text of a real value is read as. -/
def IsSignedMagnitude (t : Term) : Prop :=
  ∃ u negative, IsMagnitude u ∧ t = u.signed negative

/-- What the text of a real value, or of one with an imaginary part, is read as. -/
inductive IsCartesian : Term → Prop
  | magnitude {t : Term} (h : IsMagnitude t) : IsCartesian t
  | i : IsCartesian (.constant .i)
  | negation {t : Term} (h : IsCartesian t) : IsCartesian (.negation t)
  | sum {t u : Term} (ht : IsCartesian t) (hu : IsCartesian u) : IsCartesian (.sum [t, u])
  | product {t u : Term} (ht : IsCartesian t) (hu : IsCartesian u) : IsCartesian (.product [t, u])

theorem IsCartesian.signed {t : Term} (h : IsCartesian t) (negative : Bool) :
    IsCartesian (t.signed negative) := by
  cases negative with
  | false => exact h
  | true => exact h.negation

theorem IsSignedMagnitude.isCartesian {t : Term} (h : IsSignedMagnitude t) : IsCartesian t := by
  obtain ⟨u, negative, hu, rfl⟩ := h
  exact IsCartesian.signed (.magnitude hu) negative

/-- What the text of a complex number of modulus one is read as. -/
def IsRotation (t : Term) : Prop :=
  ∃ u, IsSignedMagnitude u ∧ t = .power (.constant .e) (.product [u, .constant .i])

/-- What the text of a complex number in polar form is read as. -/
inductive IsPolar : Term → Prop
  | rotation {t : Term} (h : IsRotation t) : IsPolar t
  | product {t u : Term} (ht : IsSignedMagnitude t) (hu : IsRotation u) : IsPolar (.product [t, u])

theorem WritesMagnitude.isSignedMagnitude {text : List Char} (h : WritesMagnitude text)
    (negative : Bool) : Prescribes .term (signed negative text) IsSignedMagnitude :=
  (h.prescribes.sign negative).mono fun _ ⟨u, hu, ht⟩ => ⟨u, negative, hu, ht⟩

theorem prescribes_i : Prescribes .power "i".toList (· = .constant .i) := by
  obtain ⟨tokens, hlexes, hderives⟩ := Prescribes.constant (c := 'i') (t := .constant .i)
    (by decide +kernel) rfl
  refine ⟨tokens, hlexes, fun hliterals => ?_⟩
  obtain ⟨t, ht, heq⟩ := hderives hliterals
  exact ⟨t, .power ht, heq⟩

/-- A magnitude times the imaginary unit. -/
theorem WritesMagnitude.timesI {text : List Char} (h : WritesMagnitude text) (negative : Bool) :
    Prescribes .term (signed negative (text ++ '*' :: "i".toList)) fun t =>
      ∃ u, IsSignedMagnitude u ∧ t = .product [u, .constant .i] := by
  refine (h.prescribes.product prescribes_i negative).mono ?_
  rintro _ ⟨u, _, hu, rfl, rfl⟩
  exact ⟨_, ⟨u, negative, hu, rfl⟩, rfl⟩

theorem WritesMagnitude.head_append_ne {text : List Char} (h : WritesMagnitude text)
    (factor : List Char) : (text ++ '*' :: factor).head? ≠ some '-' := by
  cases text with
  | nil => simp
  | cons c text => exact h.head_ne

namespace Approximation

variable {digits : Nat}

theorem productText_i (digits : Nat) :
    Term.productText digits [.constant .i] = { numerator := ["i".toList] } := by
  simp [Term.productText, Term.writeFactor, Term.write, Constant.name, Term.ProductText.addFactor,
    Term.isLooserThanProduct, Term.parenthesize]

/-- The text of an imaginary part has a sign, and may be read with another one. -/
theorem exists_write_imaginaryTerm (digits : Nat) (im : Float) : ∃ negative text,
    (imaginaryTerm im).value.write digits = signed negative text ∧ text.head? ≠ some '-' ∧
      ∀ other, Prescribes .term (signed other text) IsCartesian := by
  have hunit (negative : Bool) : Prescribes .term (signed negative "i".toList) IsCartesian := by
    refine (prescribes_i.sign negative).mono ?_
    rintro _ ⟨_, rfl, rfl⟩
    exact IsCartesian.i.signed negative
  unfold imaginaryTerm
  split_ifs
  · refine ⟨false, "i".toList, ?_, by decide, hunit⟩
    simp only [Build.value_pure, Term.write]
    rfl
  · refine ⟨true, "i".toList, ?_, by decide, hunit⟩
    have hproduct : Term.productText digits [.number (-1), .constant .i] =
        { coefficient := -1, numerator := ["i".toList] } := by
      rw [Term.productText, productText_i]
      simp [Term.ProductText.addFactor]
    simp only [Build.value_bind, Build.value_number, Build.value_product, Term.productOf,
      Term.write, hproduct]
    decide +kernel
  · obtain ⟨negative, text, htext, hwrites⟩ :=
      Term.exists_write_multiple im (productText_i digits)
    refine ⟨negative, _, htext, hwrites.head_append_ne _, fun other => ?_⟩
    refine (hwrites.timesI other).mono ?_
    rintro _ ⟨u, hu, rfl⟩
    exact .product hu.isCartesian .i

theorem isSum_ofDouble (x : Float) : (Term.ofDouble x).isSum = false := by
  unfold Term.ofDouble
  split_ifs <;> rfl

theorem isSum_imaginaryTerm (im : Float) : (imaginaryTerm im).value.isSum = false := by
  unfold imaginaryTerm
  split_ifs <;> rfl

theorem value_cartesianTerm (z : ComplexFloat) : (cartesianTerm z).value =
    if z.re == 0 then (imaginaryTerm z.im).value
    else .sum [Term.ofDouble z.re, (imaginaryTerm z.im).value] := by
  unfold cartesianTerm
  split_ifs <;> simp only [Build.value_bind, *] <;> rfl

theorem prescribes_cartesianTerm (z : ComplexFloat) :
    Prescribes .expression ((cartesianTerm z).value.write digits) IsCartesian := by
  obtain ⟨negative, text, htext, hhead, hreads⟩ :=
    exists_write_imaginaryTerm digits z.im
  rw [value_cartesianTerm]
  split_ifs
  · rw [htext]
    exact (hreads negative).expression
  · obtain ⟨negative', text', htext', hwrites⟩ := Term.exists_write_ofDouble digits z.re
    have hsum : (Term.sum [Term.ofDouble z.re, (imaginaryTerm z.im).value]).write digits =
        signed negative' text' ++ (if negative then '-' else '+') :: text := by
      simp only [Term.write, Term.writeSum, isSum_ofDouble, isSum_imaginaryTerm, htext, htext']
      cases negative with
      | false => simp [signed, Term.parenthesize, hhead]
      | true => simp [signed, Term.parenthesize]
    rw [hsum]
    refine ((hwrites.isSignedMagnitude negative').sum (hreads false) negative).mono ?_
    rintro _ ⟨u, w, hu, hw, rfl⟩
    exact .sum hu.isCartesian (hw.signed negative)

/-- A complex number of modulus one as a term. -/
def rotation (θ : Float) : Term :=
  .power (.constant .e) (.product [Term.ofDouble θ, .constant .i])

theorem value_polarTerm (z : ComplexFloat) : (polarTerm z).value =
    if z.modulus == 1 then rotation z.argument
    else .product [Term.ofDouble z.modulus, rotation z.argument] := by
  unfold polarTerm
  split_ifs <;> simp only [Build.value_bind, *] <;> rfl

theorem write_rotation {θ : Float} {text : List Char}
    (h : (Term.product [Term.ofDouble θ, .constant .i]).write digits = text) :
    (rotation θ).write digits = 'e' :: '^' :: '(' :: text ++ [')'] := by
  have hbase : (Term.constant .e).write digits = ['e'] := by
    simp only [Term.write]
    rfl
  have hexponent : Term.product [Term.ofDouble θ, .constant .i] ≠ .number (1 / 2) := nofun
  rw [rotation, Term.write, h, hbase, Term.writePower, if_neg hexponent]
  rfl

theorem productText_rotation (digits : Nat) (θ : Float) :
    Term.productText digits [rotation θ] = { numerator := [(rotation θ).write digits] } := by
  simp [rotation, Term.productText, Term.writeFactor, Term.write, Term.denominatorExponent?,
    Term.ProductText.addFactor]

theorem prescribes_rotation (digits : Nat) (θ : Float) :
    Prescribes .power ((rotation θ).write digits) IsRotation := by
  obtain ⟨negative, text, htext, hwrites⟩ :=
    Term.exists_write_multiple θ (productText_i digits)
  rw [write_rotation htext]
  refine (hwrites.timesI negative).exp.mono ?_
  rintro _ ⟨_, ⟨u, hu, rfl⟩, rfl⟩
  exact ⟨u, hu, rfl⟩

theorem prescribes_polarTerm (z : ComplexFloat) :
    Prescribes .expression ((polarTerm z).value.write digits) IsPolar := by
  have hrotation := prescribes_rotation digits z.argument
  rw [value_polarTerm]
  split_ifs
  · refine (hrotation.sign false).expression.mono ?_
    rintro _ ⟨u, hu, rfl⟩
    exact .rotation hu
  · obtain ⟨negative, text, htext, hwrites⟩ :=
      Term.exists_write_multiple z.modulus (productText_rotation digits z.argument)
    rw [htext]
    refine (hwrites.prescribes.product hrotation negative).expression.mono ?_
    rintro _ ⟨u, w, hu, hw, rfl⟩
    exact .product ⟨u, negative, hu, rfl⟩ hw

/-! ### Approximate values -/

/-- Reading back the text of a real value. -/
theorem isSignedMagnitude_of_parse {x : Float} {read : Term}
    (h : (parseExpression ((Term.ofDouble x).text digits)).value = .ok read) :
    IsSignedMagnitude read := by
  obtain ⟨negative, text, htext, hwrites⟩ := Term.exists_write_ofDouble digits x
  refine Prescribes.of_parseExpression ?_ h
  rw [Term.text, String.toList_ofList, htext]
  exact (hwrites.isSignedMagnitude negative).expression

/-- Reading back the text of a value in any format. -/
theorem isCartesian_or_isPolar_of_parse {z : ComplexFloat} {format : ComplexFormat} {read : Term}
    (h : (parseExpression (((value z).toTerm format).value.text digits)).value = .ok read) :
    IsCartesian read ∨ IsPolar read := by
  unfold toTerm at h
  dsimp only at h
  split_ifs at h
  · exact .inl (isSignedMagnitude_of_parse h).isCartesian
  · refine .inr (Prescribes.of_parseExpression ?_ h)
    rw [Term.text, String.toList_ofList]
    exact prescribes_polarTerm z
  · refine .inl (Prescribes.of_parseExpression ?_ h)
    rw [Term.text, String.toList_ofList]
    exact prescribes_cartesianTerm z

end Approximation

end EquationSolver
