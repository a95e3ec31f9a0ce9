import EquationSolver.Proofs.Number.Decimal
import EquationSolver.Proofs.Reading.Shown
import Mathlib.Tactic.Ring

/-!
# Texts that read back

The written form of a term is read as an expression of the same value.  Each kind of term is
written at one level of the grammar: what stands alone is an operand, sums are expressions,
and everything else is a term, with its sign in front.  The parentheses of the printer are
those that the levels ask for.
-/

namespace EquationSolver

open Term

namespace Parser

variable {K : Type*} [Field K] {I : Interpretation K}

/-! ### Numbers -/

theorem shows_digits (n : Nat) : Shows (IsPrimary I) (Digits.ofNat n) (n : K) := by
  refine ⟨_, Lexes.number (Digits.ofNat_ne_nil n) fun c hc => Digits.isDigit_of_mem_ofNat hc, ?_⟩
  simpa using isPrimary_number (I := I) (Literal.ofChars?_ofNat n)

/-- The text of an integer is a term, with the sign in front. -/
theorem shows_int (z : Int) : Shows (IsTerm I) (toString z).toList (z : K) := by
  rw [Digits.toList_toString_int]
  split
  case isTrue h =>
    refine (shows_digits z.toNat).power.term.congr ?_
    rw [← Int.cast_natCast, Int.toNat_of_nonneg h]
  case isFalse h =>
    refine (shows_digits (-z).toNat).power.term.neg.congr ?_
    rw [← Int.cast_natCast, Int.toNat_of_nonneg (by omega), Int.cast_neg, neg_neg]

theorem shows_rational [CharZero K] (a : Rat) :
    Shows (IsTerm I) (Rational.text a).toList (a : K) := by
  unfold Rational.text
  split
  case isTrue h =>
    refine (shows_int a.num).congr ?_
    rw [Rat.cast_def, h, Nat.cast_one, div_one]
  case isFalse h =>
    rw [String.toList_append, String.toList_append, List.append_assoc, Digits.toList_toString_nat,
      Rat.cast_def]
    exact (shows_int a.num).div (shows_digits a.den).power

/-- A natural number is written as an operand. -/
theorem shows_natural {a : Rat} (hden : a.den = 1) (hnonneg : 0 ≤ a) :
    Shows (IsPrimary I) (Rational.text a).toList (a : K) := by
  have hnum : 0 ≤ a.num := Rat.num_nonneg.2 hnonneg
  rw [Rational.text, if_pos hden, Digits.toList_toString_int, if_pos hnum]
  refine (shows_digits _).congr ?_
  rw [Rat.cast_def, hden, Nat.cast_one, div_one, ← Int.cast_natCast, Int.toNat_of_nonneg hnum]

/-! ### Parentheses -/

/-- The written form of a term shows its value at the level that its kind has. -/
structure ShowsTerm (I : Interpretation K) (digits : Nat) (t : Term) : Prop where
  expression : Shows (IsExpression I) (t.write digits) (t.interpret I)
  term : t.isSum = false → Shows (IsTerm I) (t.write digits) (t.interpret I)
  operand : t.standsAlone = true → Shows (IsPrimary I) (t.write digits) (t.interpret I)

namespace ShowsTerm

variable {digits : Nat} {t : Term}

theorem of_operand (h : Shows (IsPrimary I) (t.write digits) (t.interpret I)) :
    ShowsTerm I digits t :=
  ⟨h.power.term.expression, fun _ => h.power.term, fun _ => h⟩

theorem of_term (h : Shows (IsTerm I) (t.write digits) (t.interpret I))
    (halone : t.standsAlone = false) : ShowsTerm I digits t :=
  ⟨h.expression, fun _ => h, by simp [halone]⟩

/-- In parentheses unless it stands alone, a term is an operand. -/
theorem wrapped_operand (h : ShowsTerm I digits t) (wrap : Bool)
    (hwrap : wrap = false → t.standsAlone = true) :
    Shows (IsPrimary I) (parenthesize wrap (t.write digits)) (t.interpret I) := by
  cases wrap with
  | true => exact h.expression.parenthesized
  | false => exact h.operand (hwrap rfl)

/-- In parentheses if it is a sum, a term is written as one. -/
theorem wrapped_term (h : ShowsTerm I digits t) (wrap : Bool)
    (hwrap : wrap = false → t.isSum = false) :
    Shows (IsTerm I) (parenthesize wrap (t.write digits)) (t.interpret I) := by
  cases wrap with
  | true => exact h.expression.parenthesized.power.term
  | false => exact h.term (hwrap rfl)

end ShowsTerm

/-! ### Powers -/

theorem eq_of_denominatorExponent?_eq_some {exponent : Term} {e : Rat}
    (h : denominatorExponent? exponent = some e) : exponent = .number (-e) ∧ 0 < e := by
  cases exponent with
  | number a =>
    simp only [denominatorExponent?, Option.ite_none_right_eq_some, Option.some.injEq] at h
    obtain ⟨hneg, rfl⟩ := h
    exact ⟨by rw [neg_neg], by linarith⟩
  | _ => simp [denominatorExponent?] at h

theorem standsAlone_of_standsAsExponent {t : Term} (h : t.standsAsExponent = true) :
    t.standsAlone = true := by
  cases t with
  | number a => exact h
  | constant c => rfl
  | symbol name => rfl
  | _ => cases h

theorem shows_writePower {digits : Nat} {base exponent : Term} (hbase : ShowsTerm I digits base)
    (hexponent : ShowsTerm I digits exponent) :
    Shows (IsPower I) (writePower base exponent (base.write digits) (exponent.write digits))
      (I.power (base.interpret I) (exponent.interpret I)) := by
  unfold writePower
  split
  case isTrue h =>
    subst h
    exact hbase.expression.parenthesized.root.power.congr (by simp [interpret])
  case isFalse =>
    exact (hbase.wrapped_operand _ (by simp)).caret
      (hexponent.wrapped_operand _ fun h => standsAlone_of_standsAsExponent (by simpa using h))

/-- The power that is written in the denominator has the opposite exponent. -/
theorem shows_writeDenominatorPower [CharZero K] {digits : Nat} {base : Term}
    (hbase : ShowsTerm I digits base) {e : Rat} (he : 0 < e) :
    Shows (IsPower I) (writeDenominatorPower base e (base.write digits))
      (I.power (base.interpret I) (e : K)) := by
  unfold writeDenominatorPower
  have hoperand := hbase.wrapped_operand (!base.standsAlone) (by simp)
  split
  case isTrue h =>
    subst h
    exact hbase.expression.parenthesized.root.power
  case isFalse =>
    dsimp only
    split
    case isTrue h =>
      subst h
      exact hoperand.power.congr (by rw [Rat.cast_one, I.power_one])
    case isFalse =>
      apply hoperand.caret
      by_cases hden : e.den = 1
      · simpa [hden, parenthesize] using shows_natural (I := I) hden he.le
      · simpa [hden] using (shows_rational (I := I) e).expression.parenthesized

/-! ### Products -/

/-- The parts of a written product show factors and divisors of a value. -/
def ShowsProduct (I : Interpretation K) (p : ProductText) (v : K) : Prop :=
  p.negative = false ∧ ∃ ns ds, List.Forall₂ (Shows (IsTerm I)) p.numerator ns ∧
    List.Forall₂ (Shows (IsPower I)) p.denominator ds ∧ v = p.coefficient * (ns.prod / ds.prod)

theorem shows_quotient {a : List Char} {v : K} (h : Shows (IsTerm I) a v)
    {texts : List (List Char)} {ds : List K} :
    List.Forall₂ (Shows (IsPower I)) texts ds →
    Shows (IsTerm I) (a ++ match texts with
      | [] => []
      | [text] => '/' :: text
      | texts => '/' :: parenthesize true (Term.joinTexts '*' texts)) (v / ds.prod) := by
  intro hs
  match hs with
  | .nil => simpa using h
  | .cons hd .nil => simpa using h.div hd
  | .cons hd (.cons hd' hs) =>
    apply h.div
    have hterms : List.Forall₂ (Shows (IsTerm I)) _ _ :=
      (List.Forall₂.cons hd (.cons hd' hs)).imp fun _ _ h => h.term
    exact (Shows.joinTexts hterms (by simp)).expression.parenthesized.power

theorem ShowsProduct.write [CharZero K] {p : ProductText} {v : K} (h : ShowsProduct I p v) :
    Shows (IsTerm I) p.write v := by
  obtain ⟨hnegative, ns, ds, hns, hds, rfl⟩ := h
  unfold ProductText.write
  split
  case isTrue h =>
    exact (shows_digits 0).power.term.congr (by simp [h])
  case isFalse h =>
    have htop : Shows (IsTerm I) (Term.joinTexts '*'
        (if p.coefficient.num.natAbs ≠ 1 ∨ p.numerator.isEmpty then
          Digits.ofNat p.coefficient.num.natAbs :: p.numerator else p.numerator))
        (p.coefficient.num.natAbs * ns.prod) := by
      split
      case isTrue =>
        have htexts := List.Forall₂.cons (shows_digits p.coefficient.num.natAbs).power.term hns
        exact (Shows.joinTexts htexts (by simp)).congr (by simp)
      case isFalse hone =>
        simp only [ne_eq, not_or, not_not, Bool.not_eq_true, List.isEmpty_eq_false_iff] at hone
        exact (Shows.joinTexts hns hone.2).congr (by simp [hone.1])
    obtain ⟨es, hes, hprod⟩ : ∃ es, List.Forall₂ (Shows (IsPower I))
        (if p.coefficient.den ≠ 1 then Digits.ofNat p.coefficient.den :: p.denominator
          else p.denominator) es ∧ es.prod = p.coefficient.den * ds.prod := by
      split
      case isTrue =>
        exact ⟨_, .cons (shows_digits p.coefficient.den).power hds, by simp⟩
      case isFalse hone =>
        exact ⟨ds, hds, by simp [not_not.1 hone]⟩
    have hquotient := shows_quotient htop hes
    have habs : |p.coefficient| = p.coefficient.num.natAbs / p.coefficient.den := by
      rw [Rat.abs_def, Rat.divInt_eq_div, Int.cast_natCast, Int.cast_natCast]
    have hvalue : p.coefficient.num.natAbs * ns.prod / es.prod =
        ((|p.coefficient| : Rat) : K) * (ns.prod / ds.prod) := by
      rw [hprod, habs, Rat.cast_div, Rat.cast_natCast, Rat.cast_natCast, mul_div_mul_comm]
    rw [hvalue] at hquotient
    dsimp only
    rw [hnegative, List.append_assoc]
    by_cases hsign : p.coefficient < 0
    · rw [decide_eq_true hsign]
      exact hquotient.neg.congr (by rw [abs_of_neg hsign, Rat.cast_neg, neg_mul, neg_neg])
    · rw [decide_eq_false hsign]
      exact hquotient.congr (by rw [abs_of_nonneg (not_lt.1 hsign)])

/-- What a factor contributes to a written product. -/
def ShowsFactor (I : Interpretation K) (digits : Nat) (t : Term) : Prop :=
  ∀ p v, ShowsProduct I p v →
    ShowsProduct I (p.addFactor digits t (t.writeFactor digits)) (t.interpret I * v)

theorem showsFactor_of_term {digits : Nat} {t : Term} (h : ShowsTerm I digits t)
    (hadd : ∀ p : ProductText, p.addFactor digits t (t.writeFactor digits) = { p with
      numerator := parenthesize t.isLooserThanProduct (t.write digits) :: p.numerator }) :
    ShowsFactor I digits t := by
  intro p v hp
  obtain ⟨hnegative, ns, ds, hns, hds, rfl⟩ := hp
  rw [hadd]
  refine ⟨hnegative, _, _, .cons (h.wrapped_term _ fun hwrap => ?_) hns, hds, ?_⟩
  · cases t <;> simp_all [isLooserThanProduct, isSum]
  · rw [List.prod_cons]
    ring

theorem showsFactor_number [CharZero K] (digits : Nat) (a : Rat) :
    ShowsFactor I digits (.number a) := by
  intro p v hp
  obtain ⟨hnegative, ns, ds, hns, hds, rfl⟩ := hp
  refine ⟨hnegative, ns, ds, hns, hds, ?_⟩
  simp only [interpret, ProductText.addFactor, Rat.cast_mul]
  ring

/-- A power goes to the denominator if its exponent is an exact negative number. -/
theorem showsFactor_power [CharZero K] {digits : Nat} {base exponent : Term}
    (hbase : ShowsTerm I digits base) (hexponent : ShowsTerm I digits exponent) :
    ShowsFactor I digits (.power base exponent) := by
  intro p v hp
  obtain ⟨hnegative, ns, ds, hns, hds, rfl⟩ := hp
  cases hdenominator : denominatorExponent? exponent with
  | none =>
    have hadd : p.addFactor digits (.power base exponent)
        (writeFactor digits (.power base exponent)) = { p with
          numerator := writePower base exponent (write digits base) (write digits exponent) ::
            p.numerator } := by
      simp [ProductText.addFactor, writeFactor, hdenominator]
    rw [hadd]
    refine ⟨hnegative, _, ds, .cons (shows_writePower hbase hexponent).term hns, hds, ?_⟩
    rw [interpret, List.prod_cons]
    ring
  | some e =>
    obtain ⟨rfl, he⟩ := eq_of_denominatorExponent?_eq_some hdenominator
    have hadd : p.addFactor digits (.power base (.number (-e)))
        (writeFactor digits (.power base (.number (-e)))) = { p with
          denominator := writeDenominatorPower base e (write digits base) ::
            p.denominator } := by
      simp [ProductText.addFactor, writeFactor, hdenominator]
    rw [hadd]
    refine ⟨hnegative, ns, _, hns, .cons (shows_writeDenominatorPower hbase he) hds, ?_⟩
    rw [interpret, interpret, I.power_neg _ e he, List.prod_cons, div_mul_eq_div_div_swap]
    ring

/-- A power by itself is a product with one factor. -/
theorem showsTerm_power [CharZero K] {digits : Nat} {base exponent : Term}
    (hbase : ShowsTerm I digits base) (hexponent : ShowsTerm I digits exponent) :
    ShowsTerm I digits (.power base exponent) := by
  refine .of_term ?_ rfl
  rw [write]
  cases hdenominator : denominatorExponent? exponent with
  | none => exact (shows_writePower hbase hexponent).term
  | some e =>
    obtain ⟨rfl, he⟩ := eq_of_denominatorExponent?_eq_some hdenominator
    have hproduct : ShowsProduct I
        { denominator := [writeDenominatorPower base e (write digits base)] }
        (I.power (base.interpret I) (e : K))⁻¹ :=
      ⟨rfl, [], _, .nil, .cons (shows_writeDenominatorPower hbase he) .nil, by simp⟩
    apply hproduct.write.congr
    rw [interpret, interpret, I.power_neg _ e he]

/-! ### Sums -/

/-- Further terms of a sum begin with a sign. -/
theorem beginsApart_writeSum (digits : Nat) (terms : List Term) :
    BeginsApart (writeSum digits terms false) := by
  cases terms with
  | nil => simp [writeSum]
  | cons t ts =>
    rw [writeSum]
    simp only [Bool.false_or]
    split
    case isTrue h =>
      obtain ⟨text, htext⟩ := List.head?_eq_some_iff.1 (eq_of_beq h)
      simp [htext, BeginsApart, separators]
    case isFalse => simp [BeginsApart, separators]

theorem shows_moreTerms {digits : Nat} {terms : List Term}
    (h : ∀ t ∈ terms, ShowsTerm I digits t) :
    Shows (AreTerms I) (writeSum digits terms false) (terms.map (interpret I)).sum := by
  induction terms with
  | nil =>
    rw [writeSum]
    exact Shows.noTerms
  | cons t ts ih =>
    obtain ⟨ht, hts⟩ := List.forall_mem_cons.1 h
    have hterm := ht.wrapped_term t.isSum id
    have hapart := beginsApart_writeSum digits ts
    rw [writeSum, List.map_cons, List.sum_cons]
    simp only [Bool.false_or]
    split
    case isTrue hsign => exact hterm.ofMinus (eq_of_beq hsign) (ih hts) hapart
    case isFalse => exact hterm.plus (ih hts) hapart

theorem shows_sum {digits : Nat} {terms : List Term} (hne : terms ≠ [])
    (h : ∀ t ∈ terms, ShowsTerm I digits t) :
    Shows (IsExpression I) (writeSum digits terms true) (terms.map (interpret I)).sum := by
  obtain ⟨t, ts, rfl⟩ := List.exists_cons_of_ne_nil hne
  obtain ⟨ht, hts⟩ := List.forall_mem_cons.1 h
  rw [writeSum, List.map_cons, List.sum_cons]
  exact (ht.wrapped_term t.isSum id).sum (shows_moreTerms hts) (beginsApart_writeSum digits ts)

/-! ### Terms -/

/-- The identifier of a symbol is one token. -/
theorem shows_symbol {name : String} (h : IsIdentifier name) :
    Shows (IsPrimary I) name.toList (I.symbol name) := by
  obtain ⟨c, text, hname, hc, htext⟩ := h.spelled
  refine ⟨[.name name.toList], ?_, isPrimary_symbol h⟩
  rw [hname]
  exact Lexes.name hc (List.all_eq_true.2 htext)

theorem shows_constant (c : Constant) :
    Shows (IsPrimary I) c.name.toList (I.constant c) := by
  cases c with
  | pi => exact ⟨_, Lexes.nil.cons (by decide) rfl, isPrimary_pi⟩
  | e => exact ⟨_, Lexes.name (by decide +kernel) (by simp), isPrimary_e⟩
  | i => exact ⟨_, Lexes.name (by decide +kernel) (by simp), isPrimary_i⟩

theorem shows_undefined : Shows (IsPrimary I) "undef".toList I.undefined :=
  ⟨_, Lexes.name (by decide +kernel) (by decide +kernel), isPrimary_undefined⟩

theorem Shows.apply {a : List Char} {v : K} (h : Shows (IsExpression I) a v) (f : Function) :
    Shows (IsPrimary I) (f.name.toList ++ parenthesize true a) (I.function f v) := by
  obtain ⟨tokens, hlexes, h⟩ := h
  have hname : Lexes f.name.toList [.name f.name.toList] := by
    cases f <;> exact Lexes.name (by decide +kernel) (by decide +kernel)
  have hclosing : Lexes [')'] [.closeParen] := Lexes.nil.cons (by decide) rfl
  refine ⟨_, ?_, h.apply f⟩
  exact hname.append ((hlexes.append hclosing (by simp [beginsApart_cons, separators])).cons
    (by decide) rfl) (by simp [parenthesize, beginsApart_cons, separators])

theorem shows_product [CharZero K] {digits : Nat} {factors : List Term}
    (h : ∀ t ∈ factors, ShowsFactor I digits t) :
    ShowsProduct I (productText digits factors) (factors.map (interpret I)).prod := by
  induction factors with
  | nil =>
    rw [productText]
    exact ⟨rfl, [], [], .nil, .nil, by simp⟩
  | cons t ts ih =>
    obtain ⟨ht, hts⟩ := List.forall_mem_cons.1 h
    rw [productText, List.map_cons, List.prod_cons]
    exact ht _ _ (ih hts)

theorem shows_writeEach {digits : Nat} {terms : List Term}
    (h : ∀ t ∈ terms, ShowsTerm I digits t) :
    List.Forall₂ (Shows (IsExpression I)) (writeEach digits terms) (terms.map (interpret I)) := by
  induction terms with
  | nil =>
    rw [writeEach]
    exact .nil
  | cons t ts ih =>
    obtain ⟨ht, hts⟩ := List.forall_mem_cons.1 h
    rw [writeEach]
    exact .cons ht.expression (ih hts)

theorem isSum_of_not_isSumOrNegation {t : Term} (h : t.isSumOrNegation = false) :
    t.isSum = false := by
  cases t <;> simp_all [isSumOrNegation, isSum]

mutual

/-- Every term that is written without loss shows its value, by itself and as a factor. -/
theorem shows_write [CharZero K] (digits : Nat) : ∀ t : Term, IsWritable t →
    ShowsTerm I digits t ∧ ShowsFactor I digits t
  | .number a, _ => by
    refine ⟨⟨?_, fun _ => ?_, fun halone => ?_⟩, showsFactor_number digits a⟩
    all_goals rw [write, interpret]
    · exact (shows_rational a).expression
    · exact shows_rational a
    · obtain ⟨hden, hnonneg⟩ : a.den = 1 ∧ 0 ≤ a := of_decide_eq_true halone
      exact shows_natural hden hnonneg
  | .constant c, _ => by
    have h : ShowsTerm I digits (.constant c) := .of_operand <| by
      simpa only [write, interpret] using shows_constant c
    exact ⟨h, showsFactor_of_term h fun p => by simp [ProductText.addFactor, writeFactor]⟩
  | .symbol name, h => by
    have h : ShowsTerm I digits (.symbol name) := .of_operand <| by
      simpa only [write, interpret] using shows_symbol (by simpa [IsWritable] using h)
    exact ⟨h, showsFactor_of_term h fun p => by simp [ProductText.addFactor, writeFactor]⟩
  | .undefined, _ => by
    have h : ShowsTerm I digits .undefined := .of_operand <| by
      simpa only [write, interpret] using shows_undefined
    exact ⟨h, showsFactor_of_term h fun p => by simp [ProductText.addFactor, writeFactor]⟩
  | .sum terms, h => by
    rw [IsWritable] at h
    have hterms := shows_writeAll digits terms h.2
    have hsum := shows_sum h.1 fun t ht => (hterms t ht).1
    have h : ShowsTerm I digits (.sum terms) := by
      refine ⟨?_, by simp [isSum], fun halone => nomatch halone⟩
      rwa [write, interpret, interpretAll_eq_map]
    exact ⟨h, showsFactor_of_term h fun p => by simp [ProductText.addFactor, writeFactor]⟩
  | .product factors, h => by
    rw [IsWritable] at h
    have hfactors := shows_writeAll digits factors h
    have hproduct := shows_product fun t ht => (hfactors t ht).2
    have h : ShowsTerm I digits (.product factors) := by
      refine .of_term ?_ rfl
      rw [write, interpret, interpretAll_eq_map]
      exact hproduct.write
    exact ⟨h, showsFactor_of_term h fun p => by simp [ProductText.addFactor, writeFactor]⟩
  | .power base exponent, h => by
    rw [IsWritable] at h
    have hbase := (shows_write digits base h.1).1
    have hexponent := (shows_write digits exponent h.2).1
    exact ⟨showsTerm_power hbase hexponent, showsFactor_power hbase hexponent⟩
  | .negation a, h => by
    rw [IsWritable] at h
    have ha := (shows_write digits a h).1
    have h : ShowsTerm I digits (.negation a) := by
      refine .of_term ?_ rfl
      rw [write, interpret]
      exact (ha.wrapped_term _ isSum_of_not_isSumOrNegation).neg
    exact ⟨h, showsFactor_of_term h fun p => by simp [ProductText.addFactor, writeFactor]⟩
  | .quotient a b, h => by
    rw [IsWritable] at h
    have ha := (shows_write digits a h.1).1
    have hb := (shows_write digits b h.2).1
    have h : ShowsTerm I digits (.quotient a b) := by
      refine .of_term ?_ rfl
      rw [write, interpret]
      exact (ha.wrapped_term _ isSum_of_not_isSumOrNegation).div
        (hb.wrapped_operand _ (by simp)).power
    exact ⟨h, showsFactor_of_term h fun p => by simp [ProductText.addFactor, writeFactor]⟩
  | .apply f a, h => by
    rw [IsWritable] at h
    have ha := (shows_write digits a h).1
    have h : ShowsTerm I digits (.apply f a) := .of_operand <| by
      simpa only [write, interpret] using ha.expression.apply f
    exact ⟨h, showsFactor_of_term h fun p => by simp [ProductText.addFactor, writeFactor]⟩
  | .matrix rows columns entries, h => by
    rw [IsWritable] at h
    obtain ⟨hrows, hcolumns, hlength, hentries⟩ := h
    have hshown := shows_writeAll digits entries hentries
    have htexts := shows_writeEach fun t ht => (hshown t ht).1
    have h : ShowsTerm I digits (.matrix rows columns entries) := .of_operand <| by
      rw [write, interpret, interpretAll_eq_map]
      exact Shows.matrix hrows hcolumns htexts (by simpa using hlength)
    exact ⟨h, showsFactor_of_term h fun p => by simp [ProductText.addFactor, writeFactor]⟩
  | .decimal _, h | .nonreal, h => by
    simp [IsWritable] at h

theorem shows_writeAll [CharZero K] (digits : Nat) : ∀ terms : List Term, AreWritable terms →
    ∀ t ∈ terms, ShowsTerm I digits t ∧ ShowsFactor I digits t
  | [], _ => by simp
  | t :: ts, h => by
    rw [AreWritable] at h
    exact List.forall_mem_cons.2 ⟨shows_write digits t h.1, shows_writeAll digits ts h.2⟩

end

/-! ### Whole texts -/

theorem IsUnary.ne_nil {tokens : List Token} {v : K} (h : IsUnary I tokens v) : tokens ≠ [] := by
  cases h with
  | power h =>
    obtain ⟨token, htoken, -⟩ := h.begins
    rintro rfl
    simp at htoken
  | minus h => simp

theorem IsExpression.ne_nil {tokens : List Token} {v : K} (h : IsExpression I tokens v) :
    tokens ≠ [] := by
  obtain ⟨h, -⟩ := h
  obtain ⟨h, -⟩ := h
  simp [h.ne_nil]

/-- A text that shows an expression is read as a whole. -/
theorem Shows.run {text : List Char} {v : K} (h : Shows (IsExpression I) text v) :
    ∃ t, (run wholeExpression text).value = .ok t ∧ t.interpret I = v := by
  obtain ⟨tokens, hlexes, h⟩ := h
  obtain ⟨lexemes, rfl, htokens⟩ := hlexes.tokenize
  have hne : lexemes ≠ [] := fun hnil => h.ne_nil (by rw [hnil, List.map_nil])
  obtain ⟨t, ht, hvalue⟩ := h.reads lexemes [] (16 * (lexemes.length + 1)) rfl (by simp)
    (by rw [List.length_map]; omega)
  rw [List.append_nil] at ht
  have hwhole : Yields (wholeExpression (16 * (lexemes.length + 1))) lexemes t [] :=
    ht.bind (Yields.bind (p := finish) (b := t) rfl Yields.pure)
  refine ⟨t, ?_, hvalue⟩
  obtain ⟨lexeme, others, rfl⟩ := List.exists_cons_of_ne_nil hne
  rw [Parser.run, htokens]
  simp only [Build.value_bind, Build.value_pure]
  rw [hwhole]
  rfl

/-- The text of a term is read as an expression of the same value. -/
theorem parse_text [CharZero K] (I : Interpretation K) {t : Term} (h : IsWritable t)
    (digits : Nat) : ∃ u, (parseExpression (t.text digits)).value = .ok u ∧
      u.interpret I = t.interpret I := by
  rw [parseExpression, text, String.toList_ofList]
  exact ((shows_write digits t h).1.expression).run

end Parser

/-- The text of a term reads back: it is an expression, and the expression has the value of
    the term under every interpretation. -/
theorem exists_parseExpression_text {t : Term} (h : t.IsWritable) (digits : Nat) :
    ∃ u, (parseExpression (t.text digits)).value = .ok u ∧
      ∀ {K : Type*} [Field K] [CharZero K] (I : Interpretation K),
        u.interpret I = t.interpret I := by
  obtain ⟨u, hu, -⟩ := Parser.parse_text (default : Interpretation Rat) h digits
  refine ⟨u, hu, ?_⟩
  intro K _ _ I
  obtain ⟨u', hu', hvalue⟩ := Parser.parse_text I h digits
  rw [hu] at hu'
  rw [Except.ok.inj hu', hvalue]

/-- A product with a fraction, a root in the denominator and a sum of opposite terms. -/
theorem exists_parseExpression_text_product :
    (Term.product [.number (-2 / 3),
      .power (.sum [.symbol "x", .negation (.symbol "y")]) (.number (-1 / 2)),
      .apply .sin (.quotient (.constant .pi) (.number (-4)))]).IsWritable ∧
    ∃ u, (parseExpression ((Term.product [.number (-2 / 3),
      .power (.sum [.symbol "x", .negation (.symbol "y")]) (.number (-1 / 2)),
      .apply .sin (.quotient (.constant .pi) (.number (-4)))]).text 14)).value = .ok u ∧
      ∀ {K : Type} [Field K] [CharZero K] (I : Interpretation K),
        u.interpret I = (Term.product [.number (-2 / 3),
          .power (.sum [.symbol "x", .negation (.symbol "y")]) (.number (-1 / 2)),
          .apply .sin (.quotient (.constant .pi) (.number (-4)))]).interpret I := by
  have hx : IsIdentifier "x" :=
    ⟨⟨'x', [], rfl, by decide +kernel, by simp⟩, by decide, by decide⟩
  have hy : IsIdentifier "y" :=
    ⟨⟨'y', [], rfl, by decide +kernel, by simp⟩, by decide, by decide⟩
  have h : (Term.product [.number (-2 / 3),
      .power (.sum [.symbol "x", .negation (.symbol "y")]) (.number (-1 / 2)),
      .apply .sin (.quotient (.constant .pi) (.number (-4)))]).IsWritable := by
    simp [IsWritable, AreWritable, hx, hy]
  exact ⟨h, exists_parseExpression_text h 14⟩

end EquationSolver
