import EquationSolver.Proofs.Reading.Operands
import EquationSolver.Term.Printer

/-!
# Texts and the levels of the grammar

A text shows a value at a level of the grammar if it is cut into tokens that are read at the
level with the value.  Signs, operators, parentheses and brackets put texts together as the
grammar puts together what they show.
-/

namespace EquationSolver

namespace Term

theorem length_writeRows (columns rows : Nat) (texts : List (List Char)) :
    (writeRows columns rows texts).length = rows := by
  induction rows generalizing texts with
  | zero => rfl
  | succ rows ih => rw [writeRows, List.length_cons, ih]

end Term

namespace Parser

variable {K : Type*}

/-- The text is cut into tokens that are read, at a level of the grammar, with the value. -/
def Shows (level : List Token → K → Prop) (text : List Char) (v : K) : Prop :=
  ∃ tokens, Lexes text tokens ∧ level tokens v

namespace Shows

variable {a b : List Char} {v w : K}

/-! ### From level to level -/

theorem mono {level level' : List Token → K → Prop} (hlevel : ∀ tokens v, level tokens v →
    level' tokens v) (h : Shows level a v) : Shows level' a v := by
  obtain ⟨tokens, hlexes, h⟩ := h
  exact ⟨tokens, hlexes, hlevel tokens v h⟩

theorem congr {level : List Token → K → Prop} (h : Shows level a v) (hvw : v = w) :
    Shows level a w :=
  hvw ▸ h

variable [Field K] {I : Interpretation K}

theorem power (h : Shows (IsPrimary I) a v) : Shows (IsPower I) a v :=
  h.mono fun _ _ h => h.isPower

theorem term (h : Shows (IsPower I) a v) : Shows (IsTerm I) a v :=
  h.mono fun tokens v h => by
    simpa using IsTerm.intro (IsUnary.power h) AreFactors.nil

theorem expression (h : Shows (IsTerm I) a v) : Shows (IsExpression I) a v :=
  h.mono fun tokens v h => by
    simpa using IsExpression.intro h AreTerms.nil

/-! ### Parentheses, signs and operators -/

theorem parenthesized (h : Shows (IsExpression I) a v) :
    Shows (IsPrimary I) (Term.parenthesize true a) v := by
  obtain ⟨tokens, hlexes, h⟩ := h
  refine ⟨_, ?_, h.parenthesized⟩
  have hclosing : Lexes [')'] [.closeParen] := Lexes.nil.cons (by decide) rfl
  exact (hlexes.append hclosing (by simp [beginsApart_cons, separators])).cons (by decide) rfl

/-- The sign in front of a term belongs to its first factor. -/
theorem neg (h : Shows (IsTerm I) a v) : Shows (IsTerm I) ('-' :: a) (-v) := by
  obtain ⟨tokens, hlexes, h⟩ := h
  obtain ⟨hfirst, hothers⟩ := h
  refine ⟨_, hlexes.cons (by decide) rfl, ?_⟩
  rw [← neg_mul]
  exact IsTerm.intro (.minus hfirst) hothers

/-- A term that begins with a minus sign is the opposite of what is behind the sign. -/
theorem of_minus (h : Shows (IsTerm I) a v) (hsign : a.head? = some '-') :
    ∃ tokens, Lexes a (.minus :: tokens) ∧ IsTerm I tokens (-v) := by
  obtain ⟨tokens, hlexes, h⟩ := h
  obtain ⟨a, rfl⟩ := List.head?_eq_some_iff.1 hsign
  have hhead := hlexes.head?_eq (by decide) rfl
  obtain ⟨hfirst, hothers⟩ := h
  cases hfirst with
  | power h =>
    obtain ⟨token, htoken, hbegins⟩ := h.begins
    obtain ⟨tokens, rfl⟩ := List.head?_eq_some_iff.1 htoken
    obtain rfl : token = .minus := by simpa using hhead
    simp [Token.beginsOperand] at hbegins
  | minus h =>
    refine ⟨_, hlexes, ?_⟩
    rw [neg_mul, neg_neg]
    exact .intro h hothers

theorem mul (ha : Shows (IsTerm I) a v) (hb : Shows (IsTerm I) b w) :
    Shows (IsTerm I) (a ++ '*' :: b) (v * w) := by
  obtain ⟨s, hlexes, h⟩ := ha
  obtain ⟨t, hlexes', h'⟩ := hb
  refine ⟨_, hlexes.append (hlexes'.cons (by decide) rfl)
    (by simp [beginsApart_cons, separators]), ?_⟩
  obtain ⟨hfirst, hothers⟩ := h
  obtain ⟨hfirst', hothers'⟩ := h'
  rw [List.append_assoc, mul_assoc]
  exact .intro hfirst (hothers.append (.star hfirst' hothers'))

theorem div (ha : Shows (IsTerm I) a v) (hb : Shows (IsPower I) b w) :
    Shows (IsTerm I) (a ++ '/' :: b) (v / w) := by
  obtain ⟨s, hlexes, h⟩ := ha
  obtain ⟨t, hlexes', h'⟩ := hb
  refine ⟨_, hlexes.append (hlexes'.cons (by decide) rfl)
    (by simp [beginsApart_cons, separators]), ?_⟩
  obtain ⟨hfirst, hothers⟩ := h
  rw [List.append_assoc, div_eq_mul_inv, mul_assoc]
  refine .intro hfirst (hothers.append ?_)
  simpa using AreFactors.slash (.power h') .nil

theorem caret (ha : Shows (IsPrimary I) a v) (hb : Shows (IsPrimary I) b w) :
    Shows (IsPower I) (a ++ '^' :: b) (I.power v w) := by
  obtain ⟨s, hlexes, h⟩ := ha
  obtain ⟨t, hlexes', h'⟩ := hb
  exact ⟨_, hlexes.append (hlexes'.cons (by decide) rfl)
    (by simp [beginsApart_cons, separators]), h.caret (.power h'.isPower)⟩

theorem root (h : Shows (IsPrimary I) a v) :
    Shows (IsPrimary I) ('√' :: a) (I.power v ((1 / 2 : Rat) : K)) := by
  obtain ⟨tokens, hlexes, h⟩ := h
  exact ⟨_, hlexes.cons (by decide) rfl, h.root⟩

/-! ### Sums -/

theorem noTerms : Shows (AreTerms I) [] 0 :=
  ⟨_, Lexes.nil, .nil⟩

theorem plus (ha : Shows (IsTerm I) a v) (hb : Shows (AreTerms I) b w) (hapart : BeginsApart b) :
    Shows (AreTerms I) ('+' :: (a ++ b)) (v + w) := by
  obtain ⟨s, hlexes, h⟩ := ha
  obtain ⟨t, hlexes', h'⟩ := hb
  exact ⟨_, (hlexes.append hlexes' hapart).cons (by decide) rfl, .plus h h'⟩

/-- A term with a minus sign of its own needs no plus sign. -/
theorem ofMinus (ha : Shows (IsTerm I) a v) (hsign : a.head? = some '-')
    (hb : Shows (AreTerms I) b w) (hapart : BeginsApart b) :
    Shows (AreTerms I) (a ++ b) (v + w) := by
  obtain ⟨s, hlexes, h⟩ := ha.of_minus hsign
  obtain ⟨t, hlexes', h'⟩ := hb
  refine ⟨_, hlexes.append hlexes' hapart, ?_⟩
  rw [List.cons_append, ← neg_neg v]
  exact .minus h h'

theorem sum (ha : Shows (IsTerm I) a v) (hb : Shows (AreTerms I) b w) (hapart : BeginsApart b) :
    Shows (IsExpression I) (a ++ b) (v + w) := by
  obtain ⟨s, hlexes, h⟩ := ha
  obtain ⟨t, hlexes', h'⟩ := hb
  exact ⟨_, hlexes.append hlexes' hapart, .intro h h'⟩

/-! ### Texts joined by a separator -/

/-- Texts joined by product signs show the product. -/
theorem joinTexts {texts : List (List Char)} {vs : List K}
    (h : List.Forall₂ (Shows (IsTerm I)) texts vs) (hne : texts ≠ []) :
    Shows (IsTerm I) (Term.joinTexts '*' texts) vs.prod := by
  induction h with
  | nil => exact (hne rfl).elim
  | @cons text v texts vs h hs ih =>
    cases hs with
    | nil => simpa [Term.joinTexts] using h
    | cons h' hs' =>
      rw [Term.joinTexts, List.prod_cons]
      · exact h.mul (ih (by simp))
      · simp

end Shows

/-- The texts behind the first one, each with a comma in front of it. -/
def behindCommas (texts : List (List Char)) : List Char :=
  (texts.map (',' :: ·)).flatten

theorem joinTexts_comma (text : List Char) (texts : List (List Char)) :
    Term.joinTexts ',' (text :: texts) = text ++ behindCommas texts := by
  induction texts generalizing text with
  | nil => simp [Term.joinTexts, behindCommas]
  | cons next texts ih =>
    rw [Term.joinTexts, ih]
    · simp [behindCommas]
    · simp

theorem beginsApart_behindCommas (texts : List (List Char)) : BeginsApart (behindCommas texts) := by
  cases texts <;> simp [behindCommas, BeginsApart, separators]

variable [Field K] {I : Interpretation K}

theorem shows_entries {texts : List (List Char)} {vs : List K}
    (h : List.Forall₂ (Shows (IsExpression I)) texts vs) :
    ∃ tokens, Lexes (behindCommas texts) tokens ∧ AreEntries I tokens vs := by
  induction h with
  | nil => exact ⟨[], Lexes.nil, .nil⟩
  | @cons text v texts vs h _ ih =>
    obtain ⟨s, hlexes, h⟩ := h
    obtain ⟨t, hlexes', h'⟩ := ih
    exact ⟨_, (hlexes.append hlexes' (beginsApart_behindCommas texts)).cons (by decide) rfl,
      .comma h h'⟩

/-- The text is cut into tokens that are a row of the values. -/
def ShowsRow (I : Interpretation K) (text : List Char) (vs : List K) : Prop :=
  ∃ tokens, Lexes text tokens ∧ IsRow I tokens vs

/-- Entries between brackets are a row. -/
theorem showsRow {texts : List (List Char)} {vs : List K}
    (h : List.Forall₂ (Shows (IsExpression I)) texts vs) (hne : texts ≠ []) :
    ShowsRow I ('[' :: Term.joinTexts ',' texts ++ [']']) vs := by
  cases h with
  | nil => exact (hne rfl).elim
  | @cons text v texts vs h hs =>
    obtain ⟨s, hlexes, h⟩ := h
    obtain ⟨t, hlexes', h'⟩ := shows_entries hs
    have hclosing : Lexes [']'] [.closeBracket] := Lexes.nil.cons (by decide) rfl
    refine ⟨_, ?_, .intro h h'⟩
    rw [joinTexts_comma, List.cons_append, List.append_assoc]
    exact (hlexes.append (hlexes'.append hclosing (by simp [beginsApart_cons, separators]))
      ((beginsApart_behindCommas texts).append (by simp [beginsApart_cons, separators]))).cons
      (by decide) rfl

theorem shows_rows {columns : Nat} {texts : List (List Char)} {vss : List (List K)}
    (h : List.Forall₂ (ShowsRow I) texts vss) (hlengths : ∀ vs ∈ vss, vs.length = columns) :
    ∃ tokens, Lexes (behindCommas texts) tokens ∧ AreRows I columns tokens vss := by
  induction h with
  | nil => exact ⟨[], Lexes.nil, .nil⟩
  | @cons text vs texts vss h _ ih =>
    obtain ⟨hlength, hlengths⟩ := List.forall_mem_cons.1 hlengths
    obtain ⟨s, hlexes, h⟩ := h
    obtain ⟨t, hlexes', h'⟩ := ih hlengths
    exact ⟨_, (hlexes.append hlexes' (beginsApart_behindCommas texts)).cons (by decide) rfl,
      .comma h hlength h'⟩

/-- The rows that the texts of the entries are cut into. -/
theorem shows_writeRows {columns : Nat} (hcolumns : 0 < columns) (rows : Nat)
    {texts : List (List Char)} {vs : List K}
    (h : List.Forall₂ (Shows (IsExpression I)) texts vs) (hlength : vs.length = rows * columns) :
    ∃ vss, List.Forall₂ (ShowsRow I) (Term.writeRows columns rows texts) vss ∧
      (∀ row ∈ vss, row.length = columns) ∧ vss.flatten = vs := by
  induction rows generalizing texts vs with
  | zero =>
    have hnil : vs = [] := List.length_eq_zero_iff.1 (by simpa using hlength)
    exact ⟨[], .nil, by simp, by simp [hnil]⟩
  | succ rows ih =>
    have hle : columns ≤ vs.length := by
      rw [hlength, Nat.succ_mul]
      omega
    have htake := List.forall₂_take columns h
    have hrest : (vs.drop columns).length = rows * columns := by
      rw [List.length_drop, hlength, Nat.succ_mul]
      omega
    obtain ⟨vss, hrows, hlengths, hflatten⟩ := ih (List.forall₂_drop columns h) hrest
    have htaken : (vs.take columns).length = columns := by
      rw [List.length_take, Nat.min_eq_left hle]
    refine ⟨vs.take columns :: vss, .cons (showsRow htake ?_) hrows, ?_, ?_⟩
    · intro hnil
      have := htake.length_eq
      rw [hnil, htaken, List.length_nil] at this
      omega
    · exact List.forall_mem_cons.2 ⟨htaken, hlengths⟩
    · rw [List.flatten_cons, hflatten, List.take_append_drop]

theorem Shows.matrix {rows columns : Nat} (hrows : 0 < rows) (hcolumns : 0 < columns)
    {texts : List (List Char)} {vs : List K}
    (h : List.Forall₂ (Shows (IsExpression I)) texts vs) (hlength : vs.length = rows * columns) :
    Shows (IsPrimary I) ('[' :: Term.joinTexts ',' (Term.writeRows columns rows texts) ++ [']'])
      (I.matrix rows columns vs) := by
  obtain ⟨rows, rfl⟩ : ∃ n, rows = n + 1 := ⟨rows - 1, by omega⟩
  obtain ⟨vss, hshown, hlengths, rfl⟩ := shows_writeRows hcolumns (rows + 1) h hlength
  have hcount : vss.length = rows + 1 := by
    rw [← hshown.length_eq, Term.length_writeRows]
  generalize Term.writeRows columns (rows + 1) texts = written at hshown
  cases hshown with
  | nil => simp at hcount
  | @cons text first texts others hfirst hothers =>
    obtain ⟨hlength, hlengths⟩ := List.forall_mem_cons.1 hlengths
    obtain ⟨s, hlexes, hfirst⟩ := hfirst
    obtain ⟨t, hlexes', hothers⟩ := shows_rows hothers hlengths
    have hclosing : Lexes [']'] [.closeBracket] := Lexes.nil.cons (by decide) rfl
    subst hlength
    rw [List.length_cons, Nat.succ_inj] at hcount
    subst hcount
    refine ⟨_, ?_, hfirst.matrix hothers⟩
    rw [joinTexts_comma, List.cons_append, List.append_assoc]
    exact (hlexes.append (hlexes'.append hclosing (by simp [beginsApart_cons, separators]))
      ((beginsApart_behindCommas texts).append (by simp [beginsApart_cons, separators]))).cons
      (by decide) rfl

end Parser

end EquationSolver
