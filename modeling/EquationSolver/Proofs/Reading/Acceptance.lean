import EquationSolver.Proofs.Pool.Consing
import EquationSolver.Proofs.Reading.Consumption
import EquationSolver.Proofs.Reading.Scanning
import EquationSolver.Proofs.Solver.Growth

/-!
# The texts that are accepted

A text is read as a term exactly if it consists of tokens that the grammar derives from an
expression, and the term is the one that the derivation prescribes.  A text is read as an
equation exactly if a single sign of equality stands between two such texts.
-/

namespace EquationSolver

/-- The text consists of tokens that derive from an expression, which prescribes the term. -/
def Spells (text : List Char) (t : Term) : Prop :=
  ∃ tokens, Scans text tokens ∧ Derives .expression tokens t

/-- One sign of equality stands between texts of the two terms. -/
def SpellsEquation (text : List Char) (left right : Term) : Prop :=
  ∃ before behind, text = before ++ '=' :: behind ∧ '=' ∉ before ∧ '=' ∉ behind ∧
    Spells before left ∧ Spells behind right

/-! ### The sign of equality -/

theorem IsNumeral.not_mem_equals {text : List Char} (h : IsNumeral text) : '=' ∉ text := by
  have hmantissa : ∀ mantissa, IsMantissa mantissa → '=' ∉ mantissa :=
    fun mantissa hmantissa hmem => absurd (hmantissa.2 '=' hmem) (by decide)
  rcases h with h | ⟨mantissa, exponent, rfl, h, hhead, htail⟩
  · exact hmantissa text h
  · have hexponent : '=' ∉ exponent := by
      cases exponent with
      | nil => simp
      | cons c digits =>
        rintro (_ | ⟨_, hmem⟩)
        · exact absurd (hhead '=' rfl) (by decide)
        · exact absurd (htail '=' hmem) (by decide)
    simp [hmantissa mantissa h, hexponent]

theorem IsName.not_mem_equals {text : List Char} (h : IsName text) : '=' ∉ text := by
  obtain ⟨c, rest, rfl, hc, hrest⟩ := h
  rintro (_ | ⟨_, hmem⟩)
  · exact absurd hc (by decide +kernel)
  · exact absurd (hrest '=' hmem) (by decide +kernel)

theorem equals_of_ofChar? {c : Char} (h : Token.ofChar? c = some .equals) : c = '=' := by
  unfold Token.ofChar? at h
  split at h <;> first | rfl | exact nomatch h

namespace Scans

variable {text before behind : List Char} {tokens ts us : List Token}

theorem not_mem_equals (h : Scans text tokens) (htext : '=' ∉ text) : Token.equals ∉ tokens := by
  induction h with
  | nil => simp
  | blank _ _ ih => exact ih (fun hmem => htext (List.mem_cons_of_mem _ hmem))
  | mark hc _ ih =>
    rintro (_ | ⟨_, hmem⟩)
    · exact htext (List.mem_cons.2 (.inl (equals_of_ofChar? hc).symm))
    · exact ih (fun hmem => htext (List.mem_cons_of_mem _ hmem)) hmem
  | number _ _ _ ih | name _ _ _ ih =>
    rintro (_ | ⟨_, hmem⟩)
    exact ih (fun hmem => htext (List.mem_append_right _ hmem)) hmem

/-- No numeral and no name goes on over a sign of equality. -/
theorem append_equals (h : Scans before ts) (hbehind : Scans behind us) :
    Scans (before ++ '=' :: behind) (ts ++ .equals :: us) := by
  induction h with
  | nil => exact .mark rfl hbehind
  | blank hc _ ih => exact .blank hc ih
  | mark hc _ ih => exact .mark hc ih
  | @number text rest tokens h hends _ ih =>
    rw [List.append_assoc]
    refine .number h (fun c hc => ?_) ih
    cases rest with
    | nil =>
      obtain rfl : '=' = c := Option.some.inj hc
      exact fun hnumeral => hnumeral.not_mem_equals (by simp)
    | cons d rest => exact hends c hc
  | @name text rest tokens h hends _ ih =>
    rw [List.append_assoc]
    refine .name h (fun c hc => ?_) ih
    cases rest with
    | nil =>
      obtain rfl : '=' = c := Option.some.inj hc
      exact fun hname => hname.not_mem_equals (by simp)
    | cons d rest => exact hends c hc

/-- A token without a sign of equality ends before the first one. -/
theorem exists_of_append_eq {token rest : List Char} (htoken : '=' ∉ token)
    (h : token ++ rest = before ++ '=' :: behind) :
    ∃ middle, before = token ++ middle ∧ rest = middle ++ '=' :: behind := by
  rcases List.append_eq_append_iff.1 h with ⟨middle, hbefore, hrest⟩ | ⟨middle, htext, hequals⟩
  · exact ⟨middle, hbefore, hrest⟩
  · cases middle with
    | nil => exact ⟨[], by simpa using htext.symm, by simpa using hequals.symm⟩
    | cons c middle =>
      obtain ⟨rfl, -⟩ := List.cons.inj hequals
      exact absurd (by simp [htext]) htoken

/-- The tokens before a sign of equality and behind it are those of the parts of the text. -/
theorem split_equals (h : Scans text tokens) (htext : text = before ++ '=' :: behind) :
    ∃ ts us, tokens = ts ++ .equals :: us ∧ Scans before ts ∧ Scans behind us := by
  induction h generalizing before with
  | nil => exact absurd htext.symm (by simp)
  | blank hc _ ih =>
    cases before with
    | nil =>
      obtain ⟨rfl, -⟩ := List.cons.inj htext
      exact absurd hc (by decide +kernel)
    | cons d before =>
      obtain ⟨rfl, hbefore⟩ := List.cons.inj htext
      obtain ⟨ts, us, rfl, hts, hus⟩ := ih hbefore
      exact ⟨ts, us, rfl, .blank hc hts, hus⟩
  | mark hc hrest ih =>
    cases before with
    | nil =>
      obtain ⟨rfl, rfl⟩ := List.cons.inj htext
      cases hc
      exact ⟨[], _, rfl, .nil, hrest⟩
    | cons d before =>
      obtain ⟨rfl, hbefore⟩ := List.cons.inj htext
      obtain ⟨ts, us, rfl, hts, hus⟩ := ih hbefore
      exact ⟨_ :: ts, us, rfl, .mark hc hts, hus⟩
  | number h hends _ ih =>
    obtain ⟨middle, rfl, hrest⟩ := exists_of_append_eq h.not_mem_equals htext
    obtain ⟨ts, us, rfl, hts, hus⟩ := ih hrest
    refine ⟨_ :: ts, us, rfl, .number h (fun c hc => hends c ?_) hts, hus⟩
    rw [hrest]
    exact List.mem_head?_append_of_mem_head? hc
  | name h hends _ ih =>
    obtain ⟨middle, rfl, hrest⟩ := exists_of_append_eq h.not_mem_equals htext
    obtain ⟨ts, us, rfl, hts, hus⟩ := ih hrest
    refine ⟨_ :: ts, us, rfl, .name h (fun c hc => hends c ?_) hts, hus⟩
    rw [hrest]
    exact List.mem_head?_append_of_mem_head? hc

end Scans

/-! ### Whole texts -/

theorem Derives.expression_ne_nil {ts : List Token} {t : Term} (h : Derives .expression ts t) :
    ts ≠ [] := by
  have hunary : ∀ {ts : List Token} {t : Term}, Derives .unary ts t → ts ≠ [] := by
    intro ts t h
    cases h with
    | negative | positive => simp
    | unary hpower => exact List.ne_nil_of_length_pos hpower.one_le_length_of_power
  cases h with
  | expression hterm =>
    cases hterm with
    | term hfirst => simp [hunary hfirst]

namespace Parser

variable {α : Type} {text : List Char} {lexemes rest : List Lexeme} {budget : Nat}

theorem run_eq_ok_iff {rule : Nat → Parser α} {a : α} :
    (run rule text).value = .ok a ↔ ∃ lexemes rest, lexemes ≠ [] ∧ tokenize text = .ok lexemes ∧
      Yields (rule (16 * (lexemes.length + 1))) lexemes a rest := by
  unfold run
  cases tokenize text with
  | error e => simp
  | ok lexemes =>
    cases lexemes with
    | nil => simp
    | cons lexeme lexemes =>
      cases h : (rule (16 * ((lexeme :: lexemes).length + 1)) (lexeme :: lexemes)).value with
      | error e => simp_all [Yields, Except.map]
      | ok result => simp_all [Yields, Except.map, Prod.ext_iff]

theorem yields_finish_iff : Yields finish lexemes () rest ↔ lexemes = [] ∧ rest = [] := by
  cases lexemes with
  | nil => simp [Yields, finish, Except.ok.injEq, eq_comm]
  | cons lexeme lexemes => simp [Yields, finish, unexpected]

theorem yields_expression_iff (budget : Nat) (rest : List Lexeme) {t : Term} {ts : List Lexeme}
    (hbudget : 16 * ts.length + 5 ≤ budget)
    (hstops : ∀ lexeme ∈ rest.head?, lexeme.token.stopsExpression = true) :
    Yields (expression budget) (ts ++ rest) t rest ↔
      Derives .expression (ts.map Lexeme.token) t := by
  constructor
  · intro h
    obtain ⟨read, hread, hderives⟩ := consumes_rule .expression budget _ _ _ h
    rwa [List.append_cancel_right hread]
  · intro h
    obtain ⟨t', hyields, rfl⟩ :=
      h.isRead ts rest budget rfl hstops (by rw [List.length_map]; exact hbudget)
    exact hyields

/-- A text is read as an expression exactly if its tokens derive from one. -/
theorem run_wholeExpression_iff {t : Term} :
    (run wholeExpression text).value = .ok t ↔ Spells text t := by
  constructor
  · intro h
    obtain ⟨lexemes, rest, -, htokens, hwhole⟩ := run_eq_ok_iff.1 h
    obtain ⟨t', middle, ht, hend⟩ := exists_of_yields_bind hwhole
    obtain ⟨⟨⟩, rest', hfinish, hpure⟩ := exists_of_yields_bind hend
    obtain ⟨rfl, rfl⟩ := yields_finish_iff.1 hfinish
    cases hpure
    refine ⟨lexemes.map Lexeme.token, exists_tokenize_iff.1 ⟨lexemes, htokens, rfl⟩, ?_⟩
    rw [← List.append_nil lexemes] at ht
    exact (yields_expression_iff _ [] (by simp; omega) (by simp)).1 ht
  · rintro ⟨tokens, hscans, hderives⟩
    obtain ⟨lexemes, htokens, rfl⟩ := exists_tokenize_iff.2 hscans
    have hne : lexemes ≠ [] := fun hnil => hderives.expression_ne_nil (by rw [hnil, List.map_nil])
    have ht := (yields_expression_iff (16 * (lexemes.length + 1)) [] (by omega) (by simp)).2 hderives
    rw [List.append_nil] at ht
    exact run_eq_ok_iff.2 ⟨lexemes, [], hne, htokens,
      ht.bind (Yields.bind (yields_finish_iff.2 ⟨rfl, rfl⟩) .pure)⟩

/-- A text is read as an equation exactly if its tokens are those of two expressions with a sign
    of equality between them. -/
theorem run_wholeEquation_iff {left right : Term} :
    (run wholeEquation text).value = .ok (left, right) ↔
      ∃ ts us, Scans text (ts ++ .equals :: us) ∧ Derives .expression ts left ∧
        Derives .expression us right := by
  constructor
  · intro h
    obtain ⟨lexemes, rest, -, htokens, hwhole⟩ := run_eq_ok_iff.1 h
    obtain ⟨left', lexemes₁, hleft, hwhole⟩ := exists_of_yields_bind hwhole
    obtain ⟨⟨⟩, lexemes₂, hequals, hwhole⟩ := exists_of_yields_bind hwhole
    obtain ⟨right', lexemes₃, hright, hwhole⟩ := exists_of_yields_bind hwhole
    obtain ⟨⟨⟩, lexemes₄, hfinish, hpure⟩ := exists_of_yields_bind hwhole
    obtain ⟨rfl, rfl⟩ := yields_finish_iff.1 hfinish
    cases hpure
    obtain ⟨ts, rfl, hbefore⟩ := consumes_rule .expression _ _ _ _ hleft
    obtain ⟨lexeme, rfl, hlexeme⟩ := exists_of_yields_expect hequals
    obtain ⟨us, rfl, hafter⟩ := consumes_rule .expression _ _ _ _ hright
    refine ⟨ts.map Lexeme.token, us.map Lexeme.token, ?_, hbefore, hafter⟩
    exact exists_tokenize_iff.1 ⟨_, htokens, by simp [hlexeme]⟩
  · rintro ⟨ts, us, hscans, hleft, hright⟩
    obtain ⟨lexemes, htokens, hmap⟩ := exists_tokenize_iff.2 hscans
    obtain ⟨before, behind, rfl, rfl, hbehind⟩ := List.map_eq_append_iff.1 hmap
    obtain ⟨lexeme, behind, rfl, hlexeme, rfl⟩ := List.map_eq_cons_iff.1 hbehind
    have hstops : ∀ l ∈ (lexeme :: behind).head?, l.token.stopsExpression = true := by
      rintro l ⟨⟩
      rw [hlexeme]
      rfl
    have hlength : (before ++ lexeme :: behind).length = before.length + (behind.length + 1) := by
      simp
    have hbefore := (yields_expression_iff (16 * ((before ++ lexeme :: behind).length + 1)) _
      (by omega) hstops).2 hleft
    have hafter := (yields_expression_iff (16 * ((before ++ lexeme :: behind).length + 1)) []
      (by omega) (by simp)).2 hright
    rw [List.append_nil] at hafter
    exact run_eq_ok_iff.2 ⟨_, [], by simp, htokens, hbefore.bind (Yields.bind
      (.expect hlexeme) (hafter.bind (Yields.bind
        (yields_finish_iff.2 ⟨rfl, rfl⟩) .pure)))⟩

end Parser

theorem parseExpression_eq_ok_iff {text : String} {t : Term} :
    (parseExpression text).value = .ok t ↔ Spells text.toList t :=
  Parser.run_wholeExpression_iff

/-- What occurs once has a part of the list before it and a part behind it. -/
theorem exists_of_count_eq_one {text : List Char} {c : Char} (h : text.count c = 1) :
    ∃ before behind, text = before ++ c :: behind ∧ c ∉ before ∧ c ∉ behind := by
  obtain ⟨before, behind, rfl⟩ :=
    List.append_of_mem (List.count_pos_iff.1 (by omega : 0 < text.count c))
  rw [List.count_append, List.count_cons_self] at h
  exact ⟨before, behind, rfl, List.count_eq_zero.1 (by omega), List.count_eq_zero.1 (by omega)⟩

theorem parseEquation_eq_ok_iff {text : String} {left right : Term} :
    (parseEquation text).value = .ok (left, right) ↔
      SpellsEquation text.toList left right := by
  unfold parseEquation SpellsEquation
  split_ifs with hcount
  · rw [Parser.run_wholeEquation_iff]
    constructor
    · rintro ⟨ts, us, hscans, hleft, hright⟩
      obtain ⟨before, behind, htext, hbefore, hbehind⟩ := exists_of_count_eq_one hcount
      obtain ⟨ts', us', htokens, hts', hus'⟩ := hscans.split_equals htext
      obtain ⟨rfl, -, rfl⟩ := (List.append_cons_inj_of_notMem (hts'.not_mem_equals hbefore)
        (hus'.not_mem_equals hbehind)).1 htokens.symm
      exact ⟨before, behind, htext, hbefore, hbehind, ⟨ts', hts', hleft⟩, ⟨us', hus', hright⟩⟩
    · rintro ⟨before, behind, htext, -, -, ⟨ts, hts, hleft⟩, ⟨us, hus, hright⟩⟩
      exact ⟨ts, us, htext ▸ hts.append_equals hus, hleft, hright⟩
  · constructor
    · exact nofun
    · rintro ⟨before, behind, htext, hbefore, hbehind, -, -⟩
      exact absurd (by simp [htext, List.count_eq_zero.2 hbefore, List.count_eq_zero.2 hbehind])
        hcount

/-! ### Reading in a context -/

namespace Context

/-- In any context a text is read as a term exactly if the grammar derives it, and as the sides of
    an equation exactly if it derives both and a single sign of equality stands between them; the
    handles of what has been read denote it. -/
theorem reads_exactly_grammar {context : Context} (h : context.pool.Reachable) (text : String) :
    (∀ t, (context.parse text).1 = .ok t ↔ Spells text.toList t) ∧
    (∀ t, Spells text.toList t →
      (context.parse text).2.pool.tree? ((context.parse text).2.pool.handleOf t) = some t) ∧
    (∀ left right, (context.parseSides text).1 = .ok (left, right) ↔
      SpellsEquation text.toList left right) ∧
    (∀ left right, SpellsEquation text.toList left right → ∀ side ∈ [left, right],
      (context.parseSides text).2.pool.tree? ((context.parseSides text).2.pool.handleOf side) =
        some side) := by
  have hpool := h.isWellFormed
  refine ⟨fun t => parseExpression_eq_ok_iff, fun t ht => ?_,
    fun left right => parseEquation_eq_ok_iff, fun left right hsides side hside => ?_⟩
  · have hread := parseExpression_eq_ok_iff.2 ht
    exact tree?_handleOf_record hpool (startsFrom_parseExpression text) (by simp [hread])
  · have hread := parseEquation_eq_ok_iff.2 hsides
    refine tree?_handleOf_record hpool (startsFrom_parseEquation text) ?_
    rw [hread]
    simpa using hside

/-- Factors without a sign between them, and a sign in an exponent. -/
theorem reads_exactly_grammar_product : Pool.Reachable {} ∧
    Spells "2x^-y π".toList (.product [.product [.number 2,
      .power (.symbol "x") (.negation (.symbol "y"))], .constant .pi]) := by
  have hempty : ({} : Context).pool.Reachable := .refl
  refine ⟨hempty, ((reads_exactly_grammar hempty "2x^-y π").1 _).1 ?_⟩
  decide +kernel

end Context

end EquationSolver
