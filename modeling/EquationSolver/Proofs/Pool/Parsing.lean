import EquationSolver.Context
import EquationSolver.Proofs.Pool.Interning
import EquationSolver.Term.Parser

/-!
# What is read is in the pool

Each rule of the grammar builds a term after its parts, and returns a term that it has built
or been given.  So reading a text keeps a pool sound, and the sides of an equation that has
been read are in the pool.
-/

namespace EquationSolver

open Build

namespace Parser

variable {k k' : Known} {α β : Type} {n : Nat}

/-- Whatever else is known, a rule is grounded, and what it reads has the property. -/
def Grounds (k : Known) (p : Parser α) (post : Known → α → Prop) : Prop :=
  ∀ k' tokens, k ≤ k' → (p tokens).IsGrounded k' fun k'' result =>
    ∀ a rest, result = .ok (a, rest) → post k'' a

abbrev GroundsTerm (k : Known) (p : Parser Term) : Prop :=
  Grounds k p fun k' t => t ∈ k'

abbrev GroundsTerms (k : Known) (p : Parser (List Term)) : Prop :=
  Grounds k p fun k' ts => ∀ t ∈ ts, t ∈ k'

theorem grounds_pure {a : α} {post : Known → α → Prop} (h : ∀ k', k ≤ k' → post k' a) :
    Grounds k (pure a) post := by
  intro k' tokens hle
  apply isGrounded_pure
  rintro b rest ⟨⟩
  exact h k' hle

theorem Grounds.bind {p : Parser α} {f : α → Parser β} {P : Known → α → Prop}
    {Q : Known → β → Prop} (h : Grounds k p P)
    (hf : ∀ k' a, k ≤ k' → P k' a → Grounds k' (f a) Q) : Grounds k (p >>= f) Q := by
  intro k' tokens hle
  rw [bind_eq]
  refine (h k' tokens hle).bind fun k'' hle' hresult => ?_
  cases hread : (p tokens).value with
  | error e => exact isGrounded_pure (by rintro _ _ ⟨⟩)
  | ok found =>
    exact hf k'' found.1 (Known.le_trans hle hle') (hresult found.1 found.2 hread) k'' found.2
      (Known.le_refl k'')

theorem grounds_error {p : Parser α} (h : ∀ tokens, ∃ e, p tokens = pure (.error e))
    {post : Known → α → Prop} : Grounds k p post := by
  intro k' tokens _
  obtain ⟨e, he⟩ := h tokens
  rw [he]
  exact isGrounded_pure fun _ _ herror => nomatch herror

theorem grounds_fail (e : ParseError) {post : Known → α → Prop} : Grounds k (fail e) post :=
  grounds_error fun _ => ⟨e, rfl⟩

theorem grounds_unexpected {post : Known → α → Prop} : Grounds k unexpected post := by
  refine grounds_error fun tokens => ?_
  cases tokens with
  | nil => exact ⟨_, rfl⟩
  | cons lexeme rest => exact ⟨_, rfl⟩

theorem grounds_build {b : Build α} {post : Known → α → Prop}
    (h : ∀ k', k ≤ k' → b.IsGrounded k' post) : Grounds k (build b) post := by
  intro k' tokens hle
  refine (h k' hle).bind fun k'' _ hvalue => isGrounded_pure ?_
  rintro a rest ⟨⟩
  exact hvalue

/-- Looking at a token builds nothing. -/
theorem grounds_peek_bind {f : Option Token → Parser β} {Q : Known → β → Prop}
    (h : ∀ token, Grounds k (f token) Q) : Grounds k (peek >>= f) Q :=
  fun k' tokens hle => h (tokens.head?.map Lexeme.token) k' tokens hle

theorem grounds_skip_bind {f : Unit → Parser β} {Q : Known → β → Prop}
    (h : Grounds k (f ()) Q) : Grounds k (skip >>= f) Q :=
  fun k' tokens hle => h k' tokens.tail hle

theorem grounds_expect (token : Token) : Grounds k (expect token) fun _ _ => True := by
  refine grounds_peek_bind fun ahead => ?_
  split
  · intro _ _ _
    exact isGrounded_pure fun _ _ _ => trivial
  · exact grounds_unexpected

theorem grounds_expect_bind {token : Token} {f : Unit → Parser β} {Q : Known → β → Prop}
    (h : ∀ k', k ≤ k' → Grounds k' (f ()) Q) : Grounds k (expect token >>= f) Q :=
  (grounds_expect token).bind fun k' _ hle _ => h k' hle

theorem grounds_finish : Grounds k finish fun _ _ => True := by
  intro k' tokens hle
  cases tokens with
  | nil => exact isGrounded_pure fun _ _ _ => trivial
  | cons lexeme rest => exact grounds_unexpected k' (lexeme :: rest) hle

/-! ### The rules -/

/-- All rules with a budget are grounded. -/
structure GroundsRules (n : Nat) : Prop where
  expression : ∀ k, GroundsTerm k (expression n)
  moreTerms : ∀ k, GroundsTerms k (moreTerms n)
  term : ∀ k, GroundsTerm k (term n)
  moreFactors : ∀ k, ∀ read ∈ k, GroundsTerm k (moreFactors n read)
  unary : ∀ k, GroundsTerm k (unary n)
  power : ∀ k, GroundsTerm k (power n)
  primary : ∀ k, GroundsTerm k (primary n)
  argument : ∀ k, GroundsTerm k (argument n)
  named : ∀ k name, GroundsTerm k (named n name)
  matrix : ∀ k, GroundsTerm k (matrix n)
  moreRows : ∀ k columns, Grounds k (moreRows n columns) fun k' rows =>
    ∀ row ∈ rows, ∀ t ∈ row, t ∈ k'
  row : ∀ k, GroundsTerms k (row n)
  moreEntries : ∀ k, GroundsTerms k (moreEntries n)

theorem groundsRules_zero : GroundsRules 0 where
  expression _ := by rw [Parser.expression]; exact grounds_unexpected
  moreTerms _ := by rw [Parser.moreTerms]; exact grounds_unexpected
  term _ := by rw [Parser.term]; exact grounds_unexpected
  moreFactors _ _ _ := by rw [Parser.moreFactors]; exact grounds_unexpected
  unary _ := by rw [Parser.unary]; exact grounds_unexpected
  power _ := by rw [Parser.power]; exact grounds_unexpected
  primary _ := by rw [Parser.primary]; exact grounds_unexpected
  argument _ := by rw [Parser.argument]; exact grounds_unexpected
  named _ _ := by rw [Parser.named]; exact grounds_unexpected
  matrix _ := by rw [Parser.matrix]; exact grounds_unexpected
  moreRows _ _ := by rw [Parser.moreRows]; exact grounds_unexpected
  row _ := by rw [Parser.row]; exact grounds_unexpected
  moreEntries _ := by rw [Parser.moreEntries]; exact grounds_unexpected

theorem grounds_expression_succ (h : GroundsRules n) (k : Known) :
    GroundsTerm k (expression (n + 1)) := by
  rw [expression]
  refine (h.term k).bind fun k₁ first _ hfirst => ?_
  refine (h.moreTerms k₁).bind fun k₂ others hle hothers => ?_
  refine grounds_build fun k₃ hle' => grounds_sum (List.forall_mem_cons.2 ⟨?_, ?_⟩)
  · exact hle' _ (hle _ hfirst)
  · intro t ht
    exact hle' t (hothers t ht)

theorem grounds_moreTerms_succ (h : GroundsRules n) (k : Known) :
    GroundsTerms k (moreTerms (n + 1)) := by
  rw [moreTerms]
  refine grounds_peek_bind fun token => ?_
  split
  · refine grounds_skip_bind ((h.term k).bind fun k₁ t _ ht => ?_)
    refine (h.moreTerms k₁).bind fun k₂ others hle hothers => grounds_pure fun k₃ hle' => ?_
    exact List.forall_mem_cons.2 ⟨hle' _ (hle _ ht), fun u hu => hle' u (hothers u hu)⟩
  · refine grounds_skip_bind ((h.term k).bind fun k₁ t _ ht => ?_)
    have hopposite : GroundsTerm k₁ (build (Build.make (.negation t))) :=
      grounds_build fun k₂ hle => grounds_make (by simpa [Term.children] using hle _ ht)
    refine hopposite.bind fun k₂ opposite _ hmem => ?_
    refine (h.moreTerms k₂).bind fun k₃ others hle hothers => grounds_pure fun k₄ hle' => ?_
    exact List.forall_mem_cons.2 ⟨hle' _ (hle _ hmem), fun u hu => hle' u (hothers u hu)⟩
  · exact grounds_pure fun _ _ _ hu => absurd hu List.not_mem_nil

theorem grounds_term_succ (h : GroundsRules n) (k : Known) : GroundsTerm k (term (n + 1)) := by
  rw [term]
  exact (h.unary k).bind fun k₁ first _ hfirst => h.moreFactors k₁ first hfirst

theorem grounds_moreFactors_succ (h : GroundsRules n) (k : Known) (read : Term)
    (hread : read ∈ k) : GroundsTerm k (moreFactors (n + 1) read) := by
  have hproduct {p : Parser Term} (hp : GroundsTerm k p) :
      GroundsTerm k (p >>= fun factor => build (Build.product [read, factor]) >>=
        moreFactors n) := by
    refine hp.bind fun k₁ factor hle hfactor => ?_
    have hlonger : GroundsTerm k₁ (build (Build.product [read, factor])) :=
      grounds_build fun k₂ hle' => grounds_product
        (by simpa using And.intro (hle' _ (hle _ hread)) (hle' _ hfactor))
    exact hlonger.bind fun k₂ longer _ hmem => h.moreFactors k₂ longer hmem
  have hend : GroundsTerm k (pure read) := grounds_pure fun _ hle => hle _ hread
  rw [moreFactors]
  refine grounds_peek_bind fun token => ?_
  split
  · exact grounds_skip_bind (hproduct (h.unary k))
  · refine grounds_skip_bind ((h.unary k).bind fun k₁ divisor hle hdivisor => ?_)
    have hlonger : GroundsTerm k₁ (build (Build.make (.quotient read divisor))) :=
      grounds_build fun k₂ hle' => grounds_make
        (by simpa [Term.children] using And.intro (hle' _ (hle _ hread)) (hle' _ hdivisor))
    exact hlonger.bind fun k₂ longer _ hmem => h.moreFactors k₂ longer hmem
  · split
    · exact hproduct (h.power k)
    · exact hend
  · exact hend

theorem grounds_unary_succ (h : GroundsRules n) (k : Known) : GroundsTerm k (unary (n + 1)) := by
  rw [unary]
  refine grounds_peek_bind fun token => ?_
  split
  · refine grounds_skip_bind ((h.unary k).bind fun k₁ argument _ hargument => ?_)
    exact grounds_build fun k₂ hle =>
      grounds_make (by simpa [Term.children] using hle _ hargument)
  · exact grounds_skip_bind (h.unary k)
  · exact h.power k

theorem grounds_power_succ (h : GroundsRules n) (k : Known) : GroundsTerm k (power (n + 1)) := by
  rw [power]
  refine (h.primary k).bind fun k₁ base _ hbase => grounds_peek_bind fun token => ?_
  split
  · refine grounds_skip_bind ((h.unary k₁).bind fun k₂ exponent hle hexponent => ?_)
    exact grounds_build fun k₃ hle' => grounds_make
      (by simpa [Term.children] using And.intro (hle' _ (hle _ hbase)) (hle' _ hexponent))
  · exact grounds_pure fun _ hle => hle _ hbase

/-- A term without parts is built whatever is known. -/
theorem grounds_atom {t : Term} (h : t.children = []) : GroundsTerm k (build (Build.make t)) :=
  grounds_build fun _ _ => grounds_make fun _ hu => absurd (h ▸ hu) List.not_mem_nil

theorem grounds_squareRoot {a : Term} (h : a ∈ k) :
    GroundsTerm k (build (Build.squareRoot a)) := by
  refine grounds_build fun k₁ hle => (grounds_number (1 / 2)).bind fun k₂ hle' hhalf => ?_
  exact grounds_make (by simpa [Term.children] using And.intro (hle' _ (hle _ h)) hhalf)

theorem grounds_primary_succ (h : GroundsRules n) (k : Known) :
    GroundsTerm k (primary (n + 1)) := by
  rw [primary]
  refine grounds_peek_bind fun token => ?_
  split
  · apply grounds_skip_bind
    split
    · exact grounds_build fun _ _ => grounds_number _
    · exact grounds_fail _
  · exact grounds_skip_bind (grounds_atom rfl)
  · exact grounds_skip_bind ((h.primary k).bind fun _ _ _ hargument =>
      grounds_squareRoot hargument)
  · exact grounds_skip_bind (h.named k _)
  · refine grounds_skip_bind ((h.expression k).bind fun k₁ inner _ hinner => ?_)
    refine grounds_expect_bind fun k₂ hle => grounds_pure fun k₃ hle' => ?_
    exact hle' _ (hle _ hinner)
  · exact grounds_skip_bind (h.matrix k)
  · exact grounds_unexpected

theorem grounds_argument_succ (h : GroundsRules n) (k : Known) :
    GroundsTerm k (argument (n + 1)) := by
  rw [argument]
  refine grounds_expect_bind fun k₁ _ => (h.expression k₁).bind fun k₂ inner _ hinner => ?_
  refine grounds_expect_bind fun k₃ hle => grounds_pure fun k₄ hle' => ?_
  exact hle' _ (hle _ hinner)

theorem grounds_named_succ (h : GroundsRules n) (k : Known) (name : String) :
    GroundsTerm k (named (n + 1) name) := by
  rw [named]
  split
  · exact grounds_atom rfl
  split
  · exact grounds_atom rfl
  split
  · exact grounds_atom rfl
  split
  · exact grounds_atom rfl
  split
  · exact (h.argument k).bind fun _ _ _ ha => grounds_squareRoot ha
  split
  · refine (h.argument k).bind fun k₁ a _ ha => grounds_build fun k₂ hle => ?_
    refine IsGrounded.bind (grounds_make (by simp [Term.children])) fun k₃ hle' he => ?_
    exact grounds_make (by simpa [Term.children] using And.intro he (hle' _ (hle _ ha)))
  split
  · refine (h.argument k).bind fun k₁ a _ ha => grounds_build fun k₂ hle => ?_
    exact grounds_make (by simpa [Term.children] using hle _ ha)
  split
  · exact grounds_fail _
  · exact grounds_atom rfl

theorem grounds_matrix_succ (h : GroundsRules n) (k : Known) : GroundsTerm k (matrix (n + 1)) := by
  rw [matrix]
  refine (h.row k).bind fun k₁ first _ hfirst => ?_
  refine (h.moreRows k₁ first.length).bind fun k₂ others hle hothers => ?_
  refine grounds_expect_bind fun k₃ hle' => grounds_build fun k₄ hle'' => grounds_make ?_
  intro u hu
  rcases List.mem_append.1 hu with hu | hu
  · exact hle'' _ (hle' _ (hle _ (hfirst u hu)))
  · obtain ⟨row, hrow, hmem⟩ := List.mem_flatten.1 hu
    exact hle'' _ (hle' _ (hothers row hrow u hmem))

theorem grounds_moreRows_succ (h : GroundsRules n) (k : Known) (columns : Nat) :
    Grounds k (moreRows (n + 1) columns) fun k' rows => ∀ row ∈ rows, ∀ t ∈ row, t ∈ k' := by
  rw [moreRows]
  refine grounds_peek_bind fun token => ?_
  split
  · refine grounds_skip_bind ((h.row k).bind fun k₁ next _ hnext => ?_)
    split
    · exact grounds_fail _
    · refine (h.moreRows k₁ columns).bind fun k₂ others hle hothers => ?_
      refine grounds_pure fun k₃ hle' => List.forall_mem_cons.2 ⟨?_, ?_⟩
      · intro t ht
        exact hle' t (hle t (hnext t ht))
      · intro row hrow t ht
        exact hle' t (hothers row hrow t ht)
  · exact grounds_pure fun _ _ _ hrow => absurd hrow List.not_mem_nil

theorem grounds_row_succ (h : GroundsRules n) (k : Known) : GroundsTerms k (row (n + 1)) := by
  rw [row]
  refine grounds_expect_bind fun k₁ _ => (h.expression k₁).bind fun k₂ first _ hfirst => ?_
  refine (h.moreEntries k₂).bind fun k₃ others hle hothers => ?_
  refine grounds_expect_bind fun k₄ hle' => grounds_pure fun k₅ hle'' => ?_
  exact List.forall_mem_cons.2 ⟨hle'' _ (hle' _ (hle _ hfirst)),
    fun u hu => hle'' u (hle' u (hothers u hu))⟩

theorem grounds_moreEntries_succ (h : GroundsRules n) (k : Known) :
    GroundsTerms k (moreEntries (n + 1)) := by
  rw [moreEntries]
  refine grounds_peek_bind fun token => ?_
  split
  · refine grounds_skip_bind ((h.expression k).bind fun k₁ entry _ hentry => ?_)
    refine (h.moreEntries k₁).bind fun k₂ others hle hothers => grounds_pure fun k₃ hle' => ?_
    exact List.forall_mem_cons.2 ⟨hle' _ (hle _ hentry), fun u hu => hle' u (hothers u hu)⟩
  · exact grounds_pure fun _ _ _ hu => absurd hu List.not_mem_nil

/-- Every rule is grounded, whatever its budget. -/
theorem groundsRules (n : Nat) : GroundsRules n := by
  induction n with
  | zero => exact groundsRules_zero
  | succ n ih =>
    exact {
      expression := grounds_expression_succ ih
      moreTerms := grounds_moreTerms_succ ih
      term := grounds_term_succ ih
      moreFactors := grounds_moreFactors_succ ih
      unary := grounds_unary_succ ih
      power := grounds_power_succ ih
      primary := grounds_primary_succ ih
      argument := grounds_argument_succ ih
      named := grounds_named_succ ih
      matrix := grounds_matrix_succ ih
      moreRows := grounds_moreRows_succ ih
      row := grounds_row_succ ih
      moreEntries := grounds_moreEntries_succ ih }

/-! ### Texts -/

theorem grounds_run {rule : Nat → Parser α} {post : Known → α → Prop}
    (h : ∀ budget, Grounds k (rule budget) post) (text : List Char) :
    (run rule text).IsGrounded k fun k' result => ∀ a, result = .ok a → post k' a := by
  have herror {e : ParseError} : (pure (.error e) : Build (Except ParseError α)).IsGrounded k
      fun k' result => ∀ a, result = .ok a → post k' a :=
    isGrounded_pure fun _ hfalse => nomatch hfalse
  unfold run
  split
  · exact herror
  · exact herror
  case h_3 tokens _ _ =>
    refine (h _ k tokens (Known.le_refl k)).bind fun k' _ hresult => isGrounded_pure ?_
    intro a ha
    cases hread : (rule (16 * (tokens.length + 1)) tokens).value with
    | error e =>
      rw [hread] at ha
      cases ha
    | ok found =>
      rw [hread] at ha
      cases ha
      exact hresult found.1 found.2 hread

theorem grounds_wholeEquation (n : Nat) : Grounds k (wholeEquation n) fun k' sides =>
    sides.1 ∈ k' ∧ sides.2 ∈ k' := by
  refine ((groundsRules n).expression k).bind fun k₁ left _ hleft => ?_
  refine grounds_expect_bind fun k₂ hle₂ => ?_
  refine ((groundsRules n).expression k₂).bind fun k₃ right hle₃ hright => ?_
  refine grounds_finish.bind fun k₄ _ hle₄ _ => grounds_pure fun k₅ hle₅ => ?_
  exact ⟨hle₅ _ (hle₄ _ (hle₃ _ (hle₂ _ hleft))), hle₅ _ (hle₄ _ hright)⟩

end Parser

theorem grounds_parseEquation {k : Known} (text : String) :
    (parseEquation text).IsGrounded k fun k' result =>
      ∀ sides, result = .ok sides → sides.1 ∈ k' ∧ sides.2 ∈ k' := by
  unfold parseEquation
  split
  · exact Parser.grounds_run Parser.grounds_wholeEquation text.toList
  · exact isGrounded_pure fun _ herror => nomatch herror

/-- Reading an equation keeps a pool sound, and its sides are in the pool then. -/
theorem Context.isSound_parseSides {context : Context} (h : context.pool.IsSound)
    (text : String) :
    (context.parseSides text).2.pool.IsSound ∧
      ∀ sides, (context.parseSides text).1 = .ok sides →
        sides.1 ∈ (context.parseSides text).2.pool.terms ∧
          sides.2 ∈ (context.parseSides text).2.pool.terms := by
  obtain ⟨h', -, hsides⟩ := h.record (grounds_parseEquation text)
  exact ⟨h', hsides⟩

end EquationSolver
