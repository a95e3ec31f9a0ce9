import EquationSolver.Term.Build
import EquationSolver.Term.Token

/-!
# Reading expressions and equations

The grammar, loosest binding first:

    equation   := expression '=' expression
    expression := term (('+' | '-') term)*
    term       := unary (('*' | '/') unary | power)*
    unary      := ('-' | '+') unary | power
    power      := primary ('^' unary)?
    primary    := number | name | name '(' expression ')' | '(' expression ')'
                | '√' primary | matrix
    matrix     := '[' row (',' row)* ']'
    row        := '[' expression (',' expression)* ']'

Decimal literals are read as exact numbers; `sqrt(x)` and `exp(x)` are read straight into
powers.  Each rule is a function of the tokens ahead of it.  Every call but the outermost
spends one unit of a budget that is proportional to the number of tokens, which makes the
rules structurally recursive; no rule reaches the end of the budget, because between two
passes through the same rule a token is consumed.
-/

namespace EquationSolver

/-- A rule of the grammar: it reads tokens from the front and leaves the others. -/
def Parser (α : Type) : Type :=
  List Lexeme → Build (Except ParseError (α × List Lexeme))

namespace Parser

variable {α β : Type}

instance : Monad Parser where
  pure a := fun tokens => pure (.ok (a, tokens))
  bind p f := fun tokens => do
    match ← p tokens with
    | .ok (a, rest) => f a rest
    | .error e => pure (.error e)

theorem bind_eq (p : Parser α) (f : α → Parser β) (tokens : List Lexeme) :
    (p >>= f) tokens = p tokens >>= fun
      | .ok (a, rest) => f a rest
      | .error e => pure (.error e) := rfl

def fail (e : ParseError) : Parser α :=
  fun _ => pure (.error e)

def build (b : Build α) : Parser α :=
  fun tokens => do
    let a ← b
    pure (.ok (a, tokens))

def peek : Parser (Option Token) :=
  fun tokens => pure (.ok (tokens.head?.map Lexeme.token, tokens))

def skip : Parser Unit :=
  fun tokens => pure (.ok ((), tokens.tail))

/-- Refuse the token ahead, or the end of the text. -/
def unexpected : Parser α :=
  fun tokens =>
    match tokens with
    | [] => pure (.error .unexpectedEnd)
    | lexeme :: _ => pure (.error (.unexpectedToken lexeme.position lexeme.token.text))

def expect (token : Token) : Parser Unit := do
  if (← peek) = some token then skip else unexpected

def finish : Parser Unit :=
  fun tokens =>
    match tokens with
    | [] => pure (.ok ((), []))
    | _ => unexpected tokens

/-! ### The rules -/

mutual

/-- An expression is a sum of terms. -/
def expression : Nat → Parser Term
  | 0 => unexpected
  | n + 1 => do
    let first ← term n
    let others ← moreTerms n
    build (Build.sum (first :: others))

/-- The terms behind the first one, those behind a minus sign as negations. -/
def moreTerms : Nat → Parser (List Term)
  | 0 => unexpected
  | n + 1 => do
    match ← peek with
    | some .plus =>
      skip
      let t ← term n
      let others ← moreTerms n
      pure (t :: others)
    | some .minus =>
      skip
      let t ← term n
      let opposite ← build (Build.make (.negation t))
      let others ← moreTerms n
      pure (opposite :: others)
    | _ => pure []

/-- A term is a chain of products and quotients. -/
def term : Nat → Parser Term
  | 0 => unexpected
  | n + 1 => do
    let first ← unary n
    moreFactors n first

/-- The chain of products and quotients behind what has been read of it. -/
def moreFactors : Nat → Term → Parser Term
  | 0, _ => unexpected
  | n + 1, read => do
    match ← peek with
    | some .star =>
      skip
      let factor ← unary n
      let longer ← build (Build.product [read, factor])
      moreFactors n longer
    | some .slash =>
      skip
      let divisor ← unary n
      let longer ← build (Build.make (.quotient read divisor))
      moreFactors n longer
    | some token =>
      if token.beginsOperand then
        let factor ← power n
        let longer ← build (Build.product [read, factor])
        moreFactors n longer
      else pure read
    | none => pure read

/-- Signs before a power. -/
def unary : Nat → Parser Term
  | 0 => unexpected
  | n + 1 => do
    match ← peek with
    | some .minus =>
      skip
      let argument ← unary n
      build (Build.make (.negation argument))
    | some .plus =>
      skip
      unary n
    | _ => power n

/-- A primary, perhaps with an exponent; powers associate to the right. -/
def power : Nat → Parser Term
  | 0 => unexpected
  | n + 1 => do
    let base ← primary n
    if (← peek) = some .caret then
      skip
      let exponent ← unary n
      build (Build.make (.power base exponent))
    else pure base

/-- Numbers, names, roots, parentheses and matrices. -/
def primary : Nat → Parser Term
  | 0 => unexpected
  | n + 1 => do
    match ← peek with
    | some (.number text) =>
      skip
      match Literal.ofChars? text with
      | some value => build (Build.number value)
      | none => fail (.invalidNumber (String.ofList text))
    | some .pi =>
      skip
      build (Build.make (.constant .pi))
    | some .root =>
      skip
      let argument ← primary n
      build (Build.squareRoot argument)
    | some (.name text) =>
      skip
      named n (String.ofList text)
    | some .openParen =>
      skip
      let inner ← expression n
      expect .closeParen
      pure inner
    | some .openBracket =>
      skip
      matrix n
    | _ => unexpected

def argument : Nat → Parser Term
  | 0 => unexpected
  | n + 1 => do
    expect .openParen
    let inner ← expression n
    expect .closeParen
    pure inner

/-- What a name stands for: a constant, a function with its argument, or a symbol. -/
def named : Nat → String → Parser Term
  | 0, _ => unexpected
  | n + 1, name =>
    if name = "pi" then build (Build.make (.constant .pi))
    else if name = "e" then build (Build.make (.constant .e))
    else if name = "i" then build (Build.make (.constant .i))
    else if name = "undef" then build (Build.make .undefined)
    else if name = "sqrt" then do
      let a ← argument n
      build (Build.squareRoot a)
    else if name = "exp" then do
      let a ← argument n
      build do
        let e ← Build.make (.constant .e)
        Build.make (.power e a)
    else
      match Function.ofName? name with
      | some f => do
        let a ← argument n
        build (Build.make (.apply f a))
      | none =>
        if maxNameLength < name.length then fail (.nameTooLong name)
        else build (Build.make (.symbol name))

def matrix : Nat → Parser Term
  | 0 => unexpected
  | n + 1 => do
    let first ← row n
    let others ← moreRows n first.length
    expect .closeBracket
    build (Build.make (.matrix (others.length + 1) first.length (first ++ others.flatten)))

/-- The rows behind the first one, which all have its length. -/
def moreRows : Nat → Nat → Parser (List (List Term))
  | 0, _ => unexpected
  | n + 1, columns => do
    if (← peek) = some .comma then
      skip
      let next ← row n
      if next.length ≠ columns then fail .raggedMatrix
      else
        let others ← moreRows n columns
        pure (next :: others)
    else pure []

def row : Nat → Parser (List Term)
  | 0 => unexpected
  | n + 1 => do
    expect .openBracket
    let first ← expression n
    let others ← moreEntries n
    expect .closeBracket
    pure (first :: others)

def moreEntries : Nat → Parser (List Term)
  | 0 => unexpected
  | n + 1 => do
    if (← peek) = some .comma then
      skip
      let entry ← expression n
      let others ← moreEntries n
      pure (entry :: others)
    else pure []

end

/-! ### Texts -/

/-- Apply a rule to the tokens of a text, of which there is at least one.  The budget
    covers the longest chain of rules per token. -/
def run (rule : Nat → Parser α) (text : List Char) : Build (Except ParseError α) :=
  match tokenize text with
  | .error e => pure (.error e)
  | .ok [] => pure (.error .empty)
  | .ok tokens => do
    let result ← rule (16 * (tokens.length + 1)) tokens
    pure (result.map Prod.fst)

def wholeExpression (budget : Nat) : Parser Term := do
  let t ← expression budget
  finish
  pure t

def wholeEquation (budget : Nat) : Parser (Term × Term) := do
  let left ← expression budget
  expect .equals
  let right ← expression budget
  finish
  pure (left, right)

end Parser

def parseExpression (text : String) : Build (Except ParseError Term) :=
  Parser.run Parser.wholeExpression text.toList

/-- Read an equation, which holds exactly one sign of equality. -/
def parseEquation (text : String) : Build (Except ParseError (Term × Term)) :=
  if text.toList.count '=' = 1 then Parser.run Parser.wholeEquation text.toList
  else pure (.error .notAnEquation)

end EquationSolver
