import EquationSolver.Text.Letter
import EquationSolver.Number.Literal

/-!
# Tokens

The text of an equation is cut into tokens by reading one character at a time.  A number
or a name is held back until a character comes that does not extend it, so each token is
as long as it can be.  Positions count bytes of the UTF-8 form.
-/

namespace EquationSolver

/-! ### Errors of reading -/

def maxNameLength : Nat := 7

/-- Why a text is not an expression or an equation. -/
inductive ParseError where
  | empty
  /-- A character that begins no token. -/
  | unexpectedCharacter (position : Nat) (found : Char)
  /-- A token that fits no rule of the grammar at its place. -/
  | unexpectedToken (position : Nat) (found : String)
  | unexpectedEnd
  | invalidNumber (text : String)
  | nameTooLong (name : String)
  | raggedMatrix
  /-- An equation has exactly one sign of equality. -/
  | notAnEquation
deriving DecidableEq, Repr

namespace ParseError

def message : ParseError → String
  | empty => "empty input"
  | unexpectedCharacter position found =>
    "unexpected character '" ++ found.toString ++ "' at " ++ toString position
  | unexpectedToken position found =>
    "unexpected '" ++ found ++ "' at " ++ toString position
  | unexpectedEnd => "unexpected end of input"
  | invalidNumber text => "invalid number '" ++ text ++ "'"
  | nameTooLong name =>
    "name '" ++ name ++ "' is longer than " ++ toString maxNameLength ++ " characters"
  | raggedMatrix => "matrix rows have different lengths"
  | notAnEquation => "expected exactly one '=' in an equation"

end ParseError

/-! ### Tokens -/

inductive Token where
  | number (text : List Char)
  | name (text : List Char)
  | pi
  | root
  | plus
  | minus
  | star
  | slash
  | caret
  | openParen
  | closeParen
  | openBracket
  | closeBracket
  | comma
  | equals
deriving DecidableEq, Repr

namespace Token

def text : Token → String
  | number text => String.ofList text
  | name text => String.ofList text
  | pi => "π"
  | root => "√"
  | plus => "+"
  | minus => "-"
  | star => "*"
  | slash => "/"
  | caret => "^"
  | openParen => "("
  | closeParen => ")"
  | openBracket => "["
  | closeBracket => "]"
  | comma => ","
  | equals => "="

/-- A token that begins an operand, before which a product sign may be left out. -/
def beginsOperand : Token → Bool
  | number _ | name _ | pi | root | openParen | openBracket => true
  | _ => false

def ofChar? : Char → Option Token
  | 'π' => some pi
  | '√' => some root
  | '+' => some plus
  | '-' | '−' => some minus
  | '*' | '×' | '·' => some star
  | '/' => some slash
  | '^' => some caret
  | '(' => some openParen
  | ')' => some closeParen
  | '[' => some openBracket
  | ']' => some closeBracket
  | ',' => some comma
  | '=' => some equals
  | _ => none

end Token

/-- A token and the byte at which it begins. -/
structure Lexeme where
  position : Nat
  token : Token
deriving DecidableEq, Repr

/-! ### Cutting a text into tokens -/

inductive Pending where
  | nothing
  | name (start : Nat) (text : List Char)
  | mantissa (start : Nat) (text : List Char)
  /-- A number up to the mark of its exponent. -/
  | exponentMark (start : Nat) (text : List Char)
  /-- A number up to the sign or a digit of its exponent. -/
  | exponent (start : Nat) (text : List Char)

namespace Pending

def beginsNumber (c : Char) : Bool :=
  c.isDigit || c == '.'

/-- The pending token with one more character, if the character extends it.  An
    exponent is marked by a capital letter; the small one is a constant. -/
def extend? (c : Char) : Pending → Option Pending
  | nothing => none
  | name start text =>
    if (Text.isLetterOrNumeral c || c == '_') && c != 'π' then some (name start (text ++ [c]))
    else none
  | mantissa start text =>
    if beginsNumber c then some (mantissa start (text ++ [c]))
    else if c == 'E' then some (exponentMark start (text ++ [c]))
    else none
  | exponentMark start text =>
    if c == '-' || c == '+' || c.isDigit then some (exponent start (text ++ [c])) else none
  | exponent start text =>
    if c.isDigit then some (exponent start (text ++ [c])) else none

/-- The token that a character of several-character tokens begins. -/
def begin? (position : Nat) (c : Char) : Option Pending :=
  if beginsNumber c then some (mantissa position [c])
  else if Text.isLetter c && c != 'π' then some (name position [c])
  else none

def finish : Pending → List Lexeme
  | nothing => []
  | name start text => [⟨start, .name text⟩]
  | mantissa start text | exponentMark start text | exponent start text =>
    [⟨start, .number text⟩]

end Pending

/-- Cut the rest of a text into tokens, behind a pending one. -/
def tokensFrom (position : Nat) (pending : Pending) : List Char → Except ParseError (List Lexeme)
  | [] => .ok pending.finish
  | c :: rest =>
    let next := position + c.utf8Size
    match pending.extend? c with
    | some longer => tokensFrom next longer rest
    | none =>
      if Text.isBlank c then (tokensFrom next .nothing rest).map (pending.finish ++ ·)
      else
        match Pending.begin? position c with
        | some first => (tokensFrom next first rest).map (pending.finish ++ ·)
        | none =>
          match Token.ofChar? c with
          | some token =>
            (tokensFrom next .nothing rest).map (pending.finish ++ ⟨position, token⟩ :: ·)
          | none => .error (.unexpectedCharacter position c)

def tokenize (text : List Char) : Except ParseError (List Lexeme) :=
  tokensFrom 0 .nothing text

end EquationSolver
