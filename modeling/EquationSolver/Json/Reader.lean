import EquationSolver.Json.Value

/-!
# Reading JSON

A text denotes a value when it is one, with blanks before and behind it and between its
parts.  Each rule takes what it reads from the front of the characters and returns the rest.
A budget proportional to the number of characters makes the rules for nested values
structurally recursive; no rule reaches its end, because between two passes through the same
rule a character is taken.
-/

namespace EquationSolver

namespace JsonValue

/-! ### Blanks -/

def isBlank (c : Char) : Bool :=
  c = ' ' || c = '\t' || c = '\n' || c = '\r'

def skipBlanks (cs : List Char) : List Char :=
  cs.dropWhile isBlank

/-! ### Numbers -/

def digitValue (c : Char) : Nat := c.toNat - '0'.toNat

def digits (cs : List Char) : List Nat × List Char :=
  ((cs.takeWhile Char.isDigit).map digitValue, cs.dropWhile Char.isDigit)

/-- One digit at least. -/
def someDigits? (cs : List Char) : Option (List Nat × List Char) :=
  match digits cs with
  | ([], _) => none
  | found => some found

/-- The digits before the point: zero, or digits that do not begin with zero. -/
def whole? (cs : List Char) : Option (List Nat × List Char) :=
  match digits cs with
  | ([], _) => none
  | (0 :: _ :: _, _) => none
  | found => some found

def fraction? (cs : List Char) : Option (Option (List Nat) × List Char) :=
  match cs with
  | '.' :: rest => (someDigits? rest).map fun found => (some found.1, found.2)
  | cs => some (none, cs)

/-- The sign and the digits of an exponent. -/
def signedDigits? (cs : List Char) : Option ((Bool × List Nat) × List Char) :=
  let (isNegative, rest) := match cs with
    | '-' :: rest => (true, rest)
    | '+' :: rest => (false, rest)
    | cs => (false, cs)
  (someDigits? rest).map fun found => ((isNegative, found.1), found.2)

def exponent? (cs : List Char) : Option (Option (Bool × List Nat) × List Char) :=
  match cs with
  | c :: rest =>
    if c = 'e' || c = 'E' then
      (signedDigits? rest).map fun found => (some found.1, found.2)
    else some (none, cs)
  | [] => some (none, [])

def number? (cs : List Char) : Option (JsonNumber × List Char) := do
  let (isNegative, cs) := match cs with
    | '-' :: rest => (true, rest)
    | cs => (false, cs)
  let (whole, cs) ← whole? cs
  let (fraction, cs) ← fraction? cs
  let (exponent, cs) ← exponent? cs
  pure (⟨isNegative, whole, fraction, exponent⟩, cs)

/-! ### Strings -/

def hexValue? (c : Char) : Option Nat :=
  if c.isDigit then some (digitValue c)
  else if 'a' ≤ c && c ≤ 'f' then some (c.toNat - 'a'.toNat + 10)
  else if 'A' ≤ c && c ≤ 'F' then some (c.toNat - 'A'.toNat + 10)
  else none

def code? (a b c d : Char) : Option Nat := do
  pure (((← hexValue? a) * 16 + (← hexValue? b)) * 256 + (← hexValue? c) * 16 + (← hexValue? d))

/-- The character that a letter behind a backslash stands for. -/
def escaped? : Char → Option Char
  | '"' => some '"'
  | '\\' => some '\\'
  | '/' => some '/'
  | 'b' => some '\x08'
  | 'f' => some '\x0c'
  | 'n' => some '\n'
  | 'r' => some '\r'
  | 't' => some '\t'
  | _ => none

/-- A string behind its opening quotation mark.  Control characters have to be escaped. -/
def string? : List Char → Option (JsonString × List Char)
  | [] => none
  | '"' :: rest => some ([], rest)
  | '\\' :: 'u' :: a :: b :: c :: d :: rest => do
    let code ← code? a b c d
    let (units, rest) ← string? rest
    pure (.escape code :: units, rest)
  | '\\' :: letter :: rest => do
    let c ← escaped? letter
    let (units, rest) ← string? rest
    pure (.character c :: units, rest)
  | c :: rest =>
    if c = '\\' || c.toNat < 32 then none
    else do
      let (units, rest) ← string? rest
      pure (.character c :: units, rest)

/-! ### Values -/

mutual

def value? : Nat → List Char → Option (JsonValue × List Char)
  | 0, _ => none
  | budget + 1, cs =>
    match skipBlanks cs with
    | 'n' :: 'u' :: 'l' :: 'l' :: rest => some (.null, rest)
    | 't' :: 'r' :: 'u' :: 'e' :: rest => some (.bool true, rest)
    | 'f' :: 'a' :: 'l' :: 's' :: 'e' :: rest => some (.bool false, rest)
    | '"' :: rest => (string? rest).map fun found => (.string found.1, found.2)
    | '[' :: rest =>
      match skipBlanks rest with
      | ']' :: rest => some (.array [], rest)
      | rest => (items? budget rest).map fun found => (.array found.1, found.2)
    | '\x7b' :: rest =>
      match skipBlanks rest with
      | '\x7d' :: rest => some (.object [], rest)
      | rest => (members? budget rest).map fun found => (.object found.1, found.2)
    | rest => (number? rest).map fun found => (.number found.1, found.2)

/-- The items of an array up to its end, one at least. -/
def items? : Nat → List Char → Option (List JsonValue × List Char)
  | 0, _ => none
  | budget + 1, cs => do
    let (item, rest) ← value? budget cs
    match skipBlanks rest with
    | ',' :: rest => do
      let (items, rest) ← items? budget rest
      pure (item :: items, rest)
    | ']' :: rest => pure ([item], rest)
    | _ => none

/-- The members of an object up to its end, one at least. -/
def members? : Nat → List Char → Option (List (JsonString × JsonValue) × List Char)
  | 0, _ => none
  | budget + 1, cs =>
    match skipBlanks cs with
    | '"' :: rest => do
      let (name, rest) ← string? rest
      match skipBlanks rest with
      | ':' :: rest => do
        let (value, rest) ← value? budget rest
        match skipBlanks rest with
        | ',' :: rest => do
          let (members, rest) ← members? budget rest
          pure ((name, value) :: members, rest)
        | '\x7d' :: rest => pure ([(name, value)], rest)
        | _ => none
      | _ => none
    | _ => none

end

def ofText? (text : String) : Option JsonValue := do
  let cs := text.toList
  let (value, rest) ← value? (2 * cs.length + 1) cs
  if (skipBlanks rest).isEmpty then pure value else none

end JsonValue

end EquationSolver
