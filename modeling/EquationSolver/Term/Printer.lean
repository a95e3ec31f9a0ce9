import EquationSolver.Term.Order

/-!
# Written form of terms

The text of a term reads back to the same value: `x^2-5*x+6`, `√(2)/2`, `2^(1/3)`,
`[[1,2],[3,4]]`.  A product is written as one quotient: exact numbers are multiplied
into one coefficient, which leads the numerator, and the powers with negative exact
exponents form the denominator.  Approximate numbers are written with a given number of
significant digits.
-/

namespace EquationSolver

namespace Term

/-! ### Parentheses -/

def parenthesize (wrap : Bool) (text : List Char) : List Char :=
  if wrap then '(' :: text ++ [')'] else text

def joinTexts (separator : Char) : List (List Char) → List Char
  | [] => []
  | [text] => text
  | text :: rest => text ++ separator :: joinTexts separator rest

/-- A term that needs no parentheses as the base of a power or as a denominator. -/
def standsAlone : Term → Bool
  | .number a => a.den = 1 ∧ 0 ≤ a
  | .decimal bits => !Binary64.signBit bits
  | .constant _ | .symbol _ | .apply _ _ | .matrix _ _ _ | .undefined | .nonreal => true
  | _ => false

/-- A term that needs no parentheses as an exponent. -/
def standsAsExponent : Term → Bool
  | .symbol _ | .constant _ => true
  | .number a => a.den = 1 ∧ 0 ≤ a
  | _ => false

/-- A sum or a negation, which needs parentheses behind a minus sign and as a
    numerator. -/
def isSumOrNegation : Term → Bool
  | .sum _ | .negation _ => true
  | _ => false

/-- A sum, a negation or a quotient, which needs parentheses as a factor. -/
def isLooserThanProduct : Term → Bool
  | .sum _ | .negation _ | .quotient _ _ => true
  | _ => false

/-! ### Powers -/

/-- An exact negative number as exponent puts a power into the denominator; the result
    is the opposite exponent. -/
def denominatorExponent? : Term → Option Rat
  | .number a => if a < 0 then some (-a) else none
  | _ => none

/-- A power written from the text of its base and of its exponent. -/
def writePower (base exponent : Term) (baseText exponentText : List Char) : List Char :=
  if exponent = .number (1 / 2) then '√' :: parenthesize true baseText
  else
    parenthesize (!base.standsAlone) baseText ++
      '^' :: parenthesize (!exponent.standsAsExponent) exponentText

/-- A power with a positive exact exponent in the denominator of a product. -/
def writeDenominatorPower (base : Term) (exponent : Rat) (baseText : List Char) : List Char :=
  if exponent = 1 / 2 then '√' :: parenthesize true baseText
  else
    let text := parenthesize (!base.standsAlone) baseText
    if exponent = 1 then text
    else text ++ '^' :: parenthesize (exponent.den ≠ 1) (Rational.text exponent).toList

/-! ### Products -/

/-- What the factors of a product contribute to its written form. -/
structure ProductText where
  coefficient : Rat := 1
  /-- An odd number of approximate numbers is negative. -/
  negative : Bool := false
  numerator : List (List Char) := []
  denominator : List (List Char) := []

namespace ProductText

/-- Put the contribution of a factor in front of that of the factors behind it. -/
def addFactor (digits : Nat) (factor : Term) (text : List Char) (rest : ProductText) :
    ProductText :=
  match factor with
  | .number a => { rest with coefficient := a * rest.coefficient }
  | .decimal bits =>
    let magnitude := UInt64.ofNat (bits.toNat % Binary64.signWord)
    { rest with
      negative := Binary64.signBit bits ^^ rest.negative
      numerator := (Digits.format magnitude digits).toList :: rest.numerator }
  | .power _ exponent =>
    if (denominatorExponent? exponent).isSome then
      { rest with denominator := text :: rest.denominator }
    else { rest with numerator := text :: rest.numerator }
  | _ => { rest with numerator := parenthesize factor.isLooserThanProduct text :: rest.numerator }

/-- The written product: sign, numerator and denominator. -/
def write (p : ProductText) : List Char :=
  if p.coefficient = 0 then ['0']
  else
    let sign : List Char := if decide (p.coefficient < 0) != p.negative then ['-'] else []
    let top := p.coefficient.num.natAbs
    let bottom := p.coefficient.den
    let numerator :=
      if top ≠ 1 ∨ p.numerator.isEmpty then Digits.ofNat top :: p.numerator else p.numerator
    let denominator := if bottom ≠ 1 then Digits.ofNat bottom :: p.denominator else p.denominator
    let quotient :=
      match denominator with
      | [] => []
      | [text] => '/' :: text
      | texts => '/' :: parenthesize true (joinTexts '*' texts)
    sign ++ joinTexts '*' numerator ++ quotient

end ProductText

/-! ### Terms -/

/-- Rows of a matrix, each of `columns` texts; the list of texts is cut as often as
    there are rows. -/
def writeRows (columns : Nat) : Nat → List (List Char) → List (List Char)
  | 0, _ => []
  | rows + 1, texts =>
    ('[' :: joinTexts ',' (texts.take columns) ++ [']']) ::
      writeRows columns rows (texts.drop columns)

mutual

def write (digits : Nat) : Term → List Char
  | .number a => (Rational.text a).toList
  | .decimal bits => (Digits.format bits digits).toList
  | .constant c => c.name.toList
  | .symbol name => name.toList
  | .undefined => "undef".toList
  | .nonreal => "nonreal".toList
  | .sum terms => writeSum digits terms true
  | .product factors => (productText digits factors).write
  | .power base exponent =>
    match denominatorExponent? exponent with
    | some e =>
      ProductText.write { denominator := [writeDenominatorPower base e (write digits base)] }
    | none => writePower base exponent (write digits base) (write digits exponent)
  | .negation a => '-' :: parenthesize a.isSumOrNegation (write digits a)
  | .quotient a b =>
    parenthesize a.isSumOrNegation (write digits a) ++
      '/' :: parenthesize (!b.standsAlone) (write digits b)
  | .apply f a => f.name.toList ++ parenthesize true (write digits a)
  | .matrix rows columns entries =>
    '[' :: joinTexts ',' (writeRows columns rows (writeEach digits entries)) ++ [']']

/-- The terms of a sum, with a plus sign before each but the first that brings no sign
    of its own. -/
def writeSum (digits : Nat) : List Term → Bool → List Char
  | [], _ => []
  | t :: ts, isFirst =>
    let text := parenthesize t.isSum (write digits t)
    let plus : List Char := if isFirst || text.head? == some '-' then [] else ['+']
    plus ++ text ++ writeSum digits ts false

/-- The text of a factor of a product, a power with negative exact exponent being
    written with the opposite exponent. -/
def writeFactor (digits : Nat) : Term → List Char
  | .power base exponent =>
    match denominatorExponent? exponent with
    | some e => writeDenominatorPower base e (write digits base)
    | none => writePower base exponent (write digits base) (write digits exponent)
  | factor => write digits factor

def productText (digits : Nat) : List Term → ProductText
  | [] => {}
  | factor :: rest =>
    ProductText.addFactor digits factor (writeFactor digits factor) (productText digits rest)

def writeEach (digits : Nat) : List Term → List (List Char)
  | [] => []
  | t :: ts => write digits t :: writeEach digits ts

end

/-- The text of a term, its approximate numbers written with `digits` significant
    digits. -/
def text (t : Term) (digits : Nat) : String :=
  String.ofList (write digits t)

end Term

end EquationSolver
