import EquationSolver.Sorting
import EquationSolver.Term.Basic

/-!
# The order of terms

Two orders keep reduced expressions in a standard form.  `Term.compare` orders the
factors of a product: numbers first, then every other factor by base and exponent, so
that `x` and `x ^ 2` stand next to each other; a factor without an exponent counts as a
first power.  `Term.compareTerms` orders the terms of a sum: by descending degree, then
by structure, the constant term last.
-/

namespace EquationSolver

/-! ### Orders of numbers -/

def compareRat (a b : Rat) : Ordering :=
  if a < b then .lt else if a = b then .eq else .gt

namespace Binary64

/-- An integer that orders finite doubles by value: the word without its sign bit,
    negated when the sign bit is set. -/
def orderKey (bits : UInt64) : Int :=
  if signBit bits then -((bits.toNat - signWord : Nat) : Int) else bits.toNat

def compareBits (a b : UInt64) : Ordering :=
  Ord.compare (orderKey a) (orderKey b)

def oneBits : UInt64 := 0x3FF0000000000000

end Binary64

namespace Term

/-! ### The order of factors -/

def rank : Term → Nat
  | .number _ => 0
  | .decimal _ => 1
  | .constant _ => 2
  | .symbol _ => 3
  | .apply _ _ => 4
  | .power _ _ => 5
  | .product _ => 6
  | .sum _ => 7
  | .matrix _ _ _ => 8
  | .negation _ => 9
  | .quotient _ _ => 10
  | .undefined => 11
  | .nonreal => 12

/-- The order of an exponent and the first power: numbers are compared with one, and
    everything else comes after it. -/
def compareWithOne : Term → Ordering
  | .number a => compareRat a 1
  | .decimal bits => Binary64.compareBits bits Binary64.oneBits
  | _ => .gt

/-- Extend a comparison with a fixed term that is no power to the powers on the other
    side.  The fixed term comes before a power that equals it in base and exponent. -/
def againstPower (plain : Term → Ordering) : Term → Ordering
  | .power base exponent =>
    ((againstPower plain base).then (compareWithOne exponent).swap).then .lt
  | b => plain b

mutual

def compare : Term → Term → Ordering
  | .number x, b =>
    match b with
    | .number y => compareRat x y
    | _ => .lt
  | .decimal x, b =>
    match b with
    | .number _ => .gt
    | .decimal y => Binary64.compareBits x y
    | _ => .lt
  | .power base exponent, b =>
    match b with
    | .number _ | .decimal _ => .gt
    | .power base' exponent' => (compare base base').then (compare exponent exponent')
    | b => ((compare base b).then (compareWithOne exponent)).then .gt
  | .constant c, b => againstPower (fun
    | .constant d => Ord.compare c.rank d.rank
    | b => Ord.compare 2 b.rank) b
  | .symbol s, b => againstPower (fun
    | .symbol t => Ord.compare s t
    | b => Ord.compare 3 b.rank) b
  | .apply f x, b => againstPower (fun
    | .apply g y => (Ord.compare f.rank g.rank).then (compare x y)
    | b => Ord.compare 4 b.rank) b
  | .product xs, b => againstPower (fun
    | .product ys => compareLists xs ys
    | b => Ord.compare 6 b.rank) b
  | .sum xs, b => againstPower (fun
    | .sum ys => compareLists xs ys
    | b => Ord.compare 7 b.rank) b
  | .matrix m n xs, b => againstPower (fun
    | .matrix p q ys => ((Ord.compare m p).then (Ord.compare n q)).then (compareLists xs ys)
    | b => Ord.compare 8 b.rank) b
  | .negation x, b => againstPower (fun
    | .negation y => compare x y
    | b => Ord.compare 9 b.rank) b
  | .quotient x u, b => againstPower (fun
    | .quotient y v => (compare x y).then (compare u v)
    | b => Ord.compare 10 b.rank) b
  | .undefined, b => againstPower (fun b => Ord.compare 11 b.rank) b
  | .nonreal, b => againstPower (fun b => Ord.compare 12 b.rank) b

/-- The order of lists, term by term; a list comes after its beginnings. -/
def compareLists : List Term → List Term → Ordering
  | [], ys => if ys.isEmpty then .eq else .lt
  | x :: xs, ys =>
    match ys with
    | [] => .gt
    | y :: ys => (compare x y).then (compareLists xs ys)

end

/-! ### Heads -/

/-- What stands at the head of a term: a number, the key of an approximate one, a name, the
    rank of a constant or function, or the size of a matrix. -/
@[ext] structure Head where
  value : Rat := 0
  key : Int := 0
  name : String := ""
  first : Nat := 0
  second : Nat := 0

def head : Term → Head
  | .number a => { value := a }
  | .decimal bits => { key := Binary64.orderKey bits }
  | .constant c => { first := c.rank }
  | .symbol name => { name }
  | .apply f _ => { first := f.rank }
  | .matrix m n _ => { first := m, second := n }
  | _ => {}

def Head.compare (g h : Head) : Ordering :=
  ((((compareRat g.value h.value).then (Ord.compare g.key h.key)).then
    (Ord.compare g.name h.name)).then (Ord.compare g.first h.first)).then
      (Ord.compare g.second h.second)

/-! ### The order of terms of a sum -/

mutual

/-- The degree in all symbols together, a 64-bit number.  Only integer exponents
    count; the degree of a power stops at the ends of the range, and that of a product
    wraps around at them. -/
def degree : Term → Int
  | .symbol _ => 1
  | .power base exponent =>
    match exponent.rational?.bind Rational.toInt64Range? with
    | some e => Integer.clampSigned (degree base * e)
    | none => 0
  | .product factors => Integer.wrapSigned (degreeSum factors)
  | .sum terms => (degreeMax terms).getD 0
  | _ => 0

def degreeSum : List Term → Int
  | [] => 0
  | t :: ts => degree t + degreeSum ts

/-- The largest degree of a list, if it has any. -/
def degreeMax : List Term → Option Int
  | [] => none
  | t :: ts =>
    match degreeMax ts with
    | some d => some (max (degree t) d)
    | none => some (degree t)

end

/-- The factors of a term that are not numbers. -/
def body : Term → List Term
  | .product factors => factors.filter fun f => !f.isNumeric
  | .number _ | .decimal _ => []
  | t => [t]

/-- The order of the terms of a sum, each given with its degree. -/
def compareGraded (a b : Int × Term) : Ordering :=
  if a.2 = b.2 then .eq
  else
    ((Ord.compare a.2.isNumeric.toNat b.2.isNumeric.toNat).then (Ord.compare b.1 a.1)).then
      ((compareLists a.2.body b.2.body).then (compare a.2 b.2))

/-- The order of the terms of a sum. -/
def compareTerms (a b : Term) : Ordering :=
  compareGraded (a.degree, a) (b.degree, b)

def sortTerms (terms : List Term) : List Term :=
  sortWith degree compareGraded terms

theorem sortTerms_eq (terms : List Term) : sortTerms terms = sortBy compareTerms terms :=
  sortWith_eq degree compareGraded terms

end Term

end EquationSolver
