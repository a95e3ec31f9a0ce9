import EquationSolver.Number.Binary64

/-!
# Numbers to search on

The searches for roots and minima are written over any numbers with the operations below.
They run on doubles, where an operation may round, overflow or have no result, and they can
be read over the rationals, where every operation is exact.
-/

namespace EquationSolver

class SearchNumber (α : Type) extends Add α, Sub α, Mul α, Div α, Neg α where
  ofRat : Rat → α
  less : α → α → Bool
  /-- The two numbers are equal.  What is not a number does not even equal itself. -/
  same : α → α → Bool
  abs : α → α
  withSign : α → α → α
  isFinite : α → Bool

namespace SearchNumber

variable {α : Type} [SearchNumber α]

def atMost (x y : α) : Bool :=
  less x y || same x y

def isNumber (x : α) : Bool :=
  same x x

/-- The smaller of two numbers; of a number and what is none, the number. -/
def smaller (x y : α) : α :=
  if less y x || !isNumber x then y else x

/-- The larger of two numbers; of a number and what is none, the number. -/
def larger (x y : α) : α :=
  if less x y || !isNumber x then y else x

def isNegative (x : α) : Bool :=
  less x (ofRat 0)

def isPositive (x : α) : Bool :=
  less (ofRat 0) x

def isZero (x : α) : Bool :=
  same x (ofRat 0)

def epsilon : α :=
  ofRat (1 / 4503599627370496)

end SearchNumber

instance : SearchNumber Rat where
  ofRat a := a
  less a b := a < b
  same a b := a = b
  abs a := a.abs
  withSign a b := if b < 0 then -a.abs else a.abs
  isFinite _ := true

def Binary64.magnitudeMask : UInt64 := 0x7FFFFFFFFFFFFFFF

/-- The double with the digits of one double and the sign of another. -/
def Binary64.withSign (x y : Float) : Float :=
  Float.ofBits ((x.toBits &&& magnitudeMask) ||| (y.toBits &&& ~~~magnitudeMask))

instance : SearchNumber Float where
  ofRat := Binary64.nearest
  less x y := x < y
  same x y := x == y
  abs := Float.abs
  withSign := Binary64.withSign
  isFinite x := x.isFinite

end EquationSolver
