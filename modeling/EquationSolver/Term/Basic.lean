import EquationSolver.Number.Rational
import EquationSolver.Number.Digits

/-!
# Terms

The expressions that equations are written with.  An exact number is a rational; an
approximate one is a finite double, kept by its bits.  A term that has no value is
`undefined`; one whose value is not real, where only real values are wanted, is
`nonreal`.  A square root is a power with exponent one half, and `exp x` is a power
of the constant `e`.

Terms have decidable equality and a hash, both by structural recursion.
-/

namespace EquationSolver

/-! ### Constants and functions -/

inductive Constant where
  | pi
  | e
  | i
deriving DecidableEq, Hashable, Repr

namespace Constant

def name : Constant → String
  | pi => "π"
  | e => "e"
  | i => "i"

def rank : Constant → Nat
  | pi => 0
  | e => 1
  | i => 2

end Constant

inductive Function where
  | sin
  | cos
  | tan
  | asin
  | acos
  | atan
  | ln
  | log
  | abs
  | cbrt
deriving DecidableEq, Hashable, Repr

namespace Function

def all : List Function :=
  [sin, cos, tan, asin, acos, atan, ln, log, abs, cbrt]

def name : Function → String
  | sin => "sin"
  | cos => "cos"
  | tan => "tan"
  | asin => "asin"
  | acos => "acos"
  | atan => "atan"
  | ln => "ln"
  | log => "log"
  | abs => "abs"
  | cbrt => "cbrt"

def rank : Function → Nat
  | sin => 0
  | cos => 1
  | tan => 2
  | asin => 3
  | acos => 4
  | atan => 5
  | ln => 6
  | log => 7
  | abs => 8
  | cbrt => 9

def ofName? (name : String) : Option Function :=
  all.find? fun f => f.name = name

/-- Sine, cosine and tangent take an angle. -/
def takesAngle : Function → Bool
  | sin | cos | tan => true
  | _ => false

/-- The inverse functions of sine, cosine and tangent give an angle. -/
def givesAngle : Function → Bool
  | asin | acos | atan => true
  | _ => false

end Function

/-! ### Terms -/

inductive Term where
  | number (value : Rat)
  /-- An approximate number: the bits of a finite double other than negative zero. -/
  | decimal (bits : UInt64)
  | constant (c : Constant)
  | symbol (name : String)
  /-- The value of a term that has none. -/
  | undefined
  /-- The value of a term that is not real where real values are wanted. -/
  | nonreal
  | sum (terms : List Term)
  | product (factors : List Term)
  | power (base exponent : Term)
  | negation (argument : Term)
  | quotient (numerator denominator : Term)
  | apply (f : Function) (argument : Term)
  | matrix (rows columns : Nat) (entries : List Term)

namespace Term

instance : Inhabited Term := ⟨.undefined⟩

/-! ### Equality and hash -/

mutual

def same : Term → Term → Bool
  | .number a, .number b => a == b
  | .decimal a, .decimal b => a == b
  | .constant a, .constant b => a == b
  | .symbol a, .symbol b => a == b
  | .undefined, .undefined => true
  | .nonreal, .nonreal => true
  | .sum as, .sum bs => sameList as bs
  | .product as, .product bs => sameList as bs
  | .power a x, .power b y => same a b && same x y
  | .negation a, .negation b => same a b
  | .quotient a x, .quotient b y => same a b && same x y
  | .apply f a, .apply g b => f == g && same a b
  | .matrix m n as, .matrix p q bs => m == p && n == q && sameList as bs
  | _, _ => false

def sameList : List Term → List Term → Bool
  | [], [] => true
  | a :: as, b :: bs => same a b && sameList as bs
  | _, _ => false

end

mutual

theorem eq_of_same : ∀ a b : Term, same a b = true → a = b
  | .number _, b, h => by cases b <;> simp_all [same]
  | .decimal _, b, h => by cases b <;> simp_all [same]
  | .constant _, b, h => by cases b <;> simp_all [same]
  | .symbol _, b, h => by cases b <;> simp_all [same]
  | .undefined, b, h => by cases b <;> simp_all [same]
  | .nonreal, b, h => by cases b <;> simp_all [same]
  | .sum as, b, h => by
    cases b with
    | sum bs => rw [eq_of_sameList as bs (by simpa [same] using h)]
    | _ => simp [same] at h
  | .product as, b, h => by
    cases b with
    | product bs => rw [eq_of_sameList as bs (by simpa [same] using h)]
    | _ => simp [same] at h
  | .power a x, b, h => by
    cases b with
    | power b y =>
      simp only [same, Bool.and_eq_true] at h
      rw [eq_of_same a b h.1, eq_of_same x y h.2]
    | _ => simp [same] at h
  | .negation a, b, h => by
    cases b with
    | negation b => rw [eq_of_same a b (by simpa [same] using h)]
    | _ => simp [same] at h
  | .quotient a x, b, h => by
    cases b with
    | quotient b y =>
      simp only [same, Bool.and_eq_true] at h
      rw [eq_of_same a b h.1, eq_of_same x y h.2]
    | _ => simp [same] at h
  | .apply f a, b, h => by
    cases b with
    | apply g b =>
      simp only [same, Bool.and_eq_true, beq_iff_eq] at h
      rw [h.1, eq_of_same a b h.2]
    | _ => simp [same] at h
  | .matrix m n as, b, h => by
    cases b with
    | matrix p q bs =>
      simp only [same, Bool.and_eq_true, beq_iff_eq] at h
      rw [h.1.1, h.1.2, eq_of_sameList as bs h.2]
    | _ => simp [same] at h

theorem eq_of_sameList : ∀ as bs : List Term, sameList as bs = true → as = bs
  | [], bs, h => by cases bs <;> simp_all [sameList]
  | a :: as, bs, h => by
    cases bs with
    | nil => simp [sameList] at h
    | cons b bs =>
      simp only [sameList, Bool.and_eq_true] at h
      rw [eq_of_same a b h.1, eq_of_sameList as bs h.2]

end

mutual

theorem same_self : ∀ a : Term, same a a = true
  | .number _ | .decimal _ | .constant _ | .symbol _ | .undefined | .nonreal => by simp [same]
  | .sum as => by simp [same, sameList_self as]
  | .product as => by simp [same, sameList_self as]
  | .power a x => by simp [same, same_self a, same_self x]
  | .negation a => by simp [same, same_self a]
  | .quotient a x => by simp [same, same_self a, same_self x]
  | .apply _ a => by simp [same, same_self a]
  | .matrix _ _ as => by simp [same, sameList_self as]

theorem sameList_self : ∀ as : List Term, sameList as as = true
  | [] => by simp [sameList]
  | a :: as => by simp [sameList, same_self a, sameList_self as]

end

theorem same_iff {a b : Term} : same a b = true ↔ a = b :=
  ⟨eq_of_same a b, fun h => h ▸ same_self a⟩

instance : DecidableEq Term := fun _ _ => decidable_of_iff _ same_iff

mutual

/-- A hash that structural recursion computes. -/
def hashCode : Term → UInt64
  | .number a => mixHash 3 (mixHash (hash a.num) (hash a.den))
  | .decimal a => mixHash 5 a
  | .constant c => mixHash 7 (hash c)
  | .symbol name => mixHash 11 (hash name)
  | .undefined => 13
  | .nonreal => 17
  | .sum as => mixHash 19 (hashCodeList as)
  | .product as => mixHash 23 (hashCodeList as)
  | .power a b => mixHash 29 (mixHash a.hashCode b.hashCode)
  | .negation a => mixHash 31 a.hashCode
  | .quotient a b => mixHash 37 (mixHash a.hashCode b.hashCode)
  | .apply f a => mixHash 41 (mixHash (hash f) a.hashCode)
  | .matrix m n as => mixHash 43 (mixHash (mixHash (hash m) (hash n)) (hashCodeList as))

def hashCodeList : List Term → UInt64
  | [] => 47
  | a :: as => mixHash a.hashCode (hashCodeList as)

end

instance : Hashable Term := ⟨hashCode⟩

/-! ### Numbers among the terms -/

def zero : Term := .number 0

def one : Term := .number 1

/-- An atom has no subterms. -/
def isAtom : Term → Bool
  | .number _ | .decimal _ | .constant _ | .symbol _ | .undefined | .nonreal => true
  | _ => false

/-- A numeric term is an exact or an approximate number. -/
def isNumeric : Term → Bool
  | .number _ | .decimal _ => true
  | _ => false

/-- The exact zero, and no approximate one. -/
def isZero : Term → Bool
  | .number a => a = 0
  | _ => false

/-- The exact one, and no approximate one. -/
def isOne : Term → Bool
  | .number a => a = 1
  | _ => false

def isSum : Term → Bool
  | .sum _ => true
  | _ => false

def rational? : Term → Option Rat
  | .number a => some a
  | _ => none

/-- The approximate number nearest to nothing but itself: a double that is not finite
    is undefined, and both zeros are one. -/
def ofDouble (x : Float) : Term :=
  if Binary64.isFinite x.toBits then
    if x == 0 then .decimal 0 else .decimal x.toBits
  else .undefined

def children : Term → List Term
  | .number _ | .decimal _ | .constant _ | .symbol _ | .undefined | .nonreal => []
  | .sum terms => terms
  | .product factors => factors
  | .power base exponent => [base, exponent]
  | .negation a => [a]
  | .quotient a b => [a, b]
  | .apply _ a => [a]
  | .matrix _ _ entries => entries

/-! ### Sums and products of any length -/

/-- The sum of a list: zero for none, the term itself for one. -/
def sumOf : List Term → Term
  | [] => .zero
  | [a] => a
  | terms => .sum terms

/-- The product of a list: one for none, the factor itself for one. -/
def productOf : List Term → Term
  | [] => .one
  | [a] => a
  | factors => .product factors

def squareRoot (a : Term) : Term :=
  .power a (.number (1 / 2))

end Term

end EquationSolver
