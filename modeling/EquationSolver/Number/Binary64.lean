/-!
# Doubles and rationals

A finite double has the exact value `m * 2 ^ q` for a natural number `m` and an
integer `q`, read off its bits; a rational has a nearest double, a tie going to
the even neighbour.

The binary logarithm of a natural number is a double, too.  The digits of the fraction are
found by squaring: the square of a mantissa in `[1, 2)` reaches two exactly when the next
digit is one.  Mantissas are kept to 128 binary digits, so that sixty digits of the
fraction come out right.
-/

namespace EquationSolver

/-- The quotient `num / den` rounded to the nearest natural number, a tie going to
    the even one. -/
def roundHalfEven (num den : Nat) : Nat :=
  let quotient := num / den
  let remainder := num % den
  if 2 * remainder < den then quotient
  else if den < 2 * remainder then quotient + 1
  else quotient + quotient % 2

namespace Binary64

/-! ### Reading a double -/

@[noinline] def exponentWord : Nat := 0x10000000000000

@[noinline] def signWord : Nat := 0x8000000000000000

/-- The word of infinity, in which all exponent bits are set. -/
@[noinline] def infinityWord : Nat := 2047 * exponentWord

def signBit (bits : UInt64) : Bool :=
  bits.toNat / signWord = 1

def exponentField (bits : UInt64) : Nat :=
  bits.toNat / exponentWord % 0x800

def fractionField (bits : UInt64) : Nat :=
  bits.toNat % exponentWord

def isFinite (bits : UInt64) : Bool :=
  exponentField bits ≠ 2047

/-- The significand `m` of a finite word, whose magnitude is `m * 2 ^ q`. -/
def significand (bits : UInt64) : Nat :=
  if exponentField bits = 0 then fractionField bits else exponentWord + fractionField bits

/-- The exponent `q` of a finite word, whose magnitude is `m * 2 ^ q`. -/
def exponent (bits : UInt64) : Int :=
  if exponentField bits = 0 then -1074 else (exponentField bits : Int) - 1075

def magnitude (bits : UInt64) : Nat × Nat :=
  match exponent bits with
  | .ofNat q => (significand bits * Nat.pow 2 q, 1)
  | .negSucc q => (significand bits, Nat.pow 2 (q + 1))

def toRat (bits : UInt64) : Rat :=
  let (num, den) := magnitude bits
  let value := (num : Rat) / (den : Rat)
  if signBit bits then -value else value

/-- A finite double without a fraction. -/
def isWhole (x : Float) : Bool :=
  isFinite x.toBits && (toRat x.toBits).den = 1

/-! ### The nearest double -/

/-- The exponent `q` on whose grid `num / den` is rounded: the significand has
    fifty-three binary digits, and the grid is never finer than `2 ^ -1074`. -/
def gridExponent (num den : Nat) : Int :=
  let estimate : Int := (num.log2 : Int) - den.log2
  let below : Bool :=
    if 0 ≤ estimate then num < den * Nat.pow 2 estimate.toNat
    else num * Nat.pow 2 (-estimate).toNat < den
  let leading := if below then estimate - 1 else estimate
  max (leading - 52) (-1074)

/-- The bits of the double nearest to the positive fraction `num / den`.  The
    significand is added to the exponent field, so that one that rounds up to the
    next power of two carries into it; past the largest finite double there is
    only infinity. -/
def nearestMagnitude (num den : Nat) : Nat :=
  let q := gridExponent num den
  let significand :=
    if 0 ≤ q then roundHalfEven num (den * Nat.pow 2 q.toNat)
    else roundHalfEven (num * Nat.pow 2 (-q).toNat) den
  min ((q + 1074).toNat * exponentWord + significand) infinityWord

def nearest (a : Rat) : Float :=
  if a.num = 0 then 0
  else
    let bits := nearestMagnitude a.num.natAbs a.den
    Float.ofBits (UInt64.ofNat (if a.num < 0 then bits + signWord else bits))

/-! ### Binary logarithms -/

def mantissaDigits : Nat := 128

/-- The first `count` binary digits of the fraction of the binary logarithm of a mantissa
    in `[1, 2)`, as a natural number. -/
def logarithmDigits : Nat → Nat → Nat
  | 0, _ => 0
  | count + 1, mantissa =>
    let square := mantissa * mantissa / Nat.pow 2 mantissaDigits
    if Nat.pow 2 (mantissaDigits + 1) ≤ square then
      Nat.pow 2 count + logarithmDigits count (square / 2)
    else logarithmDigits count square

def logarithm (n : Nat) : Float :=
  let whole := n.log2
  let mantissa := n * Nat.pow 2 mantissaDigits / Nat.pow 2 whole
  nearest (mkRat (whole * Nat.pow 2 60 + logarithmDigits 60 mantissa : Nat) (Nat.pow 2 60))

/-- The natural number that the double nearest to `n` is; none beyond the finite doubles. -/
def roundToDouble? (n : Nat) : Option Nat :=
  let bits := (nearest (n : Rat)).toBits
  if isFinite bits then some (toRat bits).num.natAbs else none

end Binary64

end EquationSolver
