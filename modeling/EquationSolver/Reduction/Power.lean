import EquationSolver.Number.Rational
import EquationSolver.Reduction.Product

/-!
# Powers in standard form

A root of a positive rational is written as `c * m^(1/k)` with a rational coefficient and
an integer radicand: the denominator is rationalised, perfect powers go into the
coefficient, and the index is lowered as far as the radicand is a perfect power itself.

Powers of numbers are computed as far as the limits allow; integer powers reach into
products and powers, a positive rational factor of the base is drawn out of any rational
power, and small integer powers of sums are multiplied out.  Everything else stays a
power.  As for products, the functions take smaller powers and products as parameters.
-/

namespace EquationSolver

namespace Reduction

/-! ### Lowering the index of a root -/

/-- The largest divisor `g ≥ 2` of the index among `g, g - 1, …` of which the radicand is a
    perfect power, with the root. -/
def findRoot? (radicand index : Nat) : Nat → Option (Nat × Nat)
  | 0 => none
  | g + 1 =>
    if 2 ≤ g + 1 ∧ index % (g + 1) = 0 then
      match exactRoot? radicand (g + 1) with
      | some root => some (g + 1, root)
      | none => findRoot? radicand index g
    else findRoot? radicand index g

theorem two_le_of_findRoot? {radicand index g d root : Nat}
    (h : findRoot? radicand index g = some (d, root)) : 2 ≤ d := by
  induction g with
  | zero => simp [findRoot?] at h
  | succ g ih =>
    unfold findRoot? at h
    split at h
    · rename_i hg
      split at h
      · simp only [Option.some.injEq, Prod.mk.injEq] at h
        omega
      · exact ih h
    · exact ih h

/-- Lower the index of a root as far as the radicand allows: the radicand and the index
    that are left. -/
def lowerIndex (radicand index : Nat) : Nat × Nat :=
  if 0 < index then
    match _h : findRoot? radicand index index with
    | some (g, root) => lowerIndex root (index / g)
    | none => (radicand, index)
  else (radicand, index)
termination_by index
decreasing_by
  exact Nat.div_lt_self ‹0 < index› (by have := two_le_of_findRoot? _h; omega)

/-! ### Rational powers of positive rationals -/

/-- The power `base ^ (p / q)` of a positive rational.  The exponent is split into a whole
    part and a remainder `r / q`, and the root of `(n / d) ^ r` is drawn as the root of
    `n ^ r * d ^ (q - r)` over `d`.  When the size test fails the result is `unreduced`. -/
def radical (s : Settings) (base : Rat) (p : Int) (q : Nat) (unreduced : Build Term) :
    Build Term :=
  let whole := p / (q : Int)
  let remainder := (p % (q : Int)).toNat
  if !s.fits base (whole.natAbs + q) then unreduced
  else
    match Rational.integerPower? base whole with
    | none => Build.make .undefined
    | some wholePower =>
      let radicand := Nat.pow base.num.natAbs remainder * Nat.pow base.den (q - remainder)
      let (outside, inside) := splitPower radicand q
      let coefficient := wholePower * (outside : Rat) / (base.den : Rat)
      if inside = 1 then Build.number coefficient
      else do
        let (inside, index) := lowerIndex inside q
        let radicandTerm ← Build.number (inside : Rat)
        let exponent ← Build.number (1 / (index : Rat))
        let root ← Build.make (.power radicandTerm exponent)
        if coefficient = 1 then pure root
        else
          let first ← Build.number coefficient
          Build.product [first, root]

/-! ### Powers of numbers -/

def numericDouble : Term → Float
  | .number a => Binary64.nearest a
  | .decimal bits => Float.ofBits bits
  | _ => 0 / 0

def decimalPower (s : Settings) (base exponent : Float) (unreduced : Build Term) : Build Term :=
  if base == 0 then
    if 0 < exponent then Build.make (Term.ofDouble 0) else Build.make .undefined
  else if base < 0 && !Binary64.isWhole exponent then
    if s.complexFormat = .real then Build.make .nonreal else unreduced
  else Build.make (Term.ofDouble (base.pow exponent))

/-- A power of a negative rational with exponent `p / q` that is no integer.  In the real
    format roots with odd index are real and the others are not; in the complex formats a
    square root is a root of the magnitude times a power of `i`. -/
def negativePower (s : Settings) (pow : Term → Term → Build Term)
    (mul : List Term → Build Term) (base : Rat) (p : Int) (q : Nat) (unreduced : Build Term) :
    Build Term :=
  if q % 2 = 1 then
    if s.complexFormat = .real then do
      let root ← radical s base.abs p q unreduced
      if p % 2 = 0 then pure root
      else
        let minusOne ← Build.number (-1)
        mul [minusOne, root]
    else unreduced
  else if s.complexFormat = .real then Build.make .nonreal
  else if q = 2 then do
    let i ← Build.make (.constant .i)
    let exponent ← Build.number (p : Rat)
    let turned ← pow i exponent
    let root ← radical s base.abs p q unreduced
    mul [turned, root]
  else unreduced

def rationalPower (s : Settings) (pow : Term → Term → Build Term)
    (mul : List Term → Build Term) (base exponent : Rat) (unreduced : Build Term) :
    Build Term :=
  if base = 0 then
    if 0 < exponent then Build.make .zero else Build.make .undefined
  else
    match Rational.toInt64Range? exponent with
    | some n =>
      if !s.fits base n.natAbs then unreduced
      else
        match Rational.integerPower? base n with
        | some value => Build.number value
        | none => unreduced
    | none =>
      match Integer.toInt64Range? exponent.num with
      | none => unreduced
      | some p =>
        if s.limits.maxRootIndex < exponent.den ∨ Integer.halfWordCount ≤ exponent.den then
          unreduced
        else if base < 0 then negativePower s pow mul base p exponent.den unreduced
        else radical s base p exponent.den unreduced

/-! ### Powers of other terms -/

def imaginaryPower (mul : List Term → Build Term) (n : Int) : Build Term :=
  if n % 4 = 0 then Build.make .one
  else if n % 4 = 1 then pure (.constant .i)
  else if n % 4 = 2 then Build.number (-1)
  else do
    let minusOne ← Build.number (-1)
    mul [minusOne, .constant .i]

/-- Multiply a sum to what has been multiplied out so far, a number of times. -/
def multiplyRepeatedly (mul : List Term → Build Term) (base : Term) : Nat → Term → Build Term
  | 0, found => pure found
  | count + 1, found => do
    let terms ← pairwise mul (summands found) (summands base)
    let longer ← add terms
    multiplyRepeatedly mul base count longer

/-- The largest exponent with which a sum of two terms has a 64-bit number of products. -/
def maxPowerOfTwo : Int := 63

/-- The power with exponent `n ≥ 2` of a sum is multiplied out, if the terms are few. -/
def isExpandable {α : Type} (s : Settings) (terms : List α) (n : Int) : Bool :=
  s.expands && 2 ≤ n && n ≤ s.limits.maxExpansionPower && n ≤ maxPowerOfTwo &&
    Nat.pow terms.length n.toNat ≤ s.limits.maxExpandedTerms

/-- The power of a reduced base that is no number with an exact exponent other than zero
    and one. -/
def exactPower (s : Settings) (pow : Term → Term → Build Term) (mul : List Term → Build Term)
    (base : Term) (exponent : Rat) : Build Term :=
  let unreduced := Build.make (.power base (.number exponent))
  match base, Rational.toInt? exponent with
  | .constant .i, some n => imaginaryPower mul n
  | .power inner innerExponent, some _ => do
    let product ← mul [innerExponent, .number exponent]
    pow inner product
  | .product factors, some _ => do
    let powers ← Build.each (fun f => pow f (.number exponent)) factors
    mul powers
  | .product (.number c :: rest), none =>
    if 0 ≤ c then do
      let restTerm ← Build.product rest
      let outer ← pow (.number c) (.number exponent)
      let inner ← pow restTerm (.number exponent)
      mul [outer, inner]
    else unreduced
  | .sum terms, some n =>
    if isExpandable s terms n then multiplyRepeatedly mul base (n.toNat - 1) base else unreduced
  | _, _ => unreduced

/-- The power of a reduced base and exponent in standard form, given smaller powers and
    products. -/
def powWith (s : Settings) (pow : Term → Term → Build Term) (mul : List Term → Build Term)
    (base exponent : Term) : Build Term :=
  let unreduced := Build.make (.power base exponent)
  match poison? [base, exponent] with
  | some poison => Build.make poison
  | none =>
    if hasMatrix [base, exponent] then unreduced
    else if exponent.isZero then
      if base.isZero then Build.make .undefined else Build.make .one
    else if exponent.isOne || base.isOne then pure base
    else
      match base, exponent with
      | .number b, .number e => rationalPower s pow mul b e unreduced
      | base, .number e =>
        if base.isNumeric then
          decimalPower s (numericDouble base) (Binary64.nearest e) unreduced
        else exactPower s pow mul base e
      | base, exponent =>
        if base.isNumeric && exponent.isNumeric then
          decimalPower s (numericDouble base) (numericDouble exponent) unreduced
        else unreduced

/-- The power of a reduced base and exponent without any computation. -/
def plainPow (base exponent : Term) : Build Term :=
  match poison? [base, exponent] with
  | some poison => Build.make poison
  | none =>
    if hasMatrix [base, exponent] then Build.make (.power base exponent)
    else if exponent.isZero then
      if base.isZero then Build.make .undefined else Build.make .one
    else if exponent.isOne || base.isOne then pure base
    else Build.make (.power base exponent)

/-! ### Products and powers together -/

/-- The number of times that products and powers may call each other in a chain.  A chain
    is about as long as powers are nested in each other, which is far less; the bound makes
    the two functions structurally recursive. -/
def maxDepth : Nat := 1000000

mutual

def mulWithin (s : Settings) : Nat → List Term → Build Term
  | 0, factors => plainMul factors
  | depth + 1, factors => mulWith s (powWithin s depth) (mulWithin s depth) factors

def powWithin (s : Settings) : Nat → Term → Term → Build Term
  | 0, base, exponent => plainPow base exponent
  | depth + 1, base, exponent => powWith s (powWithin s depth) (mulWithin s depth) base exponent

end

/-- The product of reduced factors in standard form. -/
def mul (s : Settings) (factors : List Term) : Build Term :=
  mulWithin s maxDepth factors

/-- The power of a reduced base and exponent in standard form. -/
def pow (s : Settings) (base exponent : Term) : Build Term :=
  powWithin s maxDepth base exponent

end Reduction

end EquationSolver
