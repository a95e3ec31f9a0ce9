import EquationSolver.Pool.Program
import EquationSolver.Reduction.Power

/-!
# Sums, products and powers of handles

Sums, products and powers in standard form can be built in a pool without looking at more than
the nodes at the operands.  A like term is found by the handle of its body, the powers of one base
by the handle of the base, and the order of terms and factors is that of their handles.
-/

namespace EquationSolver

namespace Node

/-! ### Tests of a node -/

def coefficient? : Node → Option Coefficient
  | .number a => some (.exact a)
  | .decimal bits => some (.approximate (Float.ofBits bits))
  | _ => none

def isZero : Node → Bool
  | .number a => a = 0
  | _ => false

def isOne : Node → Bool
  | .number a => a = 1
  | _ => false

def isSum : Node → Bool
  | .sum _ => true
  | _ => false

def isUndefined : Node → Bool
  | .undefined => true
  | _ => false

def isNonreal : Node → Bool
  | .nonreal => true
  | _ => false

def isMatrix : Node → Bool
  | .matrix _ _ _ => true
  | _ => false

def numericDouble : Node → Float
  | .number a => Binary64.nearest a
  | .decimal bits => Float.ofBits bits
  | _ => 0 / 0

end Node

/-- The call that builds a coefficient. -/
def Coefficient.construction : Coefficient → Construction
  | exact a => .number a
  | approximate x => .decimal x

namespace Interned

open PoolProgram
open Reduction (Settings PowerGroup collect isExpandable lowerIndex maxMergePasses maxDepth)

/-! ### Operands that decide the result -/

/-- The call that builds the undefined or, failing that, the nonreal operand. -/
def poison? (operands : List Handle) : PoolProgram (Option Construction) := do
  let nodes ← nodes operands
  if nodes.any Node.isUndefined then return some .undefined
  else if nodes.any Node.isNonreal then return some .nonreal
  else return none

def hasMatrix (operands : List Handle) : PoolProgram Bool := do
  return (← nodes operands).any Node.isMatrix

/-! ### Sums -/

def summands (handle : Handle) : PoolProgram (List Handle) := do
  match ← node handle with
  | .sum terms => return terms
  | _ => return [handle]

/-- Split the term at a handle into its coefficient and the handle of its body. -/
def splitTerm (handle : Handle) : PoolProgram (Coefficient × Option Handle) := do
  match ← node handle with
  | .product (first :: rest) =>
    match (← node first).coefficient? with
    | some c => return (c, some (← construct (.product rest)))
    | none => return (.one, some handle)
  | n =>
    match n.coefficient? with
    | some c => return (c, none)
    | none => return (.one, some handle)

/-- Join a coefficient and a body again. -/
def joinTerm (coefficient : Coefficient) (body : Option Handle) : PoolProgram Handle := do
  match body with
  | none => construct coefficient.construction
  | some body =>
    if coefficient.isOne then return body
    else
      let first ← construct coefficient.construction
      match ← node body with
      | .product factors => construct (.product (first :: factors))
      | _ => construct (.product [first, body])

def add (terms : List Handle) : PoolProgram Handle := do
  let flat := (← terms.mapM summands).flatten
  match ← poison? flat with
  | some poison => construct poison
  | none =>
    if ← hasMatrix flat then construct (.sum flat)
    else
      let parts ← flat.mapM splitTerm
      let collected := parts.foldl (fun done part => collect part.1 part.2 done) []
      let kept := collected.filter fun part => !part.2.isZero
      let joined ← kept.mapM fun part => joinTerm part.2 part.1
      construct (.sum (← sort Pool.compareTermHandles joined))

/-! ### Factors of a product -/

/-- Multiply the number at a handle to a coefficient, or put the handle behind other factors, and
    do so for each factor of a product, down to a depth. -/
def absorbWithin :
    Nat → Coefficient × List Handle → Handle → PoolProgram (Coefficient × List Handle)
  | 0, _, _ => throw .dangling
  | depth + 1, done, factor => do
    match ← node factor with
    | .product factors => factors.foldlM (absorbWithin depth) done
    | n =>
      match n.coefficient? with
      | some c => return (done.1.mul c, done.2)
      | none => return (done.1, done.2 ++ [factor])

/-- Move the numbers among factors into the coefficient and flatten the rest.  Children come before
    their nodes, so that the index bounds the depth. -/
def absorb (coefficient : Coefficient) (factors : List Handle) :
    PoolProgram (Coefficient × List Handle) :=
  factors.foldlM (fun done factor => absorbWithin (factor.index + 1) done factor) (coefficient, [])

def sortedProduct (coefficient : Coefficient) (factors : List Handle) : PoolProgram Handle := do
  let sorted ← sort Pool.compareHandles factors
  if sorted.isEmpty then construct coefficient.construction
  else if coefficient.isOne then construct (.product sorted)
  else
    let first ← construct coefficient.construction
    construct (.product (first :: sorted))

/-! ### Powers of one base -/

def addToGroups (factor base exponent : Handle) :
    List (PowerGroup Handle) → List (PowerGroup Handle)
  | [] => [⟨base, [exponent], factor⟩]
  | group :: rest =>
    if group.base = base then
      { group with exponents := group.exponents ++ [exponent] } :: rest
    else group :: addToGroups factor base exponent rest

/-- Add a factor to the group of its base.  A factor that is no power has the exponent one. -/
def groupFactor (one : Handle) (groups : List (PowerGroup Handle)) (factor : Handle) :
    PoolProgram (List (PowerGroup Handle)) := do
  let (base, exponent) := (← node factor).asPower factor
  return addToGroups factor base (exponent.getD one) groups

def mergeGroup (pow : Handle → Handle → PoolProgram Handle) (group : PowerGroup Handle) :
    PoolProgram Handle :=
  match group.exponents with
  | [_] => pure group.first
  | exponents => do
    let exponent ← add exponents
    pow group.base exponent

def mergePowers (pow : Handle → Handle → PoolProgram Handle) (factors : List Handle) :
    PoolProgram (List Handle × Bool) := do
  let one ← construct (.number 1)
  let groups ← factors.foldlM (groupFactor one) []
  let merged ← groups.mapM (mergeGroup pow)
  return (merged, groups.any fun group => group.exponents.length ≠ 1)

def mergeRepeatedly (pow : Handle → Handle → PoolProgram Handle) :
    Nat → Coefficient → List Handle → PoolProgram (Coefficient × List Handle)
  | 0, coefficient, factors => pure (coefficient, factors)
  | passes + 1, coefficient, factors =>
    if coefficient.isZero then pure (coefficient, factors)
    else do
      let (merged, changed) ← mergePowers pow factors
      let (coefficient, factors) ← absorb coefficient merged
      if changed then mergeRepeatedly pow passes coefficient factors
      else pure (coefficient, factors)

/-! ### Multiplying out -/

def pairwise (mul : List Handle → PoolProgram Handle) (left right : List Handle) :
    PoolProgram (List Handle) :=
  (left.flatMap fun a => right.map fun b => (a, b)).mapM fun pair => mul [pair.1, pair.2]

def multiplySums (mul : List Handle → PoolProgram Handle) :
    List Handle → List Handle → PoolProgram (List Handle)
  | found, [] => pure found
  | found, sum :: sums => do
    let longer ← pairwise mul found (← summands sum)
    multiplySums mul longer sums

def distribute (s : Settings) (mul : List Handle → PoolProgram Handle) (coefficient : Coefficient)
    (factors : List Handle) : PoolProgram Handle := do
  let (sums, others) ← partition Node.isSum factors
  let terms ← sums.mapM summands
  let count := (terms.map List.length).foldl (· * ·) 1
  if s.limits.maxExpandedTerms < count then sortedProduct coefficient factors
  else
    let first ← sortedProduct coefficient others
    let terms ← multiplySums mul [first] sums
    add terms

/-! ### Products -/

def matrixProduct (coefficient : Coefficient) (factors : List Handle) : PoolProgram Handle := do
  if coefficient.isOne then construct (.product factors)
  else
    let first ← construct coefficient.construction
    construct (.product (first :: factors))

def mulWith (s : Settings) (pow : Handle → Handle → PoolProgram Handle)
    (mul : List Handle → PoolProgram Handle) (factors : List Handle) : PoolProgram Handle := do
  let (coefficient, others) ← absorb .one factors
  match ← poison? others with
  | some poison => construct poison
  | none =>
    if ← hasMatrix others then matrixProduct coefficient others
    else
      let (coefficient, others) ← mergeRepeatedly pow maxMergePasses coefficient others
      match ← poison? others with
      | some poison => construct poison
      | none =>
        if coefficient.isZero then construct coefficient.construction
        else if s.expands && (← nodes others).any Node.isSum then
          distribute s mul coefficient others
        else sortedProduct coefficient others

def plainMul (factors : List Handle) : PoolProgram Handle := do
  let (coefficient, others) ← absorb .one factors
  match ← poison? others with
  | some poison => construct poison
  | none =>
    if ← hasMatrix others then matrixProduct coefficient others
    else if coefficient.isZero then construct coefficient.construction
    else sortedProduct coefficient others

/-! ### Powers of numbers -/

def radical (s : Settings) (base : Rat) (p : Int) (q : Nat) (unreduced : PoolProgram Handle) :
    PoolProgram Handle :=
  let whole := p / (q : Int)
  let remainder := (p % (q : Int)).toNat
  if !s.fits base (whole.natAbs + q) then unreduced
  else
    match Rational.integerPower? base whole with
    | none => construct .undefined
    | some wholePower =>
      let radicand := Nat.pow base.num.natAbs remainder * Nat.pow base.den (q - remainder)
      let (outside, inside) := splitPower radicand q
      let coefficient := wholePower * (outside : Rat) / (base.den : Rat)
      if inside = 1 then construct (.number coefficient)
      else do
        let (inside, index) := lowerIndex inside q
        let radicand ← construct (.number (inside : Rat))
        let exponent ← construct (.number (1 / (index : Rat)))
        let root ← construct (.power radicand exponent)
        if coefficient = 1 then return root
        else
          let first ← construct (.number coefficient)
          construct (.product [first, root])

def decimalPower (s : Settings) (base exponent : Float) (unreduced : PoolProgram Handle) :
    PoolProgram Handle :=
  if base == 0 then
    if 0 < exponent then construct (.decimal 0) else construct .undefined
  else if base < 0 && !Binary64.isWhole exponent then
    if s.complexFormat = .real then construct .nonreal else unreduced
  else construct (.decimal (base.pow exponent))

def negativePower (s : Settings) (pow : Handle → Handle → PoolProgram Handle)
    (mul : List Handle → PoolProgram Handle) (base : Rat) (p : Int) (q : Nat)
    (unreduced : PoolProgram Handle) : PoolProgram Handle :=
  if q % 2 = 1 then
    if s.complexFormat = .real then do
      let root ← radical s base.abs p q unreduced
      if p % 2 = 0 then return root
      else
        let minusOne ← construct (.number (-1))
        mul [minusOne, root]
    else unreduced
  else if s.complexFormat = .real then construct .nonreal
  else if q = 2 then do
    let i ← construct (.constant .i)
    let exponent ← construct (.number (p : Rat))
    let turned ← pow i exponent
    let root ← radical s base.abs p q unreduced
    mul [turned, root]
  else unreduced

def rationalPower (s : Settings) (pow : Handle → Handle → PoolProgram Handle)
    (mul : List Handle → PoolProgram Handle) (base exponent : Rat)
    (unreduced : PoolProgram Handle) : PoolProgram Handle :=
  if base = 0 then
    if 0 < exponent then construct (.number 0) else construct .undefined
  else
    match Rational.toInt64Range? exponent with
    | some n =>
      if !s.fits base n.natAbs then unreduced
      else
        match Rational.integerPower? base n with
        | some value => construct (.number value)
        | none => unreduced
    | none =>
      match Integer.toInt64Range? exponent.num with
      | none => unreduced
      | some p =>
        if s.limits.maxRootIndex < exponent.den ∨ Integer.halfWordCount ≤ exponent.den then
          unreduced
        else if base < 0 then negativePower s pow mul base p exponent.den unreduced
        else radical s base p exponent.den unreduced

/-! ### Powers of other terms -/

/-- A power of the imaginary unit, which is at a handle. -/
def imaginaryPower (mul : List Handle → PoolProgram Handle) (i : Handle) (n : Int) :
    PoolProgram Handle :=
  if n % 4 = 0 then construct (.number 1)
  else if n % 4 = 1 then pure i
  else if n % 4 = 2 then construct (.number (-1))
  else do
    let minusOne ← construct (.number (-1))
    mul [minusOne, i]

def multiplyRepeatedly (mul : List Handle → PoolProgram Handle) (base : Handle) :
    Nat → Handle → PoolProgram Handle
  | 0, found => pure found
  | count + 1, found => do
    let terms ← pairwise mul (← summands found) (← summands base)
    let longer ← add terms
    multiplyRepeatedly mul base count longer

/-- The power of a base that is no number with an exact exponent, both given with their handles. -/
def exactPower (s : Settings) (pow : Handle → Handle → PoolProgram Handle)
    (mul : List Handle → PoolProgram Handle) (base : Handle) (n : Node) (exponent : Handle)
    (e : Rat) : PoolProgram Handle :=
  let unreduced := construct (.power base exponent)
  match n, Rational.toInt? e with
  | .constant .i, some k => imaginaryPower mul base k
  | .power inner innerExponent, some _ => do
    let product ← mul [innerExponent, exponent]
    pow inner product
  | .product factors, some _ => do
    let powers ← factors.mapM fun f => pow f exponent
    mul powers
  | .product (first :: rest), none => do
    match ← node first with
    | .number c =>
      if 0 ≤ c then
        let rest ← construct (.product rest)
        let outer ← pow first exponent
        let inner ← pow rest exponent
        mul [outer, inner]
      else unreduced
    | _ => unreduced
  | .sum terms, some k =>
    if isExpandable s terms k then multiplyRepeatedly mul base (k.toNat - 1) base else unreduced
  | _, _ => unreduced

def powWith (s : Settings) (pow : Handle → Handle → PoolProgram Handle)
    (mul : List Handle → PoolProgram Handle) (base exponent : Handle) : PoolProgram Handle := do
  let unreduced := construct (.power base exponent)
  match ← poison? [base, exponent] with
  | some poison => construct poison
  | none =>
    if ← hasMatrix [base, exponent] then unreduced
    else
      let m ← node base
      let n ← node exponent
      if n.isZero then
        if m.isZero then construct .undefined else construct (.number 1)
      else if n.isOne || m.isOne then return base
      else
        match m, n with
        | .number b, .number e => rationalPower s pow mul b e unreduced
        | m, .number e =>
          if m.isNumeric then decimalPower s m.numericDouble (Binary64.nearest e) unreduced
          else exactPower s pow mul base m exponent e
        | m, n =>
          if m.isNumeric && n.isNumeric then
            decimalPower s m.numericDouble n.numericDouble unreduced
          else unreduced

def plainPow (base exponent : Handle) : PoolProgram Handle := do
  match ← poison? [base, exponent] with
  | some poison => construct poison
  | none =>
    if ← hasMatrix [base, exponent] then construct (.power base exponent)
    else
      let m ← node base
      let n ← node exponent
      if n.isZero then
        if m.isZero then construct .undefined else construct (.number 1)
      else if n.isOne || m.isOne then return base
      else construct (.power base exponent)

/-! ### Products and powers together -/

mutual

def mulWithin (s : Settings) : Nat → List Handle → PoolProgram Handle
  | 0, factors => plainMul factors
  | depth + 1, factors => mulWith s (powWithin s depth) (mulWithin s depth) factors

def powWithin (s : Settings) : Nat → Handle → Handle → PoolProgram Handle
  | 0, base, exponent => plainPow base exponent
  | depth + 1, base, exponent => powWith s (powWithin s depth) (mulWithin s depth) base exponent

end

def mul (s : Settings) (factors : List Handle) : PoolProgram Handle :=
  mulWithin s maxDepth factors

def pow (s : Settings) (base exponent : Handle) : PoolProgram Handle :=
  powWithin s maxDepth base exponent

end Interned

end EquationSolver
