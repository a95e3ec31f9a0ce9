import EquationSolver.Context
import EquationSolver.Interned.Arithmetic

/-!
# Reduction of handles

The term at a handle is reduced in its pool.  What has been reduced is remembered by handle, so
that a node that several others share is reduced once.
-/

namespace EquationSolver

namespace Interned

open PoolProgram
open Reduction (Settings arcsine? arctangent? decimalLogarithm?)

/-! ### Angles -/

def halfTurns? (unit : AngleUnit) (angle : Node) : PoolProgram (Option Rat) := do
  match unit with
  | .radian =>
    match angle with
    | .number a => return if a = 0 then some 0 else none
    | .constant .pi => return some 1
    | .product [coefficient, constant] =>
      match ← node coefficient, ← node constant with
      | .number a, .constant .pi => return some a
      | _, _ => return none
    | _ => return none
  | .degree =>
    match angle with
    | .number a => return some (a / 180)
    | _ => return none
  | .gradian =>
    match angle with
    | .number a => return some (a / 200)
    | _ => return none

def circleStep? (unit : AngleUnit) (angle : Node) : PoolProgram (Option Int) := do
  return (← halfTurns? unit angle).bind fun turns =>
    (Rational.toInt? (turns * 12)).map (· % 24)

def firstQuarterSine? (s : Settings) (step : Int) : Option (PoolProgram Handle) :=
  let halfRoot (radicand : Rat) : PoolProgram Handle := do
    let radicand ← construct (.number radicand)
    let exponent ← construct (.number (1 / 2))
    let root ← pow s radicand exponent
    let half ← construct (.number (1 / 2))
    mul s [half, root]
  if step = 0 then some (construct (.number 0))
  else if step = 2 then some (construct (.number (1 / 2)))
  else if step = 3 then some (halfRoot 2)
  else if step = 4 then some (halfRoot 3)
  else if step = 6 then some (construct (.number 1))
  else none

def exactSine? (s : Settings) (step : Int) : Option (PoolProgram Handle) :=
  let isNegative := 12 ≤ step
  let upper := if isNegative then step - 12 else step
  let folded := if 6 < upper then 12 - upper else upper
  (firstQuarterSine? s folded).map fun sine => do
    let value ← sine
    if isNegative then
      let minusOne ← construct (.number (-1))
      mul s [minusOne, value]
    else return value

def exactCosine? (s : Settings) (step : Int) : Option (PoolProgram Handle) :=
  exactSine? s ((step + 6) % 24)

def exactTangent? (s : Settings) (step : Int) : Option (PoolProgram Handle) :=
  match exactSine? s step, exactCosine? s step with
  | some sine, some cosine => some do
    let sine ← sine
    let cosine ← cosine
    if (← node cosine).isZero then construct .undefined
    else
      let minusOne ← construct (.number (-1))
      let inverse ← pow s cosine minusOne
      mul s [sine, inverse]
  | _, _ => none

def angle (s : Settings) (halfTurns : Rat) : PoolProgram Handle :=
  match s.angleUnit with
  | .radian => do
    let coefficient ← construct (.number halfTurns)
    let pi ← construct (.constant .pi)
    mul s [coefficient, pi]
  | .degree => construct (.number (halfTurns * 180))
  | .gradian => construct (.number (halfTurns * 200))

def exactInverse? (s : Settings) (f : Function) (argument : Node) :
    Option (PoolProgram Handle) :=
  match argument with
  | .number x =>
    if f ≠ .atan ∧ 1 < x.abs then
      if s.complexFormat = .real then some (construct .nonreal) else none
    else
      let halfTurns? :=
        match f with
        | .asin => arcsine? x
        | .acos => (arcsine? x).map (1 / 2 - ·)
        | _ => arctangent? x
      halfTurns?.map (angle s)
  | _ => none

/-! ### Logarithms, absolute values and roots -/

def exactLogarithm? (s : Settings) (isDecimal : Bool) (argument : Node) :
    Option (PoolProgram Handle) :=
  match argument with
  | .constant .e => if isDecimal then none else some (construct (.number 1))
  | .number x =>
    if x = 0 then some (construct .undefined)
    else if x < 0 then
      if s.complexFormat = .real then some (construct .nonreal) else none
    else if x = 1 then some (construct (.number 0))
    else if isDecimal then (decimalLogarithm? x).map fun k => construct (.number (k : Rat))
    else none
  | _ => none

/-- Of a constant other than the imaginary unit the absolute value is the constant. -/
def exactAbsoluteValue? (argument : Node) (handle : Handle) : Option (PoolProgram Handle) :=
  match argument with
  | .number x => some (construct (.number x.abs))
  | .constant .i => some (construct (.number 1))
  | .constant _ => some (pure handle)
  | _ => none

def exactCubeRoot? (s : Settings) (argument : Node) : Option (PoolProgram Handle) :=
  match argument with
  | .number x => some do
    let magnitude ← construct (.number x.abs)
    let third ← construct (.number (1 / 3))
    let root ← pow s magnitude third
    if x < 0 then
      let minusOne ← construct (.number (-1))
      mul s [minusOne, root]
    else return root
  | _ => none

/-! ### Functions -/

def exactValue? (s : Settings) (f : Function) (argument : Node) (handle : Handle) :
    PoolProgram (Option (PoolProgram Handle)) := do
  match f with
  | .sin => return (← circleStep? s.angleUnit argument).bind (exactSine? s)
  | .cos => return (← circleStep? s.angleUnit argument).bind (exactCosine? s)
  | .tan => return (← circleStep? s.angleUnit argument).bind (exactTangent? s)
  | .asin | .acos | .atan => return exactInverse? s f argument
  | .ln => return exactLogarithm? s false argument
  | .log => return exactLogarithm? s true argument
  | .abs => return exactAbsoluteValue? argument handle
  | .cbrt => return exactCubeRoot? s argument

/-- The value of a function at an approximate number, which is at a handle. -/
def decimalValue (s : Settings) (f : Function) (bits : UInt64) (handle : Handle) :
    PoolProgram Handle :=
  let z := f.value (.ofReal (Float.ofBits bits)) s.angleUnit
  if !z.isFinite then construct .undefined
  else if isNegligible z.im z.re then construct (.decimal z.re)
  else if s.complexFormat = .real then construct .nonreal
  else construct (.apply f handle)

def apply (s : Settings) (f : Function) (argument : Handle) : PoolProgram Handle := do
  match ← poison? [argument] with
  | some poison => construct poison
  | none =>
    match ← node argument with
    | .matrix _ _ _ => construct (.apply f argument)
    | .decimal bits => decimalValue s f bits argument
    | n =>
      match ← exactValue? s f n argument with
      | some value => value
      | none => construct (.apply f argument)

/-! ### Reduction -/

/-- The results for the handles that have been reduced. -/
abbrev Memory := Std.HashMap Handle Handle

/-- A step of a reduction: it reads and extends the memory. -/
abbrev Step (α : Type) := StateT Memory PoolProgram α

/-- Take the result for a handle from the memory, or reduce it and remember the result. -/
def remember (handle : Handle) (reduce : Step Handle) : Step Handle :=
  fun memory =>
    match memory[handle]? with
    | some result => pure (result, memory)
    | none => do
      let (result, memory) ← reduce memory
      pure (result, memory.insert handle result)

/-- Reduce the term at a handle, down to a depth, given what a symbol is reduced to. -/
def reduceWithin (s : Settings) (symbol : Nat → Handle → Step Handle) : Nat → Handle → Step Handle
  | 0, _ => throw .dangling
  | depth + 1, handle => remember handle do
    match ← (node handle : PoolProgram Node) with
    | .number _ | .decimal _ | .constant _ | .undefined | .nonreal => return handle
    | .symbol place => symbol place handle
    | .sum terms =>
      let terms ← terms.mapM (reduceWithin s symbol depth)
      add terms
    | .product factors =>
      let factors ← factors.mapM (reduceWithin s symbol depth)
      mul s factors
    | .power base exponent =>
      let base ← reduceWithin s symbol depth base
      let exponent ← reduceWithin s symbol depth exponent
      pow s base exponent
    | .negation a =>
      let a ← reduceWithin s symbol depth a
      let minusOne ← (construct (.number (-1)) : PoolProgram Handle)
      mul s [minusOne, a]
    | .quotient a b =>
      let a ← reduceWithin s symbol depth a
      let b ← reduceWithin s symbol depth b
      let minusOne ← (construct (.number (-1)) : PoolProgram Handle)
      let inverse ← (pow s b minusOne : PoolProgram Handle)
      mul s [a, inverse]
    | .apply f a =>
      let a ← reduceWithin s symbol depth a
      apply s f a
    | .matrix rows columns entries =>
      let entries ← entries.mapM (reduceWithin s symbol depth)
      construct (.matrix rows columns entries)

/-- Children come before their nodes, so that the index bounds the depth. -/
def reduceAt (s : Settings) (symbol : Nat → Handle → Step Handle) (handle : Handle) :
    Step Handle :=
  reduceWithin s symbol (handle.index + 1) handle

/-- Reduce the symbol with a number, which is at a handle.  The numbers in `expanding` are those of
    the symbols whose definitions are being reduced, and `levels` bounds the number of further
    ones. -/
def reduceSymbol (s : Settings) (definitions : List (String × Handle)) :
    Nat → List Nat → Nat → Handle → Step Handle
  | levels, expanding, place, handle => do
    let name ← (name? place : PoolProgram (Option String))
    match s.symbols, name.bind fun name => definitions.lookup name with
    | .replaceDefined, some definition =>
      if place ∈ expanding then construct .undefined
      else
        match levels with
        | 0 => construct .undefined
        | levels + 1 =>
          reduceAt s (reduceSymbol s definitions levels (place :: expanding)) definition
    | _, _ => return handle

def reduce (s : Settings) (definitions : List (String × Handle)) (handle : Handle) :
    PoolProgram Handle := do
  let (result, _) ← reduceAt s (reduceSymbol s definitions definitions.length []) handle {}
  return result

end Interned

/-- Reduce the term at a handle in the pool of a context. -/
def Context.simplify (context : Context) (s : Reduction.Settings) (handle : Handle) :
    Except Fault (Handle × Context) := do
  let (result, pool) ← Interned.reduce s context.definitions handle context.pool
  return (result, { context with pool })

end EquationSolver
