import EquationSolver.Search.Arithmetic

/-!
# Refinement of roots and minima

Two one-dimensional methods that narrow an interval: Brent's method for a root between two
points at which a function has opposite signs, and the golden section for a minimum of its
magnitude.  Each reports the places at which it evaluated the function.
-/

namespace EquationSolver

open SearchNumber

structure Point (α : Type) where
  x : α
  y : α

def Point.of {α : Type} (f : α → α) (x : α) : Point α := ⟨x, f x⟩

structure Refined (α : Type) where
  place : α
  /-- The places at which the function was evaluated, in order. -/
  visited : List α
  /-- The interval became narrow enough before the number of steps ran out. -/
  converged : Bool

variable {α : Type} [SearchNumber α]

/-! ### Brent's method -/

/-- The state of Brent's method: the best point so far, the one before it, a point at which
    the function has the opposite sign, and the lengths of the last two steps. -/
structure Bracket (α : Type) where
  best : Point α
  previous : Point α
  opposite : Point α
  step : α
  stepBefore : α

namespace Bracket

def between (first second : Point α) : Bracket α :=
  let width := second.x - first.x
  { best := second, previous := first, opposite := second, step := width, stepBefore := width }

/-- When the best point and the one opposite have the same sign, the one before the best
    takes the place of the one opposite. -/
def rebracket (s : Bracket α) : Bracket α :=
  if isPositive s.best.y && isPositive s.opposite.y
      || isNegative s.best.y && isNegative s.opposite.y then
    let width := s.best.x - s.previous.x
    { s with opposite := s.previous, step := width, stepBefore := width }
  else s

/-- The point with the smaller value becomes the best. -/
def order (s : Bracket α) : Bracket α :=
  if less (abs s.opposite.y) (abs s.best.y) then
    { s with previous := s.best, best := s.opposite, opposite := s.best }
  else s

/-- Half the width that a bracket around a place may have in the end: some units in the
    last place of it, and half of the tolerance. -/
def halfWidth (tolerance place : α) : α :=
  ofRat 2 * epsilon * abs place + ofRat (1 / 2) * tolerance

def middle (s : Bracket α) : α :=
  ofRat (1 / 2) * (s.opposite.x - s.best.x)

/-- The bracket is narrow enough, or the best point is a root. -/
def isClosed (s : Bracket α) (tolerance : α) : Bool :=
  atMost (abs s.middle) (halfWidth tolerance s.best.x) || isZero s.best.y

/-- The interpolated step as a fraction: by the secant when only two points are distinct,
    else by inverse quadratic interpolation. -/
def interpolated (s : Bracket α) : α × α :=
  let m := s.middle
  let ratio := s.best.y / s.previous.y
  if same s.previous.x s.opposite.x then (ofRat 2 * m * ratio, ofRat 1 - ratio)
  else
    let q := s.previous.y / s.opposite.y
    let r := s.best.y / s.opposite.y
    (ratio * (ofRat 2 * m * q * (q - r) - (s.best.x - s.previous.x) * (r - ofRat 1)),
      (q - ofRat 1) * (r - ofRat 1) * (ratio - ofRat 1))

def oriented (fraction : α × α) : α × α :=
  if isPositive fraction.1 then (fraction.1, -fraction.2) else (-fraction.1, fraction.2)

/-- An interpolated step is taken when it stays well inside the bracket and is less than
    half as long as the step before the last. -/
def accepts (s : Bracket α) (width : α) (fraction : α × α) : Bool :=
  less (ofRat 2 * fraction.1)
    (smaller (ofRat 3 * s.middle * fraction.2 - abs (width * fraction.2))
      (abs (s.stepBefore * fraction.2)))

/-- Interpolation is tried when the last steps were long and made progress. -/
def mayInterpolate (s : Bracket α) (width : α) : Bool :=
  atMost width (abs s.stepBefore) && less (abs s.best.y) (abs s.previous.y)

def nextSteps (s : Bracket α) (width : α) : α × α :=
  let fraction := oriented s.interpolated
  if s.mayInterpolate width && s.accepts width fraction then
    (fraction.1 / fraction.2, s.step)
  else (s.middle, s.middle)

/-- The place to evaluate next, at least a half width away from the best one. -/
def nextPlace (s : Bracket α) (width step : α) : α :=
  s.best.x + (if less width (abs step) then step else withSign width s.middle)

def narrow (f : α → α) (tolerance : α) : Nat → Bracket α → Refined α
  | 0, s => ⟨s.best.x, [], false⟩
  | count + 1, s =>
    let s := s.rebracket.order
    if s.isClosed tolerance then ⟨s.best.x, [], true⟩
    else
      let width := halfWidth tolerance s.best.x
      let (step, stepBefore) := s.nextSteps width
      let x := s.nextPlace width step
      let rest := narrow f tolerance count
        { s with best := .of f x, previous := s.best, step, stepBefore }
      { rest with visited := x :: rest.visited }

end Bracket

/-- A root of a function between two points at which it has opposite signs. -/
def brent (f : α → α) (first second : Point α) (tolerance : α) (count : Nat) : Refined α :=
  Bracket.narrow f tolerance count (.between first second)

/-! ### The golden section -/

def inverseGoldenRatio : α :=
  ofRat (6180339887498949 / 10000000000000000)

/-- An interval with two points that divide it in the golden ratio, each with the magnitude
    of the function there. -/
structure GoldenSection (α : Type) where
  low : α
  high : α
  left : Point α
  right : Point α

namespace GoldenSection

def leftPlace (low high : α) : α :=
  high - inverseGoldenRatio * (high - low)

def rightPlace (low high : α) : α :=
  low + inverseGoldenRatio * (high - low)

def isNarrow (s : GoldenSection α) (tolerance : α) : Bool :=
  atMost (abs (s.high - s.low)) (tolerance * (ofRat 1 + abs s.left.x))

def middle (s : GoldenSection α) : α :=
  ofRat (1 / 2) * (s.low + s.high)

/-- Drop the part of the interval beyond the larger of the two inner values, in at most the
    given number of steps. -/
def narrow (magnitude : α → α) (tolerance : α) : Nat → GoldenSection α → Refined α
  | 0, s => ⟨s.middle, [], false⟩
  | count + 1, s =>
    if s.isNarrow tolerance then ⟨s.middle, [], true⟩
    else
      let (x, next) :=
        if less s.left.y s.right.y then
          let x := leftPlace s.low s.right.x
          (x, ⟨s.low, s.right.x, .of magnitude x, s.left⟩)
        else
          let x := rightPlace s.left.x s.high
          (x, ⟨s.left.x, s.high, s.right, .of magnitude x⟩)
      let rest := narrow magnitude tolerance count next
      { rest with visited := x :: rest.visited }

end GoldenSection

/-- The place in an interval where the magnitude of a function is smallest, if it falls and
    then rises over the interval. -/
def goldenMinimum (f : α → α) (low high tolerance : α) (count : Nat) : Refined α :=
  let magnitude := fun x => abs (f x)
  let left := GoldenSection.leftPlace low high
  let right := GoldenSection.rightPlace low high
  let rest := GoldenSection.narrow magnitude tolerance count
    ⟨low, high, .of magnitude left, .of magnitude right⟩
  { rest with visited := left :: right :: rest.visited }

end EquationSolver
