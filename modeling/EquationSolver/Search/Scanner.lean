import EquationSolver.Fault
import EquationSolver.Search.Refinement

/-!
# Scanning an interval for roots

A scanner samples a function on a regular grid from a cursor on and finds its roots one at a
time.  A change of sign between two samples is refined to a root by Brent's method; a
refined point at which the function is larger than at both samples is a pole and is passed
over.  A sample that is smaller in magnitude than its neighbours is refined by the golden
section, which finds the roots of even multiplicity.  Every root moves the cursor just past
itself, and at the end of the interval there is none left.

A step that is too small to move a place leads nowhere.  A search that goes on for ever has no
answer: what it returns is then `none`, while an answer that there is no root is `some none`.
-/

namespace EquationSolver

open SearchNumber

structure ScanSettings (α : Type) where
  steps : Nat
  /-- The part of the width by which stretching moves each end. -/
  stretchRatio : α
  /-- The width at which a refinement stops, relative to a sampling step. -/
  relativeTolerance : α
  maxIterations : Nat
  /-- The largest magnitude that counts as zero at a minimum. -/
  nullTolerance : α
  /-- Roots nearer to zero than this part of a sampling step become zero. -/
  zeroSnapRatio : α
deriving DecidableEq

/-- A scanner: its interval, the place to go on from, and whether that place is still to be
    looked at itself. -/
structure Scanner (α : Type) where
  settings : ScanSettings α
  low : α
  high : α
  cursor : α
  fresh : Bool
deriving DecidableEq

variable {α : Type} [SearchNumber α]

def ScanSettings.standard : ScanSettings α where
  steps := 500
  stretchRatio := ofRat (1 / 100)
  relativeTolerance := ofRat (1 / 1000000000000)
  maxIterations := 200
  nullTolerance := ofRat (1 / 10000000000)
  zeroSnapRatio := ofRat (1 / 1000000000)

namespace Scanner

/-! ### The interval -/

def start (settings : ScanSettings α) (low high : α) : Except Fault (Scanner α) :=
  if !atMost low high then .error .emptyScanInterval
  else if settings.steps = 0 then .error .noScanSteps
  else .ok { settings, low, high, cursor := low, fresh := true }

/-- Move both ends of the interval outwards, so that roots at an end lie between samples,
    and start again. -/
def stretch (s : Scanner α) : Scanner α :=
  let width := s.high - s.low
  let margin :=
    if isPositive width then width * s.settings.stretchRatio
    else s.settings.stretchRatio * larger (abs s.low) (ofRat 1)
  { s with
    low := s.low - margin
    high := s.high + margin
    cursor := s.low - margin
    fresh := true }

def step (s : Scanner α) : α :=
  let width := s.high - s.low
  if isPositive width then width / ofRat s.settings.steps else epsilon

/-! ### Samples -/

def tolerance (s : Scanner α) : α :=
  s.settings.relativeTolerance * s.step

/-- The signs of two values, zero counting as positive, differ. -/
def differInSign (x y : α) : Bool :=
  isNegative x != isNegative y

def crosses (left right : Point α) : Bool :=
  isFinite left.y && isFinite right.y && !isZero left.y && differInSign left.y right.y

/-- The middle one of three samples of the same sign is the smallest in magnitude. -/
def dips (before left right : Point α) : Bool :=
  isFinite before.y && isFinite left.y && isFinite right.y
    && !differInSign before.y left.y && !differInSign left.y right.y
    && less (abs left.y) (abs before.y) && atMost (abs left.y) (abs right.y)

/-- The root between two samples of different sign, unless there is a pole. -/
def crossing? (s : Scanner α) (f : α → α) (left right : Point α) : Option (Point α) :=
  let root := Point.of f (brent f left right s.tolerance s.settings.maxIterations).place
  if atMost (abs root.y) s.settings.nullTolerance
      || less (abs root.y) (smaller (abs left.y) (abs right.y)) then some root
  else none

/-- The minimum of the magnitude between two samples, if it counts as zero. -/
def dip? (s : Scanner α) (f : α → α) (before right : Point α) : Option (Point α) :=
  let place := (goldenMinimum f before.x right.x s.tolerance s.settings.maxIterations).place
  let root := Point.of f place
  if atMost (abs root.y) s.settings.nullTolerance then some root else none

/-- The root that the sample to the right gives away, with those to the left of it. -/
def rootBefore? (s : Scanner α) (f : α → α) (before? : Option (Point α))
    (left right : Point α) : Option (Point α) :=
  if isZero right.y then some right
  else if crosses left right then s.crossing? f left right
  else
    before?.bind fun before => if dips before left right then s.dip? f before right else none

/-- Go from sample to sample until one gives away a root, or the end of the interval is
    reached. -/
def search? (s : Scanner α) (f : α → α) (before? : Option (Point α)) (p : Point α) :
    Option (Option (Point α)) :=
  if less p.x s.high then
    let right := Point.of f (smaller (p.x + s.step) s.high)
    let goOn := search? s f (p := right)
    match s.rootBefore? f before? p right with
    | some root => some (some root)
    | none => goOn (some p)
  else some none
partial_fixpoint

/-! ### Roots -/

def snapped (s : Scanner α) (x : α) : α :=
  if less (abs x) (s.settings.zeroSnapRatio * s.step) then ofRat 0 else x

def placeAfter (s : Scanner α) (x : α) : α :=
  x + larger (s.settings.relativeTolerance * s.step * ofRat 1000000)
    (epsilon * abs x * ofRat 4)

/-- Report a root and go on after it.  A place that is not a number is not reported. -/
def accept (s : Scanner α) (root : Point α) : Option (Point α) × Scanner α :=
  let x := s.snapped root.x
  (if isNumber x then some ⟨x, root.y⟩ else none,
    { s with cursor := s.placeAfter x, fresh := false })

def root? (s : Scanner α) (f : α → α) : Option (Option (Point α)) :=
  let first := Point.of f s.cursor
  if s.fresh && isZero first.y then some (some first) else s.search? f none first

def nextRoot (s : Scanner α) (f : α → α) : Option (Option (Point α) × Scanner α) :=
  (s.root? f).map fun
    | some root => s.accept root
    | none => (none, { s with cursor := s.high, fresh := false })

/-- Draw the place of the next root. -/
def draw (f : α → α) (s : Scanner α) : Option (Option α × Scanner α) :=
  (s.nextRoot f).map fun (root, s) => (root.map Point.x, s)

end Scanner

/-! ### Collecting roots -/

structure Interval (α : Type) where
  low : α
  high : α
deriving Repr

structure Found (α : Type) where
  places : List α
  more : Bool

namespace Interval

/-- Draw places until none is left or one lies beyond the interval, passing over those that
    lie before it.  Room is for the given number of places; one more only tells that there
    are more.  Where a draw comes to no end, or places before the interval are drawn without
    end, there is no answer. -/
def collect? {σ : Type} (interval : Interval α) (next : σ → Option (Option α × σ)) (room : Nat)
    (s : σ) : Option (Found α) := do
  let (place, left) ← next s
  match place with
  | none => some ⟨[], false⟩
  | some x =>
    let goOn := collect? interval next (s := left)
    if less x interval.low then goOn room
    else if less interval.high x then some ⟨[], false⟩
    else
      match room with
      | 0 => some ⟨[], true⟩
      | room + 1 => do
        let rest ← goOn room
        some { rest with places := x :: rest.places }
partial_fixpoint

end Interval

end EquationSolver
