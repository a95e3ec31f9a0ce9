/-
  EquationSolver/Fault.lean
  =========================
  Calls outside the domain of an operation.

  A `Fault` is not an answer about an equation: it says that an operation was
  asked for something that has no meaning, such as a zeroth root.  Faults that
  carry a fixed explanation have one in `Fault.message`.  A call that goes on
  for ever has no result at all, not even a fault: see `Unbounded`.
-/

namespace EquationSolver

/-- The ways in which a call can lie outside the domain of its operation. -/
inductive Fault where
  | zerothRoot
  | rootOfNegative
  | zeroDenominator
  | reciprocalOfZero
  | integerDivisionByZero
  | rationalDivisionByZero
  | commonDivisorOfZeros
  /-- More solutions than a registry has room for. -/
  | registryOverflow
  /-- A scan over an interval whose end does not lie above its start. -/
  | emptyScanInterval
  /-- A scan in zero steps. -/
  | noScanSteps
  /-- A search interval whose end does not lie above its start. -/
  | emptySearchInterval
  /-- Rows or entries that do not fit the size of a matrix. -/
  | sizeMismatch
  /-- A handle or index that denotes nothing. -/
  | dangling
deriving DecidableEq, Repr

namespace Fault

def message : Fault → Option String
  | zerothRoot => some "zeroth root"
  | rootOfNegative => some "root of a negative integer"
  | zeroDenominator => some "denominator cannot be zero"
  | reciprocalOfZero => some "cannot take reciprocal of zero"
  | integerDivisionByZero => some "divisor must not be 0"
  | rationalDivisionByZero => some "Divisor or denominator must not be zero!"
  | commonDivisorOfZeros => some "the greatest common divisor is not defined between zeros!"
  | registryOverflow => some "solution registry overflow"
  | emptyScanInterval => some "empty scan interval"
  | noScanSteps => some "scanner needs at least one step"
  | emptySearchInterval => some "empty search interval"
  | sizeMismatch => none
  | dangling => none

end Fault

/-- A computation without a bound on its length: it may come to a fault, or to no end. -/
abbrev Unbounded (α : Type) := ExceptT Fault Option α

end EquationSolver
