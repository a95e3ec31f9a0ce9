/-!
# Preferences

How results are calculated and shown: the unit of angles, the format of complex numbers,
the system of units and the number of significant digits.
-/

namespace EquationSolver

inductive AngleUnit where
  | radian
  | degree
  | gradian
deriving DecidableEq, Repr

def AngleUnit.names : List (String × AngleUnit) :=
  [("radian", .radian), ("degree", .degree), ("gradian", .gradian)]

inductive ComplexFormat where
  | real
  | cartesian
  | polar
deriving DecidableEq, Repr

def ComplexFormat.names : List (String × ComplexFormat) :=
  [("real", .real), ("cartesian", .cartesian), ("polar", .polar)]

inductive UnitFormat where
  | metric
  | imperial
deriving DecidableEq, Repr

def UnitFormat.names : List (String × UnitFormat) :=
  [("metric", .metric), ("imperial", .imperial)]

def defaultSignificantDigits : Nat := 10

structure Preferences where
  angleUnit : AngleUnit := .radian
  complexFormat : ComplexFormat := .real
  unitFormat : UnitFormat := .metric
  significantDigits : Nat := defaultSignificantDigits
deriving DecidableEq, Repr

end EquationSolver
