import EquationSolver.Json.Reader
import EquationSolver.Preferences
import EquationSolver.Solver.Settings

/-!
# Preferences and settings as JSON

Preferences and the settings of a solver are read from objects.  A member that is left out
has its standard value, a member that is not known is passed over, and no known member may
come twice.  An array stands for an object by the order of its items, the last of which may
be left out.
-/

namespace EquationSolver

namespace JsonValue

/-! ### Members -/

/-- The member of a name among named values, which may come at most once. -/
def member? (members : List (String × JsonValue)) (name : String) : Option (Option JsonValue) :=
  match members.filter fun member => member.1 = name with
  | [] => some none
  | [member] => some (some member.2)
  | _ => none

/-- The values of named members, where they are given. -/
def members (names : List String) : JsonValue → Option (List (Option JsonValue))
  | .array items =>
    if items.length ≤ names.length then
      some ((List.range names.length).map fun place => items[place]?)
    else none
  | .object members => do
    let named ← members.mapM fun member => member.1.text?.map fun name => (name, member.2)
    names.mapM (member? named)
  | _ => none

/-- Read a member, which has a standard value when it is left out. -/
def orStandard {α : Type} (standard : α) (read? : JsonValue → Option α) :
    Option JsonValue → Option α
  | none => some standard
  | some value => read? value

/-! ### Plain values -/

def toNat? : JsonValue → Option Nat
  | .number n => n.toNat?
  | _ => none

def toDouble? : JsonValue → Option Float
  | .number n => n.toDouble?
  | _ => none

/-- One of several named things: its name, or an object whose only member has that name
    and is null. -/
def choice? {α : Type} (names : List (String × α)) : JsonValue → Option α
  | .string name | .object [(name, .null)] => name.text?.bind fun name => names.lookup name
  | _ => none

end JsonValue

open JsonValue

def Preferences.ofJson? (value : JsonValue) : Option Preferences := do
  let standard : Preferences := {}
  match ← value.members
    ["angle_unit", "complex_format", "unit_format", "significant_digits"] with
  | [angleUnit, complexFormat, unitFormat, significantDigits] =>
    pure {
      angleUnit := ← orStandard standard.angleUnit (choice? AngleUnit.names) angleUnit
      complexFormat :=
        ← orStandard standard.complexFormat (choice? ComplexFormat.names) complexFormat
      unitFormat := ← orStandard standard.unitFormat (choice? UnitFormat.names) unitFormat
      significantDigits := ← orStandard standard.significantDigits toNat? significantDigits }
  | _ => none

def ScanSettings.ofJson? (value : JsonValue) : Option (ScanSettings Float) := do
  let standard : ScanSettings Float := .standard
  match ← value.members
    ["steps", "stretch_ratio", "relative_tolerance", "max_iterations", "null_tolerance",
      "zero_snap_ratio"] with
  | [steps, stretchRatio, relativeTolerance, maxIterations, nullTolerance, zeroSnapRatio] =>
    pure {
      steps := ← orStandard standard.steps toNat? steps
      stretchRatio := ← orStandard standard.stretchRatio toDouble? stretchRatio
      relativeTolerance := ← orStandard standard.relativeTolerance toDouble? relativeTolerance
      maxIterations := ← orStandard standard.maxIterations toNat? maxIterations
      nullTolerance := ← orStandard standard.nullTolerance toDouble? nullTolerance
      zeroSnapRatio := ← orStandard standard.zeroSnapRatio toDouble? zeroSnapRatio }
  | _ => none

def SolverSettings.ofJson? (value : JsonValue) : Option SolverSettings := do
  let standard : SolverSettings := {}
  match ← value.members
    ["approximate_min", "approximate_max", "max_exact_length", "scanner"] with
  | [low, high, maxExactLength, scanner] =>
    pure {
      interval := ⟨← orStandard standard.interval.low toDouble? low,
        ← orStandard standard.interval.high toDouble? high⟩
      maxExactLength := ← orStandard standard.maxExactLength toNat? maxExactLength
      scanner := ← orStandard standard.scanner ScanSettings.ofJson? scanner }
  | _ => none

def Preferences.ofText? (text : String) : Option Preferences :=
  (JsonValue.ofText? text).bind Preferences.ofJson?

def SolverSettings.ofText? (text : String) : Option SolverSettings :=
  (JsonValue.ofText? text).bind SolverSettings.ofJson?

end EquationSolver
