import EquationSolver.Term.Basic

/-!
# Sets of variables

A bounded set of symbols that keeps the order of insertion, and the collection of the
symbols of a term into one.
-/

namespace EquationSolver

def maxVariables : Nat := 6

/-- More distinct symbols than a set can hold. -/
structure CapacityExceeded where
  capacity : Nat
deriving DecidableEq, Repr

def CapacityExceeded.message (e : CapacityExceeded) : String :=
  "expression has more than " ++ toString e.capacity ++ " variables"

/-- A bounded set in the order of insertion. -/
structure VariableSet (α : Type) where
  items : List α := []
  capacity : Nat := maxVariables
deriving Repr

namespace VariableSet

variable {α : Type} [DecidableEq α]

/-- Insert an item behind the others, unless it is there. -/
def insert (set : VariableSet α) (a : α) : Except CapacityExceeded (VariableSet α) :=
  if a ∈ set.items then .ok set
  else if set.items.length < set.capacity then .ok { set with items := set.items ++ [a] }
  else .error ⟨set.capacity⟩

def position? (set : VariableSet α) (a : α) : Option Nat :=
  set.items.idxOf? a

def clear (set : VariableSet α) : VariableSet α :=
  { set with items := [] }

/-! ### Collecting the symbols of a term -/

/-- Insert a symbol that is to be kept; an overflow comes with the set as it is. -/
def insertKept (keep : String → Bool) (set : VariableSet String) (name : String) :
    VariableSet String × Option CapacityExceeded :=
  if keep name then
    match set.insert name with
    | .ok set => (set, none)
    | .error e => (set, some e)
  else (set, none)

mutual

/-- Insert the symbols of a term that are to be kept, depth first and from left to right.
    An overflow ends the collection; the symbols found before it stay in the set. -/
def collect (keep : String → Bool) (set : VariableSet String) :
    Term → VariableSet String × Option CapacityExceeded
  | .symbol name => insertKept keep set name
  | .sum terms => collectAll keep set terms
  | .product factors => collectAll keep set factors
  | .power a b =>
    match collect keep set a with
    | (set, none) => collect keep set b
    | overflow => overflow
  | .negation a => collect keep set a
  | .quotient a b =>
    match collect keep set a with
    | (set, none) => collect keep set b
    | overflow => overflow
  | .apply _ a => collect keep set a
  | .matrix _ _ entries => collectAll keep set entries
  | .number _ | .decimal _ | .constant _ | .undefined | .nonreal => (set, none)

def collectAll (keep : String → Bool) (set : VariableSet String) :
    List Term → VariableSet String × Option CapacityExceeded
  | [] => (set, none)
  | t :: ts =>
    match collect keep set t with
    | (set, none) => collectAll keep set ts
    | overflow => overflow

end

end VariableSet

end EquationSolver
