import Mathlib.Algebra.Ring.Int.Defs
import EquationSolver.Pool.Node
import EquationSolver.Term.Order

/-!
# The order of the nodes of a pool

The order of factors and the order of the terms of a sum, on handles.  Two handles are compared
by their nodes, going down to the handles in them, and where neither the nodes nor what is below
them tells the handles apart, by their indices.
-/

namespace EquationSolver

namespace Node

def isNumeric : Node → Bool
  | .number _ | .decimal _ => true
  | _ => false

def rank : Node → Nat
  | .number _ => 0
  | .decimal _ => 1
  | .constant _ => 2
  | .symbol _ => 3
  | .apply _ _ => 4
  | .power _ _ => 5
  | .product _ => 6
  | .sum _ => 7
  | .matrix _ _ _ => 8
  | .negation _ => 9
  | .quotient _ _ => 10
  | .undefined => 11
  | .nonreal => 12

/-- What stands at the head of a node.  Symbols of one name are told apart by their numbers. -/
def head (nameOf? : Nat → Option String) : Node → Term.Head
  | .number a => { value := a }
  | .decimal bits => { key := Binary64.orderKey bits }
  | .constant c => { first := c.rank }
  | .symbol place => { name := (nameOf? place).getD "", first := place }
  | .apply f _ => { first := f.rank }
  | .matrix m n _ => { first := m, second := n }
  | _ => {}

/-- The base and the exponent of a node at a handle; no exponent stands for one. -/
def asPower (handle : Handle) : Node → Handle × Option Handle
  | .power base exponent => (base, some exponent)
  | _ => (handle, none)

end Node

namespace Pool

/-! ### Comparing handles -/

/-- The order of an exponent and the first power. -/
def compareWithOne (pool : Pool) (handle : Handle) : Ordering :=
  match pool.node? handle with
  | some (.number a) => compareRat a 1
  | some (.decimal bits) => Binary64.compareBits bits Binary64.oneBits
  | _ => .gt

def compareExponents (pool : Pool) (compare : Handle → Handle → Ordering) :
    Option Handle → Option Handle → Ordering
  | none, none => .eq
  | some e, some f => compare e f
  | none, some f => (pool.compareWithOne f).swap
  | some e, none => pool.compareWithOne e

def compareLists (compare : Handle → Handle → Ordering) : List Handle → List Handle → Ordering
  | [], ys => if ys.isEmpty then .eq else .lt
  | _ :: _, [] => .gt
  | x :: xs, y :: ys => (compare x y).then (compareLists compare xs ys)

/-- The order of two handles by the nodes at them, down to a depth. -/
def compareWithin (pool : Pool) : Nat → Handle → Handle → Ordering
  | 0, _, _ => .eq
  | depth + 1, a, b =>
    if a = b then .eq
    else
      match pool.node? a, pool.node? b with
      | some m, some n =>
        let (x, e) := m.asPower a
        let (y, f) := n.asPower b
        let byNodes :=
          if !m.isNumeric && !n.isNumeric && (e.isSome || f.isSome) then
            (pool.compareWithin depth x y).then
              (pool.compareExponents (pool.compareWithin depth) e f)
          else
            ((Ord.compare m.rank n.rank).then
              ((m.head pool.symbolName?).compare (n.head pool.symbolName?))).then
                (compareLists (pool.compareWithin depth) m.children n.children)
        byNodes.then (Ord.compare a.index b.index)
      | _, _ => .eq

/-- The order of two handles.  Children come before their nodes, so that the indices bound the
    depth. -/
def compareHandles (pool : Pool) (a b : Handle) : Ordering :=
  pool.compareWithin (a.index + b.index + 1) a b

def isNumericAt (pool : Pool) (handle : Handle) : Bool :=
  (pool.node? handle).any Node.isNumeric

/-- The factors of the node at a handle that are not numbers. -/
def bodyOf (pool : Pool) (handle : Handle) : List Handle :=
  match pool.node? handle with
  | some (.product factors) => factors.filter fun factor => !pool.isNumericAt factor
  | some (.number _) | some (.decimal _) => []
  | _ => [handle]

/-- The number at a handle, if it is an integer and a word. -/
def wordAt? (pool : Pool) (handle : Handle) : Option Int :=
  match pool.node? handle with
  | some (.number a) => Rational.toInt64Range? a
  | _ => none

/-- The degree at a handle by the nodes below it, down to a depth. -/
def degreeWithin (pool : Pool) : Nat → Handle → Int
  | 0, _ => 0
  | depth + 1, handle =>
    match pool.node? handle with
    | some (.symbol _) => 1
    | some (.power base exponent) =>
      match pool.wordAt? exponent with
      | some e => Integer.clampSigned (pool.degreeWithin depth base * e)
      | none => 0
    | some (.product factors) => Integer.wrapSigned (factors.map (pool.degreeWithin depth)).sum
    | some (.sum terms) => ((terms.map (pool.degreeWithin depth)).max?).getD 0
    | _ => 0

/-- The degree at a handle.  The index bounds the depth here, too. -/
def degreeAt (pool : Pool) (handle : Handle) : Int :=
  pool.degreeWithin (handle.index + 1) handle

/-- The order of the terms of a sum, given by their handles. -/
def compareTermHandles (pool : Pool) (a b : Handle) : Ordering :=
  if a = b then .eq
  else
    ((Ord.compare (pool.isNumericAt a).toNat (pool.isNumericAt b).toNat).then
      (Ord.compare (pool.degreeAt b) (pool.degreeAt a))).then
        ((compareLists pool.compareHandles (pool.bodyOf a) (pool.bodyOf b)).then
          (pool.compareHandles a b))

end Pool

end EquationSolver
