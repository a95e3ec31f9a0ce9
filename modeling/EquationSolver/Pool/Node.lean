import EquationSolver.Pool

/-!
# Nodes of a pool

A pool can be read node by node: a node is a term with handles in place of its subterms and
a number in place of the name of a symbol.  Constructors take handles, so that a term is
built of nodes that are in the pool already.
-/

namespace EquationSolver

inductive Node where
  | number (value : Rat)
  | decimal (bits : UInt64)
  | constant (c : Constant)
  /-- A symbol by the place of its name among the names of the pool. -/
  | symbol (place : Nat)
  | undefined
  | nonreal
  | sum (terms : List Handle)
  | product (factors : List Handle)
  | power (base exponent : Handle)
  | negation (argument : Handle)
  | quotient (numerator denominator : Handle)
  | apply (f : Function) (argument : Handle)
  | matrix (rows columns : Nat) (entries : List Handle)
deriving DecidableEq, Repr

namespace Node

def children : Node → List Handle
  | .number _ | .decimal _ | .constant _ | .symbol _ | .undefined | .nonreal => []
  | .sum terms => terms
  | .product factors => factors
  | .power base exponent => [base, exponent]
  | .negation a => [a]
  | .quotient a b => [a, b]
  | .apply _ a => [a]
  | .matrix _ _ entries => entries

/-- The term that a node stands for, given the names of symbols and the terms of handles. -/
def term? (nameOf? : Nat → Option String) (termAt? : Handle → Option Term) : Node → Option Term
  | .number a => some (.number a)
  | .decimal bits => some (.decimal bits)
  | .constant c => some (.constant c)
  | .symbol place => (nameOf? place).map Term.symbol
  | .undefined => some .undefined
  | .nonreal => some .nonreal
  | .sum terms => (terms.mapM termAt?).map Term.sum
  | .product factors => (factors.mapM termAt?).map Term.product
  | .power base exponent => do return .power (← termAt? base) (← termAt? exponent)
  | .negation a => (termAt? a).map Term.negation
  | .quotient a b => do return .quotient (← termAt? a) (← termAt? b)
  | .apply f a => (termAt? a).map (Term.apply f)
  | .matrix m n entries => (entries.mapM termAt?).map (Term.matrix m n)

end Node

namespace Pool

/-! ### Reading a pool node by node -/

def nodeOf? (pool : Pool) : Term → Option Node
  | .number a => some (.number a)
  | .decimal bits => some (.decimal bits)
  | .constant c => some (.constant c)
  | .symbol name => (pool.symbolNumber? name).map .symbol
  | .undefined => some .undefined
  | .nonreal => some .nonreal
  | .sum terms => some (.sum (terms.map pool.handleOf))
  | .product factors => some (.product (factors.map pool.handleOf))
  | .power base exponent => some (.power (pool.handleOf base) (pool.handleOf exponent))
  | .negation a => some (.negation (pool.handleOf a))
  | .quotient a b => some (.quotient (pool.handleOf a) (pool.handleOf b))
  | .apply f a => some (.apply f (pool.handleOf a))
  | .matrix m n entries => some (.matrix m n (entries.map pool.handleOf))

/-- The node in the slot of a handle. -/
def node? (pool : Pool) (handle : Handle) : Option Node :=
  (pool.get? handle).bind pool.nodeOf?

/-- The handle that the table has for a node. -/
def lookup? (pool : Pool) (node : Node) : Option Handle :=
  (node.term? pool.symbolName? pool.get?).bind fun t => pool.table[t]?.map Handle.mk

/-- The tree below a handle, down to a depth that all of its branches have to end in. -/
def treeWithin? (pool : Pool) : Nat → Handle → Option Term
  | 0, _ => none
  | depth + 1, handle =>
    (pool.node? handle).bind (Node.term? pool.symbolName? (treeWithin? pool depth))

/-- The tree that a handle denotes: its node, with the trees of the children in their places.
    Children come before their node, so that its index bounds the depth. -/
def tree? (pool : Pool) (handle : Handle) : Option Term :=
  pool.treeWithin? (handle.index + 1) handle

end Pool

/-! ### Constructors -/

/-- A call of a constructor. -/
inductive Construction where
  | number (a : Rat)
  | decimal (x : Float)
  | constant (c : Constant)
  | symbol (name : String)
  | undefined
  | nonreal
  | sum (terms : List Handle)
  | product (factors : List Handle)
  | power (base exponent : Handle)
  | negation (a : Handle)
  | difference (a b : Handle)
  | quotient (a b : Handle)
  | apply (f : Function) (a : Handle)
  | squareRoot (a : Handle)
  | matrix (rows columns : Nat) (entries : List Handle)

namespace Construction

def operands : Construction → List Handle
  | .number _ | .decimal _ | .constant _ | .symbol _ | .undefined | .nonreal => []
  | .sum terms => terms
  | .product factors => factors
  | .power base exponent => [base, exponent]
  | .negation a => [a]
  | .difference a b => [a, b]
  | .quotient a b => [a, b]
  | .apply _ a => [a]
  | .squareRoot a => [a]
  | .matrix _ _ entries => entries

/-- What a constructor builds of the terms of a pool. -/
def build (pool : Pool) : Construction → Except Fault (Build Term)
  | .number a => .ok (Build.number a)
  | .decimal x => .ok (Build.make (.ofDouble x))
  | .constant c => .ok (Build.make (.constant c))
  | .symbol name => .ok (Build.make (.symbol name))
  | .undefined => .ok (Build.make .undefined)
  | .nonreal => .ok (Build.make .nonreal)
  | .sum terms => do return Build.sum (← terms.mapM pool.get)
  | .product factors => do return Build.product (← factors.mapM pool.get)
  | .power base exponent => do return Build.make (.power (← pool.get base) (← pool.get exponent))
  | .negation a => do return Build.make (.negation (← pool.get a))
  | .difference a b => do return Build.difference (← pool.get a) (← pool.get b)
  | .quotient a b => do return Build.make (.quotient (← pool.get a) (← pool.get b))
  | .apply f a => do return Build.make (.apply f (← pool.get a))
  | .squareRoot a => do return Build.squareRoot (← pool.get a)
  | .matrix m n entries => do Build.matrix m n (← entries.mapM pool.get)

end Construction

/-- Call a constructor: the handle of what it builds, and the pool that keeps it. -/
def Pool.construct (pool : Pool) (c : Construction) : Except Fault (Handle × Pool) := do
  let (t, pool) := pool.record (← c.build pool)
  return (pool.handleOf t, pool)

end EquationSolver
