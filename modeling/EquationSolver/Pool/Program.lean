import EquationSolver.Pool.Order

/-!
# Programs on a pool

A program reads nodes of a pool and calls constructors, one after the other, and has handles
wherever a computation on terms has terms.  It stops at a handle that denotes nothing.
-/

namespace EquationSolver

/-- A computation on a pool, with the pool that it leaves. -/
abbrev PoolProgram (α : Type) := StateT Pool (Except Fault) α

namespace PoolProgram

def construct (c : Construction) : PoolProgram Handle :=
  fun pool => pool.construct c

def node (handle : Handle) : PoolProgram Node :=
  fun pool =>
    match pool.node? handle with
    | some node => .ok (node, pool)
    | none => .error .dangling

def nodes (handles : List Handle) : PoolProgram (List Node) :=
  handles.mapM node

/-- The handles of the nodes with a property, and the handles of the others. -/
def partition (p : Node → Bool) (handles : List Handle) :
    PoolProgram (List Handle × List Handle) := do
  let nodes ← nodes handles
  let (chosen, others) := (handles.zip nodes).partition fun item => p item.2
  return (chosen.map Prod.fst, others.map Prod.fst)

/-- Sort handles by an order that a pool has. -/
def sort (order : Pool → Handle → Handle → Ordering) (handles : List Handle) :
    PoolProgram (List Handle) :=
  fun pool => .ok (sortBy (order pool) handles, pool)

/-- The name of the symbol with a number. -/
def name? (place : Nat) : PoolProgram (Option String) :=
  fun pool => .ok (pool.symbolName? place, pool)

end PoolProgram

end EquationSolver
