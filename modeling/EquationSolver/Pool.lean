import EquationSolver.Fault
import EquationSolver.Term.Build
import Std.Data.HashMap

/-!
# The pool of terms

A pool keeps every term that has been built, each once, and gives it a handle.  Subterms
are built before the terms that hold them, so they have smaller handles.  A table finds
the handle of a term.  The pool only grows until it is cut back to a cursor taken
earlier; the names of symbols outlive the cut.
-/

namespace EquationSolver

/-- The place of a term in a pool. -/
structure Handle where
  index : Nat
deriving DecidableEq, Hashable, Repr

structure Cursor where
  position : Nat
deriving DecidableEq, Repr

/-- A term is downstream of a cursor when it came into the pool after it. -/
def Handle.isDownstreamOf (handle : Handle) (cursor : Cursor) : Bool :=
  cursor.position ≤ handle.index

/-- The terms that have been built and the symbols that have been named. -/
structure Pool where
  terms : Array Term := #[]
  table : Std.HashMap Term Nat := {}
  /-- The names of symbols in the order in which they came; the place of a name is the
      number of its symbol. -/
  names : Array String := #[]

namespace Pool

/-! ### Symbols -/

def symbolNumber? (pool : Pool) (name : String) : Option Nat :=
  pool.names.toList.idxOf? name

def symbolName? (pool : Pool) (number : Nat) : Option String :=
  pool.names[number]?

def internName (pool : Pool) (name : String) : Pool :=
  match pool.symbolNumber? name with
  | some _ => pool
  | none => { pool with names := pool.names.push name }

/-! ### Terms -/

def size (pool : Pool) : Nat :=
  pool.terms.size

def insert (pool : Pool) (t : Term) : Pool :=
  match pool.table[t]? with
  | some _ => pool
  | none =>
    { pool with terms := pool.terms.push t, table := pool.table.insert t pool.terms.size }

/-- Intern a term whose subterms are in the pool.  A symbol brings its name. -/
def intern (pool : Pool) (t : Term) : Pool :=
  match t with
  | .symbol name => (pool.internName name).insert t
  | t => pool.insert t

def internAll (pool : Pool) (terms : List Term) : Pool :=
  terms.foldl intern pool

def record {α : Type} (pool : Pool) (b : Build α) : α × Pool :=
  (b.value, pool.internAll b.trace)

/-- The handle of a term of the pool.  A term that is not there has the handle that it
    would get, at which there is nothing yet. -/
def handleOf (pool : Pool) (t : Term) : Handle :=
  ⟨pool.table.getD t pool.terms.size⟩

def get? (pool : Pool) (handle : Handle) : Option Term :=
  pool.terms[handle.index]?

def get (pool : Pool) (handle : Handle) : Except Fault Term :=
  match pool.get? handle with
  | some t => .ok t
  | none => .error .dangling

/-! ### Cutting back -/

def checkpoint (pool : Pool) : Cursor :=
  ⟨pool.size⟩

def truncate (pool : Pool) (cursor : Cursor) : Pool :=
  if pool.size ≤ cursor.position then pool
  else
    { pool with
      terms := pool.terms.take cursor.position
      table :=
        (pool.terms.toList.drop cursor.position).foldl (fun table t => table.erase t) pool.table }

end Pool

end EquationSolver
