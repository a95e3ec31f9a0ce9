import EquationSolver.Context

/-!
# Stored equations

A bounded list of equations, each with the text that it was entered as.
-/

namespace EquationSolver

def maxEquations : Nat := 6

inductive StoreError where
  | full (capacity : Nat)
  | parse (e : ParseError)
deriving DecidableEq

def StoreError.message : StoreError → String
  | full capacity => "cannot hold more than " ++ toString capacity ++ " equations"
  | parse e => e.message

/-- An equation of the pool and the text that it was entered as. -/
structure StoredEquation where
  text : String
  left : Handle
  right : Handle
deriving DecidableEq, Repr

structure EquationStore where
  equations : List StoredEquation := []
deriving DecidableEq, Repr

namespace EquationStore

/-- Read an equation into the pool and append it.  The result comes with its place. -/
def add (store : EquationStore) (context : Context) (text : String) :
    Except StoreError (Nat × EquationStore) × Context :=
  if store.equations.length < maxEquations then
    match context.parseSides text with
    | (.error e, context) => (.error (.parse e), context)
    | (.ok (left, right), context) =>
      let equation := ⟨text, context.pool.handleOf left, context.pool.handleOf right⟩
      (.ok (store.equations.length, ⟨store.equations ++ [equation]⟩), context)
  else (.error (.full maxEquations), context)

def remove (store : EquationStore) (place : Nat) : Option StoredEquation × EquationStore :=
  (store.equations[place]?, ⟨store.equations.eraseIdx place⟩)

end EquationStore

end EquationSolver
