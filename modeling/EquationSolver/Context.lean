import EquationSolver.Pool
import EquationSolver.Term.Parser
import EquationSolver.Reduction.Reduce

/-!
# Contexts

A context is a pool of terms together with the symbols that the user has defined, each
as a term of the pool.
-/

namespace EquationSolver

/-- A pool and the definitions of symbols by terms of it. -/
structure Context where
  pool : Pool := {}
  /-- The defined names, each once, with their terms. -/
  definitions : List (String × Handle) := []

namespace Context

/-- Keep what a construction built and return its value. -/
def record {α : Type} (context : Context) (b : Build α) : α × Context :=
  let (a, pool) := context.pool.record b
  (a, { context with pool })

/-! ### Reading -/

def parse (context : Context) (text : String) : Except ParseError Term × Context :=
  context.record (parseExpression text)

def parseSides (context : Context) (text : String) : Except ParseError (Term × Term) × Context :=
  context.record (parseEquation text)

/-! ### Definitions -/

def definitionHandle? (context : Context) (name : String) : Option Handle :=
  context.definitions.lookup name

def definedTerms (context : Context) : Definitions :=
  context.definitions.filterMap fun definition =>
    (context.pool.get? definition.2).map fun t => (definition.1, t)

/-- Define a name as a term of the pool, in place of an earlier definition. -/
def defineHandle (context : Context) (name : String) (handle : Handle) :
    Except ParseError Context :=
  if maxNameLength < name.length then .error (.nameTooLong name)
  else
    .ok
      { pool := context.pool.internName name
        definitions :=
          (name, handle) :: context.definitions.filter fun definition => definition.1 ≠ name }

/-- Define a name as what a text denotes.  The terms of the text stay in the pool also
    when the definition is refused. -/
def define (context : Context) (name text : String) : Except ParseError Unit × Context :=
  match context.parse text with
  | (.error e, context) => (.error e, context)
  | (.ok t, context) =>
    match context.defineHandle name (context.pool.handleOf t) with
    | .ok context => (.ok (), context)
    | .error e => (.error e, context)

/-- Forget a definition; true if there was one. -/
def undefine (context : Context) (name : String) : Bool × Context :=
  ((context.definitionHandle? name).isSome,
    { context with
      definitions := context.definitions.filter fun definition => definition.1 ≠ name })

/-! ### Reduction -/

def reduce (context : Context) (s : Reduction.Settings) (t : Term) : Term × Context :=
  context.record (Reduction.reduce s context.definedTerms t)

/-! ### Cutting back -/

/-- Cut the pool back to a cursor; definitions downstream of it go with their terms. -/
def reclaim (context : Context) (cursor : Cursor) : Context :=
  { pool := context.pool.truncate cursor
    definitions := context.definitions.filter fun definition =>
      !definition.2.isDownstreamOf cursor }

end Context

end EquationSolver
