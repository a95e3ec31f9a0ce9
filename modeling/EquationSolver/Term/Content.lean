import EquationSolver.Term.Basic

/-!
# What a term contains

Queries on all subterms of a term, the term itself included.
-/

namespace EquationSolver

namespace Term

mutual

def contains (p : Term → Bool) : Term → Bool
  | .sum terms => p (.sum terms) || containsAny p terms
  | .product factors => p (.product factors) || containsAny p factors
  | .power a b => p (.power a b) || contains p a || contains p b
  | .negation a => p (.negation a) || contains p a
  | .quotient a b => p (.quotient a b) || contains p a || contains p b
  | .apply f a => p (.apply f a) || contains p a
  | .matrix m n entries => p (.matrix m n entries) || containsAny p entries
  | t => p t

def containsAny (p : Term → Bool) : List Term → Bool
  | [] => false
  | t :: ts => contains p t || containsAny p ts

end

def containsMatrix (t : Term) : Bool :=
  t.contains fun u => u matches .matrix _ _ _

def containsDecimal (t : Term) : Bool :=
  t.contains fun u => u matches .decimal _

def containsSymbol (t : Term) : Bool :=
  t.contains fun u => u matches .symbol _

def containsImaginaryUnit (t : Term) : Bool :=
  t.contains fun u => u matches .constant .i

/-- One of the named symbols occurs. -/
def dependsOn (t : Term) (names : List String) : Bool :=
  t.contains fun
    | .symbol name => names.contains name
    | _ => false

end Term

end EquationSolver
