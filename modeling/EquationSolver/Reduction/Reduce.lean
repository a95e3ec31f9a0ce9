import EquationSolver.Reduction.Function
import Std.Data.HashMap

/-!
# Reduction to standard form

Subterms are reduced first, then the term is put together again by sums, products, powers
and functions in standard form; negations become products with minus one and quotients
products with an inverse.  Where defined symbols are replaced, a symbol is reduced to the
reduced form of its definition; a symbol met again inside its own definition is
undefined.

A reducer remembers what it has reduced, so that a term met again is not reduced again.
What is remembered is part of the result: inside a circular definition a symbol is
remembered as undefined until its own reduction is complete.
-/

namespace EquationSolver

abbrev Definitions := List (String × Term)

namespace Reduction

abbrev Memory := Std.HashMap Term Term

/-- A step of a reduction: it reads and extends the memory. -/
def Step (α : Type) : Type := Memory → Build (α × Memory)

namespace Step

instance : Monad Step where
  pure a := fun memory => pure (a, memory)
  bind x f := fun memory => do
    let (a, memory) ← x memory
    f a memory

/-- A construction, which does not touch the memory. -/
def ofBuild {α : Type} (b : Build α) : Step α :=
  fun memory => do
    let a ← b
    pure (a, memory)

/-- Take the result for a term from the memory, or reduce it and remember the result. -/
def remember (t : Term) (reduce : Step Term) : Step Term :=
  fun memory =>
    match memory[t]? with
    | some result => pure (result, memory)
    | none => do
      let (result, memory) ← reduce memory
      pure (result, memory.insert t result)

end Step

open Step

mutual

def reduceTerm (s : Settings) (symbol : String → Step Term) : Term → Step Term
  | .number a => pure (.number a)
  | .decimal bits => pure (.decimal bits)
  | .constant c => pure (.constant c)
  | .undefined => pure .undefined
  | .nonreal => pure .nonreal
  | .symbol name => remember (.symbol name) (symbol name)
  | .sum terms => remember (.sum terms) do
    let terms ← reduceTerms s symbol terms
    ofBuild (add terms)
  | .product factors => remember (.product factors) do
    let factors ← reduceTerms s symbol factors
    ofBuild (mul s factors)
  | .power base exponent => remember (.power base exponent) do
    let base ← reduceTerm s symbol base
    let exponent ← reduceTerm s symbol exponent
    ofBuild (pow s base exponent)
  | .negation a => remember (.negation a) do
    let a ← reduceTerm s symbol a
    ofBuild do
      let minusOne ← Build.number (-1)
      mul s [minusOne, a]
  | .quotient a b => remember (.quotient a b) do
    let a ← reduceTerm s symbol a
    let b ← reduceTerm s symbol b
    ofBuild do
      let minusOne ← Build.number (-1)
      let inverse ← pow s b minusOne
      mul s [a, inverse]
  | .apply f a => remember (.apply f a) do
    let a ← reduceTerm s symbol a
    ofBuild (apply s f a)
  | .matrix rows columns entries => remember (.matrix rows columns entries) do
    let entries ← reduceTerms s symbol entries
    ofBuild (Build.make (.matrix rows columns entries))

def reduceTerms (s : Settings) (symbol : String → Step Term) : List Term → Step (List Term)
  | [] => pure []
  | t :: ts => do
    let t ← reduceTerm s symbol t
    let ts ← reduceTerms s symbol ts
    pure (t :: ts)

end

/-- Reduce a symbol whose definition, if it has one, is reduced in turn.  The names in
    `expanding` are those whose definitions are being reduced, and `levels` bounds the
    number of further ones. -/
def reduceSymbol (s : Settings) (definitions : Definitions) :
    Nat → List String → String → Step Term
  | levels, expanding, name =>
    match s.symbols, definitions.lookup name with
    | .replaceDefined, some definition =>
      if name ∈ expanding then ofBuild (Build.make .undefined)
      else
        match levels with
        | 0 => ofBuild (Build.make .undefined)
        | levels + 1 =>
          reduceTerm s (reduceSymbol s definitions levels (name :: expanding)) definition
    | _, _ => pure (.symbol name)

/-- Reduce a term, with what has been reduced so far.  Definitions nest at most as deep
    as there are names. -/
def reduceWith (s : Settings) (definitions : Definitions) (t : Term) : Step Term :=
  reduceTerm s (reduceSymbol s definitions definitions.length []) t

def reduce (s : Settings) (definitions : Definitions) (t : Term) : Build Term := do
  let (result, _) ← reduceWith s definitions t {}
  pure result

def reduceAll (s : Settings) (definitions : Definitions) (terms : List Term) :
    Build (List Term) := do
  let (results, _) ← reduceTerms s (reduceSymbol s definitions definitions.length []) terms {}
  pure results

end Reduction

end EquationSolver
