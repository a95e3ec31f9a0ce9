import EquationSolver.Proofs.Reduction.Symbols
import EquationSolver.Proofs.Reduction.Definitions
import EquationSolver.Proofs.Solver.Origin

/-!
# Symbols and solving

Coefficients, elimination, roots and approximate values build no symbols, so what is made of
terms that mention only certain names mentions only these.
-/

namespace EquationSolver

open Build
open Reduction (Settings)

variable {s : Settings} {definitions : Definitions}

/-! ### What builds no symbol -/

namespace Approximation

theorem addsNoSymbol_imaginaryTerm (im : Float) : (imaginaryTerm im).AddsNoSymbol := by
  unfold imaginaryTerm
  split
  · simp
  · dsimp only
    split_ifs <;> simp

@[simp] theorem addsNoSymbol_toTerm (a : Approximation) (format : ComplexFormat) :
    (a.toTerm format).AddsNoSymbol := by
  unfold toTerm
  split
  · simp
  · simp
  case h_3 z =>
    split
    · simp
    · simp only [addsNoSymbol_bind]
      split
      · unfold polarTerm
        simp only [addsNoSymbol_bind]
        split_ifs <;> simp
      · unfold cartesianTerm
        simp only [addsNoSymbol_bind, addsNoSymbol_imaginaryTerm]
        split_ifs <;> simp

end Approximation

namespace Coefficients

variable {names : List String} {name : String} {t : Term}

theorem addsNoSymbol_linear? {build : Build (List Term × Term)}
    (h : linear? s names t = some build) : build.AddsNoSymbol := by
  obtain ⟨found, -, rfl⟩ := Option.map_eq_some_iff.1 h
  simp [multiplyEach, sumSelected]

theorem addsNoSymbol_polynomial? {build : Build (List Term)}
    (h : polynomial? s name t = some build) : build.AddsNoSymbol := by
  obtain ⟨found, -, rfl⟩ := Option.map_eq_some_iff.1 h
  simp [multiplyEach, sumSelected]

end Coefficients

namespace Linear

theorem addsNoSymbol_augmentedRows (unknowns : List String) (forms : List Term) :
    (augmentedRows s unknowns forms).AddsNoSymbol := by
  induction forms with
  | nil => simp [augmentedRows]
  | cons form rest ih =>
    unfold augmentedRows
    split
    · simp
    case h_2 build hbuild => simp [Coefficients.addsNoSymbol_linear? hbuild, ih]

end Linear

namespace SymbolicMatrix

theorem addsNoSymbol_eliminateColumn (place pivot column : Nat) (rows : List (List Term)) :
    (eliminateColumn s place pivot column rows).AddsNoSymbol := by
  have hclear (pivotRow row : List Term) : (clearRow s column pivotRow row).AddsNoSymbol := by
    unfold clearRow
    dsimp only
    split_ifs <;> simp
  simp [eliminateColumn, normalizeRow, hclear, Term.one]

theorem addsNoSymbol_eliminate (columnsLeft place column : Nat) (rows : List (List Term)) :
    (eliminate s columnsLeft place column rows).AddsNoSymbol := by
  induction columnsLeft generalizing place column rows with
  | zero => simp [eliminate]
  | succ columnsLeft ih =>
    unfold eliminate
    split
    · simp
    · split
      · exact ih _ _ _
      · simp [addsNoSymbol_eliminateColumn, ih]

theorem addsNoSymbol_rank (m : SymbolicMatrix) : (m.rank s definitions).AddsNoSymbol := by
  unfold rank reduce
  simp only [addsNoSymbol_bind]
  split_ifs <;> simp [addsNoSymbol_eliminate, Term.one]

end SymbolicMatrix

namespace Roots

@[simp] theorem addsNoSymbol_neg (x : Term) : (neg s x).AddsNoSymbol := by
  simp [neg]

@[simp] theorem addsNoSymbol_sub (x y : Term) : (sub s x y).AddsNoSymbol := by
  simp [sub]

@[simp] theorem addsNoSymbol_div (x y : Term) : (div s x y).AddsNoSymbol := by
  simp [div]

@[simp] theorem addsNoSymbol_sqrt (x : Term) : (sqrt s x).AddsNoSymbol := by
  simp [sqrt]

@[simp] theorem addsNoSymbol_monomial (k : Int) (powers : List (Term × Nat)) :
    (monomial s k powers).AddsNoSymbol := by
  simp [monomial]

@[simp] theorem addsNoSymbol_polynomial (monomials : List (Int × List (Term × Nat))) :
    (polynomial s monomials).AddsNoSymbol := by
  simp [polynomial]

@[simp] theorem addsNoSymbol_quadratic (a b c : Term) : (quadratic s a b c).AddsNoSymbol := by
  unfold quadratic
  simp only [addsNoSymbol_bind]
  split_ifs <;> simp

theorem addsNoSymbol_multipleRoots (p : Cubic Term) : (multipleRoots s p).AddsNoSymbol := by
  unfold multipleRoots cubicDelta0
  simp only [addsNoSymbol_bind]
  split_ifs <;> simp

theorem addsNoSymbol_cardano (p : Cubic Term) : (cardano s p).AddsNoSymbol := by
  have hroot (delta0 delta1 : Term) : (cardanoRoot s delta0 delta1).AddsNoSymbol := by
    unfold cardanoRoot cubeRootOfHalf
    simp only [addsNoSymbol_bind]
    split_ifs <;> simp
  unfold cardano cubicDelta0
  simp only [addsNoSymbol_bind, hroot]
  split_ifs <;> simp [cardanoPair]

theorem addsNoSymbol_irrationalRoots (delta : Term) (p : Cubic Term) :
    (irrationalRoots s delta p).AddsNoSymbol := by
  have hnumeric (z : ComplexFloat) : (numericRoot s z).AddsNoSymbol := by
    unfold numericRoot
    dsimp only
    split_ifs <;> simp
  unfold irrationalRoots
  split
  · dsimp only
    split_ifs <;> simp [addsNoSymbol_cardano, hnumeric]
  · simp [addsNoSymbol_cardano]

@[simp] theorem addsNoSymbol_ofQuadratic (a b c : Term) : (ofQuadratic s a b c).AddsNoSymbol := by
  simp [ofQuadratic]

@[simp] theorem addsNoSymbol_ofCubic (p : Cubic Term) : (ofCubic s p).AddsNoSymbol := by
  unfold ofCubic cubicDiscriminant
  simp only [addsNoSymbol_bind]
  split
  · simp [rootAndQuadratic, Term.zero]
  · split
    · simp [dividedRoots, rootAndQuadratic]
    · split
      · simp [addsNoSymbol_multipleRoots]
      · simp [addsNoSymbol_irrationalRoots]

end Roots

end EquationSolver
