import EquationSolver.Json.Configuration
import EquationSolver.Number.Numeral
import EquationSolver.Solver.EquationSystem
import EquationSolver.Term.Printer
import EquationSolver.Proofs.Value.Reduction
import EquationSolver.Proofs.Reduction.Memory
import EquationSolver.Proofs.Reading.Text
import EquationSolver.Proofs.Expanded.Handles
import EquationSolver.Proofs.Pool.Reduction
import EquationSolver.Proofs.Solver.ExactSolve
import EquationSolver.Proofs.Solver.Passes
import EquationSolver.Proofs.Solver.Sides
import EquationSolver.Proofs.Matrix.Rank
import EquationSolver.Proofs.Solver.Answers
import EquationSolver.Proofs.Solver.Listing
import EquationSolver.Proofs.Matrix.Solutions
import EquationSolver.Proofs.Number.PerfectPower
import EquationSolver.Proofs.Number.Divisor
import EquationSolver.Proofs.Number.Size
import EquationSolver.Proofs.Polynomial.Affine
import EquationSolver.Proofs.Value.Real
import EquationSolver.Proofs.Value.Symbols
import EquationSolver.Proofs.Matrix.Echelon
import EquationSolver.Proofs.Solver.Consistency
import EquationSolver.Proofs.Solver.Reading
import EquationSolver.Proofs.Solver.Session
import EquationSolver.Proofs.Solver.Verdict
import EquationSolver.Proofs.Solver.Workspace
import EquationSolver.Proofs.Order.Handles
import EquationSolver.Proofs.Reading.Consumption
import EquationSolver.Proofs.Reading.Acceptance
import EquationSolver.Proofs.Order.Nodes
import EquationSolver.Proofs.Order.Degree
import EquationSolver.Proofs.Pool.Independence
import EquationSolver.Proofs.Reduction.Symbols
import EquationSolver.Proofs.Solver.Symbols
import EquationSolver.Proofs.Reading.Names
import EquationSolver.Proofs.Solver.Definitions
import EquationSolver.Proofs.Solver.Independence
import EquationSolver.Proofs.Matrix.Numbers
import EquationSolver.Proofs.Solver.Exact
import EquationSolver.Proofs.Solver.Outcome
import EquationSolver.Proofs.Solver.Permutation
import EquationSolver.Proofs.Matrix.Rationals
import EquationSolver.Proofs.Matrix.SymbolicZeros
import EquationSolver.Proofs.Solver.Parameters
import EquationSolver.Proofs.Solver.RationalSystems
import EquationSolver.Proofs.Solver.Pins
import EquationSolver.Proofs.Solver.Parametric
import EquationSolver.Proofs.Reduction.Idempotence
import EquationSolver.Proofs.Reduction.Meaning
import EquationSolver.Proofs.Reduction.Roots
import EquationSolver.Proofs.Value.NegativePowers
import EquationSolver.Proofs.Polynomial.Linear
import EquationSolver.Proofs.Polynomial.Completeness
import EquationSolver.Proofs.Polynomial.Cardano
import EquationSolver.Proofs.Reduction.Substitution
import EquationSolver.Proofs.Reduction.Expansion
import EquationSolver.Proofs.Reduction.Marks
import EquationSolver.Proofs.Reduction.Shape
import EquationSolver.Proofs.Reduction.Rearrangement
import EquationSolver.Proofs.Number.Nearest
import EquationSolver.Proofs.Number.Approximation
import EquationSolver.Proofs.Polynomial.Ascending
import EquationSolver.Proofs.Number.Decimal
import EquationSolver.Proofs.Solver.Collection
import EquationSolver.Proofs.Solver.Refusal
import EquationSolver.Proofs.Value.Principal
import EquationSolver.Proofs.Reading.Approximate
import EquationSolver.Proofs.Value.Difference
import EquationSolver.Proofs.Solver.Agreement
import EquationSolver.Proofs.Number.Display
import EquationSolver.Proofs.Search.Enumeration
import EquationSolver.Proofs.Search.Brent
import EquationSolver.Proofs.Solver.Search
