import EquationSolver.Polynomial.Roots
import EquationSolver.Proofs.Sorting

/-!
# The number of roots

A quadratic has at most two roots in closed form and a cubic at most three, however their
coefficients turn out.  Dropping repeated roots and sorting them does not add any.
-/

namespace EquationSolver

namespace Roots

open Reduction (Settings)

variable (s : Settings)

theorem length_distinct (roots : List Term) : (distinct roots).length ≤ roots.length := by
  have hfold (roots found : List Term) :
      (roots.foldl (fun found root => if root ∈ found then found else found ++ [root])
        found).length ≤ found.length + roots.length := by
    induction roots generalizing found with
    | nil => exact Nat.le_refl _
    | cons root rest ih =>
      rw [List.foldl_cons, List.length_cons]
      by_cases h : root ∈ found
      · rw [if_pos h]
        have hrest := ih found
        omega
      · rw [if_neg h]
        have hrest := ih (found ++ [root])
        rw [List.length_append, List.length_singleton] at hrest
        omega
  have hroots := hfold roots []
  rw [List.length_nil, Nat.zero_add] at hroots
  exact hroots

theorem length_ascending (roots : List Term) : (ascending s roots).length ≤ roots.length := by
  unfold ascending
  split
  case h_1 values hvalues =>
    rw [List.length_map, (sortBy_perm _ _).length_eq, List.length_zip]
    exact Nat.min_le_right _ _
  case h_2 => exact Nat.le_refl _

theorem length_finish (delta : Term) (isApproximate : Bool) (roots : List Term) :
    (finish s delta isApproximate roots).roots.length ≤ roots.length :=
  Nat.le_trans (length_ascending s _) (length_distinct roots)

theorem length_quadratic (a b c : Term) : (quadratic s a b c).value.2.length ≤ 2 := by
  unfold quadratic
  simp only [Build.value_bind]
  split
  · exact Nat.le_succ 1
  · exact Nat.le_refl 2

theorem length_ofQuadratic (a b c : Term) : (ofQuadratic s a b c).value.roots.length ≤ 2 :=
  Nat.le_trans (length_finish s _ _ _) (length_quadratic s a b c)

/-! ### Cubics -/

theorem length_rootAndQuadratic (root a b c : Term) :
    (rootAndQuadratic s root a b c).value.length ≤ 3 :=
  Nat.succ_le_succ (length_quadratic s a b c)

theorem length_multipleRoots (p : Cubic Term) : (multipleRoots s p).value.length ≤ 3 := by
  unfold multipleRoots
  simp only [Build.value_bind]
  split
  · exact Nat.le_add_left 1 2
  · exact Nat.le_succ 2

theorem length_cardano (p : Cubic Term) : (cardano s p).value.length ≤ 3 := by
  unfold cardano
  simp only [Build.value_bind]
  split
  · exact Nat.le_succ 2
  · exact Nat.le_refl 3

theorem length_numericCardano (p : Cubic ComplexFloat) : (numericCardano p).length ≤ 3 := by
  unfold numericCardano
  extract_lets a b c d delta0 delta1 root first big ζ rootAt
  split
  · exact Nat.le_add_left 1 2
  · exact Nat.le_refl 3

theorem length_irrationalRoots (delta : Term) (p : Cubic Term) :
    (irrationalRoots s delta p).value.1.length ≤ 3 := by
  unfold irrationalRoots
  split
  · dsimp only
    split
    · exact length_cardano s p
    · split
      · exact Nat.le_of_eq rfl
      · simp only [Build.value_bind, Build.value_each, Build.value_pure, List.length_map]
        exact length_numericCardano _
  · exact length_cardano s p

theorem length_ofCubic (p : Cubic Term) : (ofCubic s p).value.roots.length ≤ 3 := by
  unfold ofCubic
  rw [Build.value_bind]
  split
  · exact Nat.le_trans (length_finish s _ _ _) (length_rootAndQuadratic s _ _ _ _)
  · split
    · exact Nat.le_trans (length_finish s _ _ _) (length_rootAndQuadratic s _ _ _ _)
    · split
      · exact Nat.le_trans (length_finish s _ _ _) (length_multipleRoots s p)
      · exact Nat.le_trans (length_finish s _ _ _) (length_irrationalRoots s _ p)

end Roots

end EquationSolver
