import EquationSolver.Polynomial.Roots
import EquationSolver.Proofs.Polynomial.Affine
import EquationSolver.Proofs.Pool.Origin
import EquationSolver.Proofs.Sorting

/-!
# What coefficients and roots are built from

The coefficients of a term are built from the term, and the roots of a polynomial and its
discriminant from its coefficients.
-/

namespace EquationSolver

open Build
open Reduction (Settings startsFrom_add startsFrom_mul startsFrom_pow startsFrom_apply)

/-! ### Coefficients -/

namespace Coefficients

variable {parts : List Term} {s : Settings} {t : Term} {names : List String} {name : String}

/-- The factors of a coefficient are among those that have been taken in. -/
theorem coefficient_subset_of_foldlM {τ : Type} {coefficient : τ → List Term}
    {add : τ → Term → Option τ} (hadd : ∀ part factor part', add part factor = some part' →
      coefficient part' ⊆ coefficient part ++ [factor]) {fs : List Term} {part part' : τ}
    (h : fs.foldlM add part = some part') : coefficient part' ⊆ coefficient part ++ fs := by
  induction fs generalizing part with
  | nil =>
    cases h
    exact List.subset_append_left _ _
  | cons factor rest ih =>
    rw [List.foldlM_cons] at h
    obtain ⟨next, hnext, hrest⟩ := Option.bind_eq_some_iff.1 h
    intro u hu
    rcases List.mem_append.1 (ih hrest hu) with hu | hu
    · rcases List.mem_append.1 (hadd _ _ _ hnext hu) with hu | hu
      · exact List.mem_append_left _ hu
      · exact List.mem_append_right _ (List.mem_singleton.1 hu ▸ List.mem_cons_self)
    · exact List.mem_append_right _ (List.mem_cons_of_mem factor hu)

theorem coefficient_subset_of_affineTerm? {part : AffineTerm}
    (h : affineTerm? names t = some part) : part.coefficient ⊆ factors t := by
  refine coefficient_subset_of_foldlM (fun part factor part' hadd => ?_) h
  unfold AffineTerm.addFactor at hadd
  split_ifs at hadd
  · cases hadd
    exact List.Subset.refl _
  · split at hadd
    · cases hadd
      exact List.subset_append_left _ _
    · cases hadd

theorem coefficient_subset_of_polynomialTerm? {part : PolynomialTerm}
    (h : polynomialTerm? name t = some part) : part.coefficient ⊆ factors t := by
  refine coefficient_subset_of_foldlM (fun part factor part' hadd => ?_)
    (Option.filter_eq_some_iff.1 h).1
  unfold PolynomialTerm.addFactor at hadd
  split_ifs at hadd
  · cases hadd
    exact List.Subset.refl _
  · obtain ⟨n, -, rfl⟩ := Option.map_eq_some_iff.1 hadd
    exact List.subset_append_left _ _

theorem factors_mem {k : Known} (h : t ∈ k) : ∀ u ∈ factors t, u ∈ k := by
  cases t with
  | product fs => exact fun u hu => k.child_mem h hu
  | _ => simpa [factors] using h

/-- The products of the coefficients of terms are built from the factors of these. -/
theorem startsFrom_multiplyEach {α τ : Type} [HoldsTerms α] {degree : τ → α}
    {coefficient : τ → List Term} (hdegree : ∀ part, terms (degree part) = []) (found : List τ) :
    (multiplyEach s (found.map fun part => (degree part, coefficient part))).StartsFrom
      (found.flatMap coefficient) := by
  refine startsFrom_each fun p hp => ?_
  obtain ⟨part, hpart, rfl⟩ := List.mem_map.1 hp
  have hproduct : coefficient part ⊆ found.flatMap coefficient :=
    fun u hu => List.mem_flatMap.2 ⟨part, hpart, hu⟩
  exact (startsFrom_mul hproduct).bind fun product => startsFrom_pure (by simp [hdegree])

/-- The factors of the coefficients of the terms of a sum are known with the sum. -/
theorem coefficients_mem {τ : Type} {read : Term → Option τ} {coefficient : τ → List Term}
    (hread : ∀ u part, read u = some part → coefficient part ⊆ factors u) {found : List τ}
    (h : (Reduction.summands t).mapM read = some found) {k : Known} (ht : t ∈ k) :
    ∀ u ∈ found.flatMap coefficient, u ∈ k := by
  intro u hu
  obtain ⟨part, hpart, hu⟩ := List.mem_flatMap.1 hu
  obtain ⟨summand, hsummand, hsome⟩ := exists_of_mem_forall₂ (forall₂_of_mapM h) hpart
  exact factors_mem (Reduction.summands_mem ht summand hsummand) u (hread summand part hsome hu)

theorem trimLeading_subset (s : Settings) (coefficients : List Term) :
    trimLeading s coefficients ⊆ coefficients := by
  cases coefficients with
  | nil => exact List.Subset.refl _
  | cons constant others =>
    refine List.cons_subset_cons _ fun t ht => ?_
    exact List.mem_reverse.1 ((List.dropWhile_suffix _).subset (List.mem_reverse.1 ht))

theorem startsFrom_sumSelected {α : Type} [HoldsTerms α] {selects : α → Bool}
    {products : List (α × Term)} (h : terms products ⊆ parts) :
    (sumSelected selects products).StartsFrom parts := by
  refine startsFrom_add fun t ht => h ?_
  obtain ⟨p, hp, rfl⟩ := List.mem_map.1 ht
  exact mem_terms_list.2 ⟨p, (List.mem_filter.1 hp).1, by simp⟩

/-- The coefficients of an affine function are built from those of its terms. -/
theorem startsFrom_affineTerms {found : List AffineTerm} {build : Build (List Term × Term)}
    (hfound : (Reduction.summands t).mapM (affineTerm? names) = some found)
    (h : linear? s names t = some build) :
    build.StartsFrom (found.flatMap AffineTerm.coefficient) := by
  unfold linear? at h
  rw [hfound, Option.map_some] at h
  obtain rfl := Option.some.inj h
  refine (startsFrom_multiplyEach (fun part => by cases part.unknown <;> rfl) found).bind
    fun products => ?_
  refine (startsFrom_each fun place _ => startsFrom_sumSelected (by simp)).bind
    fun coefficients => ?_
  refine (startsFrom_sumSelected (by simp)).bind fun constant => startsFrom_pure ?_
  simp

theorem startsFrom_linear? {build : Build (List Term × Term)} (h : linear? s names t = some build)
    (ht : t ∈ parts) : build.StartsFrom parts := by
  obtain ⟨found, hfound, -⟩ := Option.map_eq_some_iff.1 h
  exact fun k hparts => startsFrom_affineTerms hfound h k
    (coefficients_mem (fun _ _ => coefficient_subset_of_affineTerm?) hfound (hparts t ht))

/-- The coefficients of a polynomial are built from those of its terms. -/
theorem startsFrom_polynomialTerms {found : List PolynomialTerm} {build : Build (List Term)}
    (hfound : (Reduction.summands t).mapM (polynomialTerm? name) = some found)
    (h : polynomial? s name t = some build) :
    build.StartsFrom (found.flatMap PolynomialTerm.coefficient) := by
  unfold polynomial? at h
  rw [hfound, Option.map_some] at h
  obtain rfl := Option.some.inj h
  refine (startsFrom_multiplyEach (fun _ => rfl) found).bind fun products => ?_
  refine (startsFrom_each fun degree _ => startsFrom_sumSelected (by simp)).bind
    fun coefficients => startsFrom_pure ?_
  simpa using List.subset_append_of_subset_left _ (trimLeading_subset s coefficients)

theorem startsFrom_polynomial? {build : Build (List Term)} (h : polynomial? s name t = some build)
    (ht : t ∈ parts) : build.StartsFrom parts := by
  obtain ⟨found, hfound, -⟩ := Option.map_eq_some_iff.1 h
  exact fun k hparts => startsFrom_polynomialTerms hfound h k
    (coefficients_mem (fun _ _ => coefficient_subset_of_polynomialTerm?) hfound (hparts t ht))

end Coefficients

/-! ### Roots -/

namespace Roots

variable {parts : List Term} {s : Settings} {x y : Term}

theorem startsFrom_neg (hx : x ∈ parts) : (neg s x).StartsFrom parts := by
  unfold neg
  exact (startsFrom_number (-1)).bind fun minusOne => startsFrom_mul (by simp [hx])

theorem startsFrom_sub (hx : x ∈ parts) (hy : y ∈ parts) : (sub s x y).StartsFrom parts := by
  unfold sub
  exact (startsFrom_neg hy).bind fun opposite => startsFrom_add (by simp [hx])

theorem startsFrom_div (hx : x ∈ parts) (hy : y ∈ parts) : (div s x y).StartsFrom parts := by
  unfold div
  refine (startsFrom_number (-1)).bind fun minusOne => ?_
  exact (startsFrom_pow (by simp [hy]) (by simp)).bind fun inverse => startsFrom_mul (by simp [hx])

theorem startsFrom_sqrt (hx : x ∈ parts) : (sqrt s x).StartsFrom parts := by
  unfold sqrt
  exact (startsFrom_number (1 / 2)).bind fun half => startsFrom_pow (by simp [hx]) (by simp)

theorem startsFrom_monomial (k : Int) {powers : List (Term × Nat)}
    (h : powers.map Prod.fst ⊆ parts) : (monomial s k powers).StartsFrom parts := by
  unfold monomial
  refine (startsFrom_number (k : Rat)).bind fun coefficient => ?_
  refine (startsFrom_each fun p hp => ?_).bind fun factors => startsFrom_mul (by simp)
  exact (startsFrom_number (p.2 : Rat)).bind fun exponent =>
    startsFrom_pow (by simp [h (List.mem_map_of_mem hp)]) (by simp)

theorem startsFrom_polynomial {monomials : List (Int × List (Term × Nat))}
    (h : (monomials.flatMap fun m => m.2.map Prod.fst) ⊆ parts) :
    (polynomial s monomials).StartsFrom parts := by
  unfold polynomial
  refine (startsFrom_each fun m hm => startsFrom_monomial m.1 fun t ht => ?_).bind fun ts => ?_
  · exact h (List.mem_flatMap.2 ⟨m, hm, ht⟩)
  · exact startsFrom_add (by simp)

theorem startsFrom_quadratic {a b c : Term} (ha : a ∈ parts) (hb : b ∈ parts) (hc : c ∈ parts) :
    (quadratic s a b c).StartsFrom parts := by
  unfold quadratic
  refine (startsFrom_polynomial (by simp [ha, hb, hc])).bind fun delta => ?_
  refine (startsFrom_neg (by simp [hb])).bind fun opposite => ?_
  refine (startsFrom_monomial 2 (by simp [ha])).bind fun twice => ?_
  split_ifs
  · exact (startsFrom_div (by simp) (by simp)).bind fun root => startsFrom_pure (by simp)
  · refine (startsFrom_sqrt (by simp)).bind fun root => ?_
    refine (startsFrom_sub (by simp) (by simp)).bind fun low => ?_
    refine (startsFrom_add (by simp)).bind fun high => ?_
    refine (startsFrom_div (by simp) (by simp)).bind fun first => ?_
    exact (startsFrom_div (by simp) (by simp)).bind fun second => startsFrom_pure (by simp)

/-! ### Cubics -/

section Cubic

variable {p : Cubic Term} (ha : p.a ∈ parts) (hb : p.b ∈ parts) (hc : p.c ∈ parts)
  (hd : p.d ∈ parts)

include ha hb hc

theorem startsFrom_cubicDelta0 : (cubicDelta0 s p).StartsFrom parts :=
  startsFrom_polynomial (by simp [ha, hb, hc])

include hd

theorem startsFrom_cubicDiscriminant : (cubicDiscriminant s p).StartsFrom parts :=
  startsFrom_polynomial (by simp [ha, hb, hc, hd])

theorem startsFrom_multipleRoots : (multipleRoots s p).StartsFrom parts := by
  unfold multipleRoots
  refine (startsFrom_cubicDelta0 ha hb hc).bind fun delta0 => ?_
  split_ifs
  · refine (startsFrom_neg (by simp [hb])).bind fun opposite => ?_
    refine (startsFrom_monomial 3 (by simp [ha])).bind fun thrice => ?_
    exact (startsFrom_div (by simp) (by simp)).bind fun root => startsFrom_pure (by simp)
  · refine (startsFrom_polynomial (by simp [ha, hb, hc, hd])).bind fun doubleTop => ?_
    refine (startsFrom_monomial 2 (by simp)).bind fun doubleBottom => ?_
    refine (startsFrom_div (by simp) (by simp)).bind fun double => ?_
    refine (startsFrom_polynomial (by simp [ha, hb, hc, hd])).bind fun simpleTop => ?_
    refine (startsFrom_mul (by simp [ha])).bind fun simpleBottom => ?_
    exact (startsFrom_div (by simp) (by simp)).bind fun simple => startsFrom_pure (by simp)

end Cubic

theorem startsFrom_cubeRootOfHalf (hx : x ∈ parts) : (cubeRootOfHalf s x).StartsFrom parts := by
  unfold cubeRootOfHalf
  refine (startsFrom_number (1 / 2)).bind fun half => ?_
  exact (startsFrom_mul (by simp [hx])).bind fun halved => startsFrom_apply .cbrt (by simp)

theorem startsFrom_cardanoRoot {delta0 delta1 : Term} (h0 : delta0 ∈ parts) (h1 : delta1 ∈ parts) :
    (cardanoRoot s delta0 delta1).StartsFrom parts := by
  unfold cardanoRoot
  refine (startsFrom_polynomial (by simp [h0, h1])).bind fun inner => ?_
  refine (startsFrom_sqrt (by simp)).bind fun root => ?_
  refine (startsFrom_add (by simp [h1])).bind fun plus => ?_
  refine (startsFrom_cubeRootOfHalf (by simp)).bind fun first => ?_
  split_ifs
  · exact (startsFrom_sub (by simp [h1]) (by simp)).bind fun minus =>
      startsFrom_cubeRootOfHalf (by simp)
  · exact startsFrom_pure (by simp)

theorem startsFrom_cardanoPair {p : Cubic Term} {thrice c ratio : Term} (ha : p.a ∈ parts)
    (hb : p.b ∈ parts) (hthrice : thrice ∈ parts) (hc : c ∈ parts) (hratio : ratio ∈ parts) :
    (cardanoPair s p thrice c ratio).StartsFrom parts := by
  unfold cardanoPair
  refine (startsFrom_neg hb).bind fun opposite => ?_
  refine (startsFrom_div (by simp) (by simp [hthrice])).bind fun center => ?_
  refine (startsFrom_monomial 6 (by simp [ha])).bind fun sixfold => ?_
  refine (startsFrom_add (by simp [hc, hratio])).bind fun sum => ?_
  refine (startsFrom_div (by simp) (by simp)).bind fun spread => ?_
  refine (startsFrom_add (by simp)).bind fun realPart => ?_
  refine (startsFrom_number 3).bind fun three => ?_
  refine (startsFrom_sqrt (by simp)).bind fun sqrtThree => ?_
  refine (startsFrom_number (1 / 2)).bind fun half => ?_
  refine (startsFrom_sub (by simp [hc]) (by simp [hratio])).bind fun difference => ?_
  refine (startsFrom_div (by simp) (by simp [hthrice])).bind fun gap => ?_
  refine (startsFrom_make (List.nil_subset _)).bind fun i => ?_
  refine (startsFrom_mul (by simp)).bind fun imaginary => ?_
  refine (startsFrom_sub (by simp) (by simp)).bind fun low => ?_
  exact (startsFrom_add (by simp)).bind fun high => startsFrom_pure (by simp)

theorem startsFrom_cardano {p : Cubic Term} (ha : p.a ∈ parts) (hb : p.b ∈ parts)
    (hc : p.c ∈ parts) (hd : p.d ∈ parts) : (cardano s p).StartsFrom parts := by
  unfold cardano
  refine (startsFrom_cubicDelta0 ha hb hc).bind fun delta0 => ?_
  refine (startsFrom_polynomial (by simp [ha, hb, hc, hd])).bind fun delta1 => ?_
  refine (startsFrom_cardanoRoot (by simp) (by simp)).bind fun c => ?_
  refine (startsFrom_div (by simp) (by simp)).bind fun ratio => ?_
  refine (startsFrom_add (by simp [hb])).bind fun sum => ?_
  refine (startsFrom_neg (by simp)).bind fun opposite => ?_
  refine (startsFrom_monomial 3 (by simp [ha])).bind fun thrice => ?_
  refine (startsFrom_div (by simp) (by simp)).bind fun first => ?_
  split_ifs
  · exact (startsFrom_make (List.nil_subset _)).bind fun marker => startsFrom_pure (by simp)
  · exact (startsFrom_cardanoPair (by simp [ha]) (by simp [hb]) (by simp) (by simp) (by simp)).bind
      fun pair => startsFrom_pure (by simp)

theorem startsFrom_numericRoot (z : ComplexFloat) : (numericRoot s z).StartsFrom parts := by
  unfold numericRoot
  generalize (if isNegligible z.re z.im then (0 : Float) else z.re) = re
  dsimp only
  split_ifs
  · exact startsFrom_double re
  · exact startsFrom_make (List.nil_subset _)
  · exact Approximation.startsFrom_toTerm _ _

theorem startsFrom_irrationalRoots {p : Cubic Term} (delta : Term) (ha : p.a ∈ parts)
    (hb : p.b ∈ parts) (hc : p.c ∈ parts) (hd : p.d ∈ parts) :
    (irrationalRoots s delta p).StartsFrom parts := by
  unfold irrationalRoots
  split
  · dsimp only
    split_ifs
    · exact (startsFrom_cardano ha hb hc hd).bind fun roots => startsFrom_pure (by simp)
    · exact (startsFrom_each fun x _ => startsFrom_double x).bind fun roots =>
        startsFrom_pure (by simp)
    · exact (startsFrom_each fun z _ => startsFrom_numericRoot z).bind fun roots =>
        startsFrom_pure (by simp)
  · exact (startsFrom_cardano ha hb hc hd).bind fun roots => startsFrom_pure (by simp)

/-! ### Roots and their discriminant -/

instance : HoldsTerms PolynomialRoots := ⟨fun found => found.delta :: found.roots⟩

theorem distinct_subset (roots : List Term) : distinct roots ⊆ roots := by
  have hstep : ∀ rest found : List Term,
      rest.foldl (fun found root => if root ∈ found then found else found ++ [root]) found ⊆
        found ++ rest := by
    intro rest
    induction rest with
    | nil => exact fun found => List.subset_append_left _ _
    | cons root rest ih =>
      intro found t ht
      rcases List.mem_append.1 (ih _ ht) with ht | ht
      · dsimp only at ht
        split_ifs at ht
        · exact List.mem_append_left _ ht
        · simp only [List.mem_append, List.mem_singleton] at ht
          rcases ht with ht | rfl <;> simp [ht]
      · simp [ht]
  exact hstep roots []

theorem ascending_subset (s : Settings) (roots : List Term) : ascending s roots ⊆ roots := by
  unfold ascending
  split
  · intro t ht
    obtain ⟨p, hp, rfl⟩ := List.mem_map.1 ht
    exact (List.of_mem_zip ((sortBy_perm _ _).mem_iff.1 hp)).2
  · exact List.Subset.refl _

theorem startsFrom_finish {delta : Term} {isApproximate : Bool} {roots : List Term}
    (hdelta : delta ∈ parts) (hroots : roots ⊆ parts) :
    (pure (finish s delta isApproximate roots) : Build PolynomialRoots).StartsFrom parts :=
  startsFrom_pure (List.cons_subset.2 ⟨hdelta, fun _ ht =>
    hroots (distinct_subset roots (ascending_subset s _ ht))⟩)

theorem startsFrom_ofQuadratic {a b c : Term} (ha : a ∈ parts) (hb : b ∈ parts) (hc : c ∈ parts) :
    (ofQuadratic s a b c).StartsFrom parts := by
  unfold ofQuadratic
  exact (startsFrom_quadratic ha hb hc).bind fun found =>
    startsFrom_finish (by simp) (by simp)

theorem startsFrom_rootAndQuadratic {root a b c : Term} (hroot : root ∈ parts) (ha : a ∈ parts)
    (hb : b ∈ parts) (hc : c ∈ parts) : (rootAndQuadratic s root a b c).StartsFrom parts := by
  unfold rootAndQuadratic
  exact (startsFrom_quadratic ha hb hc).bind fun found => startsFrom_pure (by simp [hroot])

theorem startsFrom_dividedRoots {a : Term} (p : Cubic Rat) (r : Rat) (ha : a ∈ parts) :
    (dividedRoots s a p r).StartsFrom parts := by
  unfold dividedRoots
  refine (startsFrom_number _).bind fun root => ?_
  refine (startsFrom_number _).bind fun b => (startsFrom_number _).bind fun c => ?_
  exact startsFrom_rootAndQuadratic (by simp) (by simp [ha]) (by simp) (by simp)

theorem startsFrom_ofCubic {p : Cubic Term} (ha : p.a ∈ parts) (hb : p.b ∈ parts)
    (hc : p.c ∈ parts) (hd : p.d ∈ parts) : (ofCubic s p).StartsFrom parts := by
  unfold ofCubic
  refine (startsFrom_cubicDiscriminant ha hb hc hd).bind fun delta => ?_
  split
  · refine (startsFrom_make (List.nil_subset _)).bind fun zero => ?_
    refine (startsFrom_rootAndQuadratic (by simp) (by simp [ha]) (by simp [hb]) (by simp [hc])).bind
      fun roots => ?_
    exact startsFrom_finish (by simp) (by simp)
  · split
    · refine (startsFrom_dividedRoots _ _ (by simp [ha])).bind fun roots => ?_
      exact startsFrom_finish (by simp) (by simp)
    · split
      · refine (startsFrom_multipleRoots (by simp [ha]) (by simp [hb]) (by simp [hc])
          (by simp [hd])).bind fun roots => ?_
        exact startsFrom_finish (by simp) (by simp)
      · refine (startsFrom_irrationalRoots delta (by simp [ha]) (by simp [hb]) (by simp [hc])
          (by simp [hd])).bind fun found => ?_
        exact startsFrom_finish (by simp) (by simp)

end Roots

end EquationSolver
