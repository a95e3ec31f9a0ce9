import EquationSolver.Proofs.Polynomial.Affine
import EquationSolver.Proofs.Polynomial.Arithmetic
import EquationSolver.Proofs.Polynomial.Roots
import EquationSolver.Proofs.Value.Complex
import Mathlib.Algebra.QuadraticDiscriminant

/-!
# Roots of quadratics

The roots of a quadratic with exact coefficients are put together from the square root of its
discriminant.  Read as complex numbers, they are the solutions of the equation and no others: in
the real format a negative discriminant leaves a mark only, in the others it is the magnitude
whose root is drawn, with the imaginary unit before it.
-/

namespace EquationSolver

namespace Roots

open Reduction (Settings)

variable {s : Settings}

/-! ### Roots as they are listed -/

section Listing

variable (s) (roots : List Term)

theorem perm_ascending : (ascending s roots).Perm roots := by
  unfold ascending
  split
  case h_1 values hvalues =>
    have hlength : roots.length ≤ values.length :=
      (forall₂_of_mapM hvalues).length_eq.le
    refine ((sortBy_perm _ _).map _).trans (List.Perm.of_eq ?_)
    exact List.map_snd_zip hlength
  case h_2 => exact .refl roots

/-- Roots are collected without repetitions after those that have been found. -/
theorem nodup_and_mem_collect {found : List Term} (hfound : found.Nodup) :
    let kept := roots.foldl
      (fun found root => if root ∈ found then found else found ++ [root]) found
    kept.Nodup ∧ ∀ root, root ∈ kept ↔ root ∈ found ∨ root ∈ roots := by
  induction roots generalizing found with
  | nil => exact ⟨hfound, fun root => by simp⟩
  | cons first rest ih =>
    rw [List.foldl_cons]
    by_cases hfirst : first ∈ found
    · rw [if_pos hfirst]
      obtain ⟨hnodup, hmem⟩ := ih hfound
      refine ⟨hnodup, fun root => (hmem root).trans ?_⟩
      rw [List.mem_cons]
      constructor
      · exact fun h => h.imp_right .inr
      · rintro (h | rfl | h)
        exacts [.inl h, .inl hfirst, .inr h]
    · have hadded : (found ++ [first]).Nodup := by
        rw [← List.concat_eq_append]
        exact hfound.concat hfirst
      rw [if_neg hfirst]
      obtain ⟨hnodup, hmem⟩ := ih hadded
      refine ⟨hnodup, fun root => (hmem root).trans ?_⟩
      rw [List.mem_append, List.mem_singleton, List.mem_cons, or_assoc]

theorem nodup_and_mem_distinct :
    (distinct roots).Nodup ∧ ∀ root, root ∈ distinct roots ↔ root ∈ roots := by
  obtain ⟨hnodup, hmem⟩ := nodup_and_mem_collect roots List.nodup_nil
  exact ⟨hnodup, fun root => (hmem root).trans (by simp)⟩

/-- The roots that are found are listed once each, in some order. -/
theorem perm_finish (delta : Term) (isApproximate : Bool) :
    (finish s delta isApproximate roots).roots.Perm roots.dedup := by
  refine (perm_ascending s _).trans ?_
  obtain ⟨hnodup, hmem⟩ := nodup_and_mem_distinct roots
  refine (List.perm_ext_iff_of_nodup hnodup (List.nodup_dedup roots)).2 fun root => ?_
  rw [hmem, List.mem_dedup]

/-- The roots of a quadratic are exact, and those that are found are listed once each. -/
theorem perm_ofQuadratic (x y z : Term) :
    (ofQuadratic s x y z).value.isApproximate = false ∧
      (ofQuadratic s x y z).value.roots.Perm (quadratic s x y z).value.2.dedup :=
  ⟨rfl, perm_finish s (quadratic s x y z).value.2 (quadratic s x y z).value.1 false⟩

end Listing

/-! ### The terms of the roots -/

variable {a b c : Rat}

/-- The discriminant is exact if the square of the middle coefficient is. -/
theorem polynomial_discrim (hb : s.Raises b 2) :
    (polynomial s [(1, [(.number b, 2)]), (-4, [(.number a, 1), (.number c, 1)])]).value =
      .number (discrim a b c) := by
  have hdelta := polynomial_numbers (s := s) [(1, [(b, 2)]), (-4, [(a, 1), (c, 1)])]
    (by simp [hb, Integer.halfWordCount])
  refine hdelta.trans (congrArg Term.number ?_)
  simp [discrim]
  ring

/-- The square root of the discriminant of a quadratic. -/
def discrimRoot (s : Settings) (a b c : Rat) : Term :=
  (sqrt s (.number (discrim a b c))).value

/-- What is found for a quadratic with exact coefficients, from its discriminant and the root of
    it. -/
theorem quadratic_value (hb : s.Raises b 2) :
    (quadratic s (.number a) (.number b) (.number c)).value =
      (.number (discrim a b c),
        if discrim a b c = 0 then [(div s (.number (-b)) (.number (2 * a))).value]
        else [(div s (sub s (.number (-b)) (discrimRoot s a b c)).value (.number (2 * a))).value,
          (div s (Reduction.add [.number (-b), discrimRoot s a b c]).value
            (.number (2 * a))).value]) := by
  have htwice := monomial_number (s := s) 2 a
  rw [Int.cast_ofNat] at htwice
  simp only [quadratic, Build.value_bind, polynomial_discrim hb, neg_number, htwice]
  by_cases hzero : discrim a b c = 0
  · rw [if_pos hzero, if_pos (Term.nullity_number_eq_yes_iff.2 hzero)]
    simp
  · rw [if_neg hzero, if_neg fun h => hzero (Term.nullity_number_eq_yes_iff.1 h)]
    simp [discrimRoot]

/-! ### The root of the discriminant -/

/-- The square root of a real number that is not negative. -/
theorem sqrt_denotes (hlimit : s.limits.maxExponentBits = 4096) {t : Term} {x : ℝ}
    (ht : Reading.complex.Denotes t x) (hx : 0 ≤ x) :
    Reading.complex.Denotes (sqrt s t).value (Real.sqrt x : ℝ) := by
  have hpower := Reduction.pow_denotes_rpow (q := 1 / 2) hlimit ht hx (by norm_num)
  have hhalf : ((1 / 2 : Rat) : ℝ) = 1 / 2 := by norm_num
  rw [hhalf, ← Real.sqrt_eq_rpow] at hpower
  simpa [sqrt] using hpower

theorem discrimRoot_denotes (hlimit : s.limits.maxExponentBits = 4096)
    (hdelta : 0 ≤ discrim a b c) :
    Reading.complex.Denotes (discrimRoot s a b c) (Real.sqrt (discrim a b c : Rat) : ℝ) := by
  have hnumber := (Reading.Denotes.number (R := .complex) (discrim a b c)).congr
    (Complex.ofReal_ratCast _).symm
  exact sqrt_denotes hlimit hnumber (by exact_mod_cast hdelta)

theorem half_isDrawable (hlimits : s.limits = {}) : Reduction.IsDrawable s (1 / 2) := by
  have hhalf : (1 / 2 : Rat).num = 1 ∧ (1 / 2 : Rat).den = 2 := by norm_num
  have hlimit : s.limits.maxRootIndex = 64 := by rw [hlimits]
  rw [Reduction.IsDrawable, hhalf.1, hhalf.2, hlimit]
  decide

/-- In the real format the root of a negative discriminant is only marked. -/
theorem discrimRoot_of_real (hlimits : s.limits = {}) (hformat : s.complexFormat = .real)
    (hdelta : discrim a b c < 0) : discrimRoot s a b c = .nonreal := by
  have hden : (1 / 2 : Rat).den = 2 := by norm_num
  simp only [discrimRoot, sqrt, Build.value_bind, Build.value_number]
  rw [Reduction.pow_of_neg hdelta (by rw [hden]; decide), if_pos (half_isDrawable hlimits),
    Reduction.negativePower, hden, if_neg (by decide), if_pos hformat]
  rfl

theorem fits_abs (s : Settings) (x : Rat) (n : Nat) : s.fits x.abs n = s.fits x n := by
  have habs : x.abs.num.natAbs = x.num.natAbs ∧ x.abs.den = x.den := by
    rcases le_or_gt 0 x with h | h
    · simp [Rat.abs, h]
    · simp [Rat.abs, h.not_ge]
  rw [Settings.fits, Settings.fits, Settings.magnitudeBits, Settings.magnitudeBits, habs.1, habs.2]

/-- A root that passes the size test does not depend on how it would be left. -/
theorem radical_of_fits {base : Rat} {p : Int} {q : Nat}
    (hfits : s.fits base ((p / (q : Int)).natAbs + q) = true) (u u' : Build Term) :
    Reduction.radical s base p q u = Reduction.radical s base p q u' := by
  unfold Reduction.radical
  simp only [hfits, Bool.not_true, Bool.false_eq_true, if_false]

theorem radical_denotes_sqrt (hlimit : s.limits.maxExponentBits = 4096) {x : Rat} (hx : 0 < x)
    (hfits : s.fits x 2 = true) (unreduced : Build Term) :
    Reading.complex.Denotes (Reduction.radical s x 1 2 unreduced).value (Real.sqrt x : ℝ) := by
  have hhalf : (1 / 2 : Rat).num = 1 ∧ (1 / 2 : Rat).den = 2 := by norm_num
  obtain ⟨hdefined, hpower⟩ := hasRealPowers_complex x (1 / 2) hx
  have hleft : Reading.complex.Denotes (Build.make (.power (.number x) (.number (1 / 2)))).value
      (Reading.complex.power (x : ℂ) (1 / 2)) :=
    ⟨Reading.complex.hasValue_power.2 ⟨Reading.complex.hasValue_number _, by simpa using hdefined⟩,
      by simp [Reading.value_power]⟩
  have hdrawn := Reduction.drawsRoots_complex hlimit x (1 / 2) hx (by rw [hhalf.2]; decide)
    hdefined _ hleft
  rw [hhalf.1, hhalf.2, hpower] at hdrawn
  rw [radical_of_fits (p := 1) (q := 2) hfits unreduced]
  refine hdrawn.congr ?_
  rw [Real.sqrt_eq_rpow]
  norm_num

/-- In the other formats the root of a negative discriminant is the imaginary unit times the root
    of its magnitude. -/
theorem discrimRoot_denotes_of_neg (hlimits : s.limits = {}) (hformat : s.complexFormat ≠ .real)
    (hdelta : discrim a b c < 0) (hfits : s.fits (discrim a b c) 2 = true) :
    Reading.complex.Denotes (discrimRoot s a b c)
      (Complex.I * (Real.sqrt (-discrim a b c : Rat) : ℝ)) := by
  have hhalf : (1 / 2 : Rat).num = 1 ∧ (1 / 2 : Rat).den = 2 := by norm_num
  have hlimit : s.limits.maxExponentBits = 4096 := by rw [hlimits]
  simp only [discrimRoot, sqrt, Build.value_bind, Build.value_number]
  generalize discrim a b c = delta at *
  have habs : delta.abs = -delta := Reduction.abs_eq_neg hdelta
  have hradical := radical_denotes_sqrt hlimit (neg_pos.2 hdelta) (by rwa [← habs, fits_abs])
    (Build.make (.power (.number delta) (.number (1 / 2))))
  have hunit : (Reduction.powWithin s 999999 (.constant .i) (.number ((1 : Int) : Rat))).value =
      .constant .i := by
    rw [Reduction.powWithin, Reduction.powWith]
    · rfl
    · intro b hb
      cases hb
  rw [Reduction.pow_of_neg hdelta (by rw [hhalf.2]; decide), if_pos (half_isDrawable hlimits),
    Reduction.negativePower_complex hformat hhalf.2, hhalf.1, hhalf.2, hunit, habs]
  refine ((Reduction.keeps_mulWithin_powWithin (Reduction.drawsRoots_complex hlimit) 999999).1 _
    ?_).congr ?_
  · intro t ht
    rcases List.mem_pair.1 ht with rfl | rfl
    · trivial
    · exact hradical.hasValue
  · rw [List.map_cons, List.map_singleton, List.prod_pair, hradical.value_eq]
    rfl

/-! ### The mark of a root that is not real -/

section Nonreal

variable {t u : Term} {w : ℂ}

theorem add_nonreal (ht : Reading.complex.HasValue t) :
    (Reduction.add [t, .nonreal]).value = .nonreal := by
  have hflat : ∀ u ∈ [t, .nonreal].flatMap Reduction.summands,
      u = .nonreal ∨ Reduction.IsPlain u := by
    intro u hu
    rw [List.flatMap_cons, List.mem_append] at hu
    rcases hu with hu | hu
    · exact .inr (Reading.complex.isPlain (Reduction.hasValue_of_mem_summands ht hu))
    · exact .inl (by simpa [Reduction.summands] using hu)
  have hnonreal : Term.nonreal ∈ [t, .nonreal].flatMap Reduction.summands :=
    List.mem_flatMap.2 ⟨.nonreal, by simp, List.mem_singleton_self _⟩
  unfold Reduction.add
  simp only [Reduction.poison?_eq_nonreal hflat hnonreal]
  rfl

theorem mul_nonreal (factors : List Term)
    (h : ∀ t ∈ factors, t = .nonreal ∨ Reading.complex.HasValue t) (hmem : .nonreal ∈ factors) :
    (Reduction.mul s factors).value = .nonreal := by
  have hflat : ∀ t ∈ Reduction.flatFactorsOfAll factors, t = .nonreal ∨ Reduction.IsPlain t := by
    rw [Reduction.flatFactorsOfAll_eq_flatMap]
    intro t ht
    obtain ⟨u, hu, htu⟩ := List.mem_flatMap.1 ht
    rcases h u hu with rfl | hvalue
    · exact .inl (List.mem_singleton.1 htu)
    · exact .inr (Reading.complex.isPlain ((Reduction.flatFactors_value u hvalue).1 t htu))
  have hnonreal : Term.nonreal ∈ Reduction.flatFactorsOfAll factors := by
    rw [Reduction.flatFactorsOfAll_eq_flatMap]
    exact List.mem_flatMap.2 ⟨.nonreal, hmem, List.mem_singleton_self _⟩
  rw [Reduction.mul, Reduction.maxDepth_eq_succ, Reduction.mulWithin, Reduction.mulWith]
  simp only [Reduction.absorb]
  rw [Reduction.poison?_eq_nonreal (fun t ht => hflat t (List.mem_of_mem_filter ht))
    (List.mem_filter.2 ⟨hnonreal, rfl⟩)]
  rfl

theorem neg_nonreal : (neg s .nonreal).value = .nonreal := by
  have hproduct := mul_nonreal (s := s) [.number (-1), .nonreal]
    (by simp [Reading.complex.hasValue_number]) (by simp)
  simpa [neg] using hproduct

theorem sub_nonreal (ht : Reading.complex.HasValue t) : (sub s t .nonreal).value = .nonreal := by
  simp only [sub, Build.value_bind, neg_nonreal, add_nonreal ht]

theorem div_nonreal (hlimit : s.limits.maxExponentBits = 4096)
    (hu : Reading.complex.Denotes u w) (hw : w ≠ 0) : (div s .nonreal u).value = .nonreal := by
  obtain ⟨hu, rfl⟩ := hu
  have hinverse :=
    (Reduction.inverse_denotes (Reduction.drawsRoots_complex hlimit) hu hw).hasValue
  have hproduct := mul_nonreal (s := s) [.nonreal, (Reduction.pow s u (.number (-1))).value]
    (by simp [hinverse]) (by simp)
  simpa [div] using hproduct

end Nonreal

/-! ### Solutions -/

/-- The solutions of a quadratic equation in a field. -/
def quadraticSolutions (K : Type*) [Field K] (a b c : Rat) : Set K :=
  {x | (a : K) * x ^ 2 + b * x + c = 0}

/-- The terms denote these numbers: each term denotes one of them, and each of them is denoted. -/
def DenoteExactly (roots : List Term) (numbers : Set ℂ) : Prop :=
  (∀ root ∈ roots, ∃ x ∈ numbers, Reading.complex.Denotes root x) ∧
    ∀ x ∈ numbers, ∃ root ∈ roots, Reading.complex.Denotes root x

theorem DenoteExactly.of_perm {roots roots' : List Term} {numbers : Set ℂ}
    (h : DenoteExactly roots numbers) (hperm : roots'.Perm roots) :
    DenoteExactly roots' numbers := by
  refine ⟨fun root hroot => h.1 root (hperm.mem_iff.1 hroot), fun x hx => ?_⟩
  obtain ⟨root, hroot, hdenotes⟩ := h.2 x hx
  exact ⟨root, hperm.mem_iff.2 hroot, hdenotes⟩

theorem denoteExactly_pair {t u : Term} {v w : ℂ} (ht : Reading.complex.Denotes t v)
    (hu : Reading.complex.Denotes u w) : DenoteExactly [t, u] {v, w} := by
  constructor
  · intro root hroot
    rcases List.mem_pair.1 hroot with rfl | rfl
    · exact ⟨v, .inl rfl, ht⟩
    · exact ⟨w, .inr rfl, hu⟩
  · rintro x (rfl | rfl)
    · exact ⟨t, List.mem_cons_self, ht⟩
    · exact ⟨u, List.mem_cons_of_mem _ List.mem_cons_self, hu⟩

/-- The quadratic formula. -/
theorem quadraticSolutions_eq {K : Type*} [Field K] [CharZero K] (ha : a ≠ 0) {r : K}
    (hr : ((discrim a b c : Rat) : K) = r * r) :
    quadraticSolutions K a b c = {(-b - r) / (2 * a), (-b + r) / (2 * a)} := by
  have ha' : (a : K) ≠ 0 := Rat.cast_ne_zero.2 ha
  have hr' : discrim (a : K) b c = r * r := by
    rw [← hr, discrim, discrim]
    push_cast
    ring
  ext x
  rw [Set.mem_insert_iff, Set.mem_singleton_iff, or_comm, ← quadratic_eq_zero_iff ha' hr']
  show _ = _ ↔ _
  rw [sq]

/-- Where the discriminant is not negative, the solutions are real. -/
theorem quadraticSolutions_ofReal (ha : a ≠ 0) (hdelta : 0 ≤ discrim a b c) :
    quadraticSolutions ℂ a b c = Complex.ofReal '' quadraticSolutions ℝ a b c := by
  have hr : ((discrim a b c : Rat) : ℝ) =
      Real.sqrt (discrim a b c : Rat) * Real.sqrt (discrim a b c : Rat) :=
    (Real.mul_self_sqrt (by exact_mod_cast hdelta)).symm
  have hr' : ((discrim a b c : Rat) : ℂ) =
      (Real.sqrt (discrim a b c : Rat) : ℝ) * (Real.sqrt (discrim a b c : Rat) : ℝ) := by
    rw [← Complex.ofReal_mul, ← hr, Complex.ofReal_ratCast]
  rw [quadraticSolutions_eq ha hr, quadraticSolutions_eq ha hr', Set.image_pair]
  push_cast
  rfl

/-- Distinct terms that are found for a quadratic are all listed. -/
theorem ofQuadratic_roots {x y z : Term} (numbers : Set ℂ)
    (hnodup : (quadratic s x y z).value.2.Nodup)
    (hvalues : DenoteExactly (quadratic s x y z).value.2 numbers) :
    (ofQuadratic s x y z).value.roots.length = (quadratic s x y z).value.2.length ∧
      DenoteExactly (ofQuadratic s x y z).value.roots numbers := by
  obtain ⟨-, hperm⟩ := perm_ofQuadratic s x y z
  rw [hnodup.dedup] at hperm
  exact ⟨hperm.length_eq, hvalues.of_perm hperm⟩

/-- Two terms are found where the discriminant is not zero, and they denote the solutions. -/
theorem ofQuadratic_pair (hlimit : s.limits.maxExponentBits = 4096) (ha : a ≠ 0)
    (hb : s.Raises b 2) (hdelta : discrim a b c ≠ 0) {r : ℂ}
    (hroot : Reading.complex.Denotes (discrimRoot s a b c) r)
    (hr : ((discrim a b c : Rat) : ℂ) = r * r) :
    (ofQuadratic s (.number a) (.number b) (.number c)).value.roots.length = 2 ∧
      DenoteExactly (ofQuadratic s (.number a) (.number b) (.number c)).value.roots
        (quadraticSolutions ℂ a b c) := by
  have hroots := Reduction.drawsRoots_complex hlimit
  have hne : r ≠ 0 := by
    rintro rfl
    rw [zero_mul, Rat.cast_eq_zero] at hr
    exact hdelta hr
  have ha' : ((2 * a : Rat) : ℂ) ≠ 0 := Rat.cast_ne_zero.2 (mul_ne_zero two_ne_zero ha)
  have hopposite : Reading.complex.Denotes (.number (-b)) ((-b : Rat) : ℂ) := .number _
  have hlow := div_denotes hroots (sub_denotes hroots hopposite hroot) (.number (2 * a)) ha'
  have hhigh := div_denotes hroots (Reduction.add_pair_denotes hopposite hroot) (.number (2 * a)) ha'
  have hvalues := denoteExactly_pair hlow hhigh
  -- the two solutions differ, and so do the terms that denote them
  have hdistinct := hlow.ne hhigh (by
    rw [ne_eq, div_left_inj' ha', sub_eq_add_neg, add_right_inj, neg_eq_self]
    exact hne)
  have hfound := ofQuadratic_roots (s := s) (x := .number a) (y := .number b) (z := .number c)
    (quadraticSolutions ℂ a b c)
  rw [quadratic_value hb, if_neg hdelta, quadraticSolutions_eq ha hr] at hfound
  push_cast at hvalues
  rw [quadraticSolutions_eq ha hr]
  exact hfound (by simpa using hdistinct) hvalues

/-- One term is found where the discriminant is zero, and it denotes the solution. -/
theorem ofQuadratic_single (hlimit : s.limits.maxExponentBits = 4096) (ha : a ≠ 0)
    (hb : s.Raises b 2) (hdelta : discrim a b c = 0) :
    (ofQuadratic s (.number a) (.number b) (.number c)).value.roots.length = 1 ∧
      DenoteExactly (ofQuadratic s (.number a) (.number b) (.number c)).value.roots
        (quadraticSolutions ℂ a b c) := by
  have ha' : ((2 * a : Rat) : ℂ) ≠ 0 := Rat.cast_ne_zero.2 (mul_ne_zero two_ne_zero ha)
  have hroot := div_denotes (R := .complex) (Reduction.drawsRoots_complex hlimit)
    (.number (-b)) (.number (2 * a)) ha'
  have hr : ((discrim a b c : Rat) : ℂ) = 0 * 0 := by rw [hdelta]; simp
  have hfound := ofQuadratic_roots (s := s) (x := .number a) (y := .number b) (z := .number c)
    (quadraticSolutions ℂ a b c)
  rw [quadratic_value hb, if_pos hdelta, quadraticSolutions_eq ha hr, sub_zero, add_zero,
    Set.pair_eq_singleton] at hfound
  push_cast at hroot
  rw [quadraticSolutions_eq ha hr, sub_zero, add_zero, Set.pair_eq_singleton]
  refine hfound (List.nodup_singleton _) ⟨?_, ?_⟩
  · exact List.forall_mem_singleton.2 ⟨_, rfl, hroot⟩
  · rintro x rfl
    exact ⟨_, List.mem_singleton_self _, hroot⟩

/-- In the real format a negative discriminant leaves the mark of a root that is not real. -/
theorem ofQuadratic_nonreal (hlimits : s.limits = {}) (hformat : s.complexFormat = .real)
    (ha : a ≠ 0) (hb : s.Raises b 2) (hdelta : discrim a b c < 0) :
    (ofQuadratic s (.number a) (.number b) (.number c)).value.roots = [.nonreal] := by
  have hlimit : s.limits.maxExponentBits = 4096 := by rw [hlimits]
  have ha' : ((2 * a : Rat) : ℂ) ≠ 0 := Rat.cast_ne_zero.2 (mul_ne_zero two_ne_zero ha)
  have hopposite : Reading.complex.HasValue (.number (-b)) := Reading.complex.hasValue_number _
  have hroots : (quadratic s (.number a) (.number b) (.number c)).value.2 =
      [.nonreal, .nonreal] := by
    rw [quadratic_value hb, if_neg hdelta.ne, discrimRoot_of_real hlimits hformat hdelta]
    simp only [sub_nonreal hopposite, add_nonreal hopposite,
      div_nonreal hlimit (.number (2 * a)) ha']
  obtain ⟨-, hperm⟩ := perm_ofQuadratic s (.number a) (.number b) (.number c)
  rw [hroots] at hperm
  exact List.perm_singleton.1 hperm

/-- Quadratic roots are exact and complete. -/
theorem ofQuadratic_solves (hlimits : s.limits = {}) (ha : a ≠ 0) (hb : s.fits b 2 = true)
    (hdelta : s.fits (discrim a b c) 2 = true) :
    let found := (ofQuadratic s (.number a) (.number b) (.number c)).value
    found.delta = .number (discrim a b c) ∧
      (discrim a b c < 0 → s.complexFormat = .real → found.roots = [.nonreal]) ∧
      (0 ≤ discrim a b c → found.roots.length = (if discrim a b c = 0 then 1 else 2) ∧
        DenoteExactly found.roots (Complex.ofReal '' quadraticSolutions ℝ a b c)) ∧
      (discrim a b c < 0 → s.complexFormat ≠ .real → found.roots.length = 2 ∧
        DenoteExactly found.roots (quadraticSolutions ℂ a b c)) := by
  have hlimit : s.limits.maxExponentBits = 4096 := by rw [hlimits]
  have hraised : s.Raises b 2 := .inr hb
  refine ⟨?_, ?_, ?_, ?_⟩
  · have hvalue := congrArg Prod.fst (quadratic_value (s := s) (a := a) (c := c) hraised)
    simpa [ofQuadratic, finish] using hvalue
  · exact fun hneg hformat => ofQuadratic_nonreal hlimits hformat ha hraised hneg
  · intro hnonneg
    rw [← quadraticSolutions_ofReal ha hnonneg]
    by_cases hzero : discrim a b c = 0
    · rw [if_pos hzero]
      exact ofQuadratic_single hlimit ha hraised hzero
    · rw [if_neg hzero]
      refine ofQuadratic_pair hlimit ha hraised hzero (discrimRoot_denotes hlimit hnonneg) ?_
      rw [← Complex.ofReal_mul, Real.mul_self_sqrt (by exact_mod_cast hnonneg),
        Complex.ofReal_ratCast]
  · intro hneg hformat
    have hpos : (0 : ℝ) ≤ (-discrim a b c : Rat) := by exact_mod_cast (neg_pos.2 hneg).le
    refine ofQuadratic_pair hlimit ha hraised hneg.ne
      (discrimRoot_denotes_of_neg hlimits hformat hneg hdelta) ?_
    rw [mul_mul_mul_comm, Complex.I_mul_I, ← Complex.ofReal_mul, Real.mul_self_sqrt hpos]
    push_cast
    ring

/-- The two complex solutions of `x² + x + 1 = 0`. -/
theorem ofQuadratic_solves_unity :
    let s : Settings := { complexFormat := .cartesian }
    let found := (ofQuadratic s (.number 1) (.number 1) (.number 1)).value
    found.delta = .number (-3) ∧ found.roots.length = 2 ∧
      DenoteExactly found.roots (quadraticSolutions ℂ 1 1 1) := by
  have hdelta : discrim (1 : Rat) 1 1 = -3 := by norm_num [discrim]
  have hsolves := ofQuadratic_solves (s := { complexFormat := .cartesian }) (a := 1) (b := 1)
    (c := 1) rfl one_ne_zero (by decide +kernel) (by rw [hdelta]; decide +kernel)
  rw [hdelta] at hsolves
  exact ⟨hsolves.1, hsolves.2.2.2 (by norm_num) (by decide)⟩

end Roots

end EquationSolver
