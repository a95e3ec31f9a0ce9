import EquationSolver.Proofs.Number.Approximation
import EquationSolver.Proofs.Polynomial.MultipleRoots
import EquationSolver.Proofs.Polynomial.RationalSolutions
import EquationSolver.Proofs.Polynomial.Separation
import EquationSolver.Proofs.Sorting

/-!
# Ascending roots

Roots are sorted by their approximate values.  For numbers these are the nearest doubles, which
never reverse the order, so that the numbers come in strictly ascending order as long as their
doubles are finite and differ.  Numbers with the same double stay in the order in which the
formulas give them, and with an infinite double nothing is sorted.  The quadratic formula gives
the lower root first if the leading coefficient is positive, and the higher one otherwise; the
roots of a cubic that is divided by a rational root are always told apart.
-/

namespace EquationSolver

namespace Roots

open Binary64 (nearest nearestWord nearest_lt_iff nearestWord_mono)
open Reduction (Settings)

/-! ### Numbers in the order of their doubles -/

def compareNearest (x y : Rat) : Ordering :=
  compareDoubles (nearest x) (nearest y)

theorem compareNearest_eq (x y : Rat) :
    compareNearest x y = compare (nearestWord x) (nearestWord y) := by
  unfold compareNearest compareDoubles
  simp only [nearest_lt_iff]
  rcases lt_trichotomy (nearestWord x) (nearestWord y) with hlt | heq | hgt
  · rw [if_pos hlt, Int.compare_eq_lt.2 hlt]
  · rw [if_neg heq.not_lt, if_neg heq.not_gt, Int.compare_eq_eq.2 heq]
  · rw [if_neg hgt.not_gt, if_pos hgt, Int.compare_eq_gt.2 hgt]

instance : Std.TransCmp compareNearest := by
  have heq : compareNearest = compareOn nearestWord := by
    funext x y
    exact compareNearest_eq x y
  rw [heq]
  infer_instance

/-- A number that precedes by its double is smaller. -/
theorem lt_of_compareNearest {x y : Rat} (h : compareNearest x y = .lt) : x < y := by
  rw [compareNearest_eq, Int.compare_eq_lt] at h
  exact lt_of_not_ge fun hyx => (nearestWord_mono hyx).not_gt h

/-- A smaller number does not come behind by its double. -/
theorem compareNearest_ne_gt {x y : Rat} (h : x ≤ y) : compareNearest x y ≠ .gt := by
  rw [compareNearest_eq, ne_eq, Int.compare_eq_gt, not_lt]
  exact nearestWord_mono h

/-- The nearest doubles of the numbers are finite and differ. -/
structure AreToldApart (numbers : List Rat) : Prop where
  finite : ∀ x ∈ numbers, (nearest x).isFinite = true
  different : numbers.Pairwise fun x y => compareNearest x y ≠ .eq

theorem AreToldApart.perm {xs ys : List Rat} (h : AreToldApart xs) (hperm : xs.Perm ys) :
    AreToldApart ys where
  finite x hx := h.finite x (hperm.mem_iff.2 hx)
  different := (hperm.pairwise_iff fun hne heq => hne (Std.OrientedCmp.eq_symm heq)).1 h.different

/-! ### Sorting numbers -/

section Sorting

variable (s : Settings) {xs numbers : List Rat}

theorem mapM_real? (xs : List Rat) :
    (xs.map Term.number).mapM (fun root => (root.approximate s []).real?) =
      if ∀ x ∈ xs, (nearest x).isFinite = true then some (xs.map nearest) else none := by
  induction xs with
  | nil => rfl
  | cons x xs ih =>
    simp only [List.map_cons, List.mapM_cons, ih, real?_approximate_number, List.forall_mem_cons]
    by_cases hx : (nearest x).isFinite = true
    · simp only [hx, if_true, true_and]
      split <;> rfl
    · simp only [hx]
      rfl

/-- Numbers are sorted by their doubles if these are finite, and stay as they are otherwise. -/
theorem ascending_numbers (xs : List Rat) : ascending s (xs.map .number) =
    (if ∀ x ∈ xs, (nearest x).isFinite = true then sortBy compareNearest xs else xs).map
      .number := by
  unfold ascending
  rw [mapM_real?]
  by_cases hfinite : ∀ x ∈ xs, (nearest x).isFinite = true
  · rw [if_pos hfinite, if_pos hfinite]
    have hsorted : sortBy (fun x y => compareDoubles x.1 y.1)
        (xs.map fun x => (nearest x, Term.number x)) =
          (sortBy compareNearest xs).map fun x => (nearest x, Term.number x) :=
      sortBy_map fun _ _ _ _ => rfl
    dsimp only
    rw [List.zip_map', hsorted, List.map_map]
    rfl
  · rw [if_neg hfinite, if_neg hfinite]

theorem ascending_of_isAscending (h : IsAscending compareNearest xs) :
    ascending s (xs.map .number) = xs.map .number := by
  have hkept : sortBy compareNearest xs = xs :=
    sortBy_of_isAscending (fun _ _ => Std.OrientedCmp.eq_swap) h fun _ _ _ _ _ _ _ => by
      simp only [Ordering.ne_gt_iff_isLE]
      exact Std.TransCmp.isLE_trans
  rw [ascending_numbers, hkept, ite_self]

/-- Two numbers whose doubles do not tell them apart stay as they are. -/
theorem ascending_of_not_areToldApart {x y : Rat} (h : ¬ AreToldApart [x, y]) :
    ascending s ([x, y].map .number) = [x, y].map .number := by
  by_cases hfinite : ∀ z ∈ [x, y], (nearest z).isFinite = true
  · refine ascending_of_isAscending s (List.isChain_pair.2 fun hgt => h ⟨hfinite, ?_⟩)
    rw [List.pairwise_pair, hgt]
    exact Ordering.noConfusion
  · rw [ascending_numbers, if_neg hfinite]

theorem pairwise_lt_sortBy (h : AreToldApart xs) :
    (sortBy compareNearest xs).Pairwise (· < ·) := by
  have hdifferent := (h.perm (sortBy_perm compareNearest xs).symm).different
  exact hdifferent.imp₂ (fun x y hne hle => lt_of_compareNearest
    ((Ordering.isLE_iff_eq_lt_or_eq_eq.1 hle).resolve_right hne)) (pairwise_sortBy xs)

theorem number_injective : Function.Injective Term.number :=
  fun _ _ => Term.number.inj

theorem perm_of_ascending (h : ascending s (xs.map .number) = numbers.map .number) :
    xs.Perm numbers :=
  (List.map_perm_map_iff number_injective).1 (h ▸ (perm_ascending s (xs.map .number)).symm)

theorem nodup_of_ascending {roots : List Term}
    (h : ascending s (distinct roots) = numbers.map .number) : numbers.Nodup := by
  have hnodup := (perm_ascending s (distinct roots)).nodup_iff.2 (nodup_and_mem_distinct roots).1
  rw [h] at hnodup
  exact hnodup.of_map _

/-- Numbers that are listed in ascending order and told apart are in strictly ascending order. -/
theorem pairwise_lt_of_ascending {roots : List Term}
    (hlisted : ascending s roots = numbers.map .number) (h : AreToldApart numbers) :
    numbers.Pairwise (· < ·) := by
  have hperm : roots.Perm (numbers.map .number) := hlisted ▸ (perm_ascending s roots).symm
  obtain ⟨xs, rfl⟩ : roots ∈ Set.range (List.map Term.number) := by
    rw [Set.range_list_map]
    intro root hroot
    obtain ⟨x, -, hx⟩ := List.mem_map.1 (hperm.mem_iff.1 hroot)
    exact ⟨x, hx⟩
  have hapart := h.perm (perm_of_ascending s hlisted).symm
  rw [ascending_numbers, if_pos hapart.finite] at hlisted
  rw [← number_injective.list_map hlisted]
  exact pairwise_lt_sortBy hapart

end Sorting

/-! ### Roots as the quadratic formula gives them -/

section Quadratic

variable {s : Settings} {a b c : Rat}

/-- The quadratic formula gives the real roots, that with the difference first. -/
theorem quadratic_denotes (hlimit : s.limits.maxExponentBits = 4096) (ha : a ≠ 0)
    (hdelta : 0 ≤ discrim a b c) :
    (∃ root, (quadratic s (.number a) (.number b) (.number c)).value.2 = [root] ∧
      Reading.complex.Denotes root ((-b / (2 * a) : ℝ) : ℂ) ∧ discrim a b c = 0) ∨
    ∃ first second, (quadratic s (.number a) (.number b) (.number c)).value.2 = [first, second] ∧
      Reading.complex.Denotes first
        (((-b - Real.sqrt (discrim a b c : Rat)) / (2 * a) : ℝ) : ℂ) ∧
      Reading.complex.Denotes second
        (((-b + Real.sqrt (discrim a b c : Rat)) / (2 * a) : ℝ) : ℂ) := by
  have hroots := Reduction.drawsRoots_complex hlimit
  have hformula : Reading.complex.Denotes
      (polynomial s [(1, [(.number b, 2)]), (-4, [(.number a, 1), (.number c, 1)])]).value
      ((discrim a b c : Rat) : ℝ) := by
    refine (polynomial_denotes hroots (by simp)).congr ?_
    simp [monomialValue, discrim]
    ring
  have hopposite : Reading.complex.Denotes (.number (-b)) ((-b : ℝ) : ℂ) :=
    (Reading.Denotes.number _).congr (by push_cast; rfl)
  have htwice : Reading.complex.Denotes (.number (2 * a)) ((2 * a : ℝ) : ℂ) :=
    (Reading.Denotes.number _).congr (by push_cast; rfl)
  have hne : ((2 * a : ℝ) : ℂ) ≠ 0 := by
    exact_mod_cast mul_ne_zero two_ne_zero (Rat.cast_ne_zero.2 ha)
  have hmonomial := monomial_number (s := s) 2 a
  rw [Int.cast_ofNat] at hmonomial
  simp only [quadratic, Build.value_bind, neg_number, hmonomial]
  generalize (polynomial s _).value = delta at hformula ⊢
  by_cases hnull : delta.nullity s = .yes
  · refine .inl ⟨_, by rw [if_pos hnull]; rfl, ?_, ?_⟩
    · exact (div_denotes hroots hopposite htwice hne).congr (by push_cast; rfl)
    · have hzero := Reading.value_of_nullity hnull hformula.hasValue
      rw [hformula.value_eq] at hzero
      exact_mod_cast hzero
  · have hroot := sqrt_denotes hlimit hformula (by exact_mod_cast hdelta)
    refine .inr ⟨_, _, by rw [if_neg hnull]; rfl, ?_, ?_⟩
    · exact (div_denotes hroots (sub_denotes hroots hopposite hroot) htwice hne).congr
        (by push_cast; rfl)
    · exact (div_denotes hroots (Reduction.add_pair_denotes hopposite hroot) htwice hne).congr
        (by push_cast; rfl)

theorem roots_ofQuadratic (s : Settings) (x y z : Term) : (ofQuadratic s x y z).value.roots =
    ascending s (distinct (quadratic s x y z).value.2) := by
  simp only [ofQuadratic, Build.value_bind, Build.value_pure, finish]

/-- Two numbers that are found for a quadratic are in the order of the formula before they are
    sorted. -/
theorem ascending_of_ofQuadratic (hlimit : s.limits.maxExponentBits = 4096) (ha : a ≠ 0)
    (hdelta : 0 ≤ discrim a b c) {numbers : List Rat}
    (hlisted : (ofQuadratic s (.number a) (.number b) (.number c)).value.roots =
      numbers.map .number) :
    numbers.length ≤ 1 ∨ ∃ first second : Rat, 0 < a * (second - first) ∧
      ascending s ([first, second].map .number) = numbers.map .number := by
  rw [roots_ofQuadratic] at hlisted
  have hperm := (perm_ascending s _).symm.trans (.of_eq hlisted)
  have hlength := hperm.length_eq
  rw [List.length_map] at hlength
  rcases quadratic_denotes hlimit ha hdelta with
    ⟨root, hfound, -⟩ | ⟨first, second, hfound, hfirst, hsecond⟩
  · exact .inl (hlength.symm.le.trans (hfound ▸ length_distinct [root]))
  · by_cases heq : first = second
    · refine .inl (hlength.symm.le.trans ?_)
      rw [hfound, heq]
      simp [distinct]
    · have hdistinct : distinct [first, second] = [first, second] := by
        simp [distinct, Ne.symm heq]
      rw [hfound, hdistinct] at hperm hlisted
      obtain ⟨x, -, rfl⟩ := List.mem_map.1 (hperm.mem_iff.1 List.mem_cons_self)
      obtain ⟨y, -, rfl⟩ :=
        List.mem_map.1 (hperm.mem_iff.1 (List.mem_cons_of_mem _ List.mem_cons_self))
      refine .inr ⟨x, y, ?_, hlisted⟩
      have hx : (x : ℝ) = (-b - Real.sqrt (discrim a b c : Rat)) / (2 * a) := by
        exact_mod_cast (Reading.Denotes.number x).unique hfirst
      have hy : (y : ℝ) = (-b + Real.sqrt (discrim a b c : Rat)) / (2 * a) := by
        exact_mod_cast (Reading.Denotes.number y).unique hsecond
      have hgap : ((a * (y - x) : Rat) : ℝ) = Real.sqrt (discrim a b c : Rat) := by
        have ha' : (a : ℝ) ≠ 0 := Rat.cast_ne_zero.2 ha
        push_cast
        rw [hx, hy]
        field_simp
        ring
      have hnonneg : 0 ≤ a * (y - x) := by exact_mod_cast hgap.symm ▸ Real.sqrt_nonneg _
      have hne : x ≠ y := fun h => heq (congrArg _ h)
      exact hnonneg.lt_of_ne' (mul_ne_zero ha (sub_ne_zero.2 hne.symm))

/-- Two roots of a quadratic need to be told apart exactly if its leading coefficient is
    negative. -/
theorem pairwise_lt_iff_of_ofQuadratic (hlimit : s.limits.maxExponentBits = 4096) (ha : a ≠ 0)
    (hdelta : 0 ≤ discrim a b c) {numbers : List Rat}
    (hlisted : (ofQuadratic s (.number a) (.number b) (.number c)).value.roots =
      numbers.map .number) :
    numbers.Pairwise (· < ·) ↔ numbers.length ≤ 1 ∨ 0 < a ∨ AreToldApart numbers := by
  rcases ascending_of_ofQuadratic hlimit ha hdelta hlisted with
    hshort | ⟨first, second, hgap, hascending⟩
  · refine iff_of_true (List.pairwise_iff_getElem.2 fun i j hi hj hij => ?_) (.inl hshort)
    omega
  have hperm := perm_of_ascending s hascending
  have hlength : ¬ numbers.length ≤ 1 := by
    rw [← hperm.length_eq]
    simp
  rcases ha.lt_or_gt with hneg | hpos
  · have hlt : second < first := by nlinarith
    rw [or_iff_right hlength, or_iff_right hneg.not_gt]
    refine ⟨fun h => ?_, pairwise_lt_of_ascending s hascending⟩
    by_contra hapart
    -- the higher root would be left before the lower one
    have hkept := ascending_of_not_areToldApart s fun hfirst => hapart (hfirst.perm hperm)
    rw [← number_injective.list_map (hkept.symm.trans hascending), List.pairwise_pair] at h
    exact hlt.not_gt h
  · have hlt : first < second := by nlinarith
    refine iff_of_true ?_ (.inr (.inl hpos))
    have hfirst : IsAscending compareNearest [first, second] :=
      List.isChain_pair.2 (compareNearest_ne_gt hlt.le)
    have hkept := ascending_of_isAscending s hfirst
    rw [← number_injective.list_map (hkept.symm.trans hascending)]
    exact List.pairwise_pair.2 hlt

/-- The numbers that are found for a quadratic are its roots. -/
theorem solves_of_mem_quadratic (hlimit : s.limits.maxExponentBits = 4096) (ha : a ≠ 0)
    (hdelta : 0 ≤ discrim a b c) {x : Rat}
    (hx : .number x ∈ (quadratic s (.number a) (.number b) (.number c)).value.2) :
    a * x ^ 2 + b * x + c = 0 := by
  have hr : ((discrim a b c : Rat) : ℝ) =
      Real.sqrt (discrim a b c : Rat) * Real.sqrt (discrim a b c : Rat) :=
    (Real.mul_self_sqrt (by exact_mod_cast hdelta)).symm
  have hsolutions := quadraticSolutions_eq (K := ℝ) ha hr
  have hmem : (x : ℝ) ∈ quadraticSolutions ℝ a b c := by
    rw [hsolutions]
    have hvalue {y : ℝ} (h : Reading.complex.Denotes (.number x) (y : ℂ)) : (x : ℝ) = y := by
      exact_mod_cast (Reading.Denotes.number x).unique h
    rcases quadratic_denotes hlimit ha hdelta with
      ⟨root, hfound, hroot, hzero⟩ | ⟨first, second, hfound, hfirst, hsecond⟩
    · rw [hfound, List.mem_singleton] at hx
      refine .inl ((hvalue (hx ▸ hroot)).trans ?_)
      rw [hzero, Rat.cast_zero, Real.sqrt_zero, sub_zero]
    · rw [hfound] at hx
      rcases List.mem_pair.1 hx with h | h
      · exact .inl (hvalue (h ▸ hfirst))
      · exact .inr (hvalue (h ▸ hsecond))
  have hreal : (a : ℝ) * x ^ 2 + b * x + c = 0 := hmem
  exact_mod_cast hreal

end Quadratic

/-! ### Roots of cubics that are divided by a rational root -/

section Cubic

variable {s : Settings} {p : Cubic Rat} {root x : Rat}

theorem valueAt_eq_deflated (p : Cubic Rat) (root x : Rat) : p.valueAt x =
    (x - root) * (p.a * x ^ 2 + (deflated p root).1 * x + (deflated p root).2) +
      p.valueAt root := by
  simp only [Cubic.valueAt, deflated, Rat.cast_id]
  ring

/-- Dividing a cubic by a root divides its discriminant by a square. -/
theorem discriminant_eq_deflated (hroot : p.valueAt root = 0) : p.discriminant =
    discrim p.a (deflated p root).1 (deflated p root).2 *
      (p.a * root ^ 2 + (deflated p root).1 * root + (deflated p root).2) ^ 2 := by
  simp only [Cubic.valueAt, Rat.cast_id] at hroot
  have hd : p.d = -(p.a * root ^ 3 + p.b * root ^ 2 + p.c * root) := by linarith
  simp only [Cubic.discriminant, discrim, deflated, hd]
  ring

theorem discrim_deflated_nonneg (hroot : p.valueAt root = 0) (hreal : 0 ≤ p.discriminant) :
    0 ≤ discrim p.a (deflated p root).1 (deflated p root).2 := by
  rw [discriminant_eq_deflated hroot] at hreal
  by_cases hzero : p.a * root ^ 2 + (deflated p root).1 * root + (deflated p root).2 = 0
  · have hsq : discrim p.a (deflated p root).1 (deflated p root).2 =
        (2 * p.a * root + (deflated p root).1) ^ 2 := by
      rw [discrim]
      linear_combination -4 * p.a * hzero
    rw [hsq]
    exact sq_nonneg _
  · exact nonneg_of_mul_nonneg_left hreal (pow_pos (abs_pos.2 hzero) 2 |>.trans_eq (sq_abs _))

/-- The numbers that are found for a cubic with a rational root and with no roots but real ones are
    its roots. -/
theorem valueAt_of_mem_ofCubic (hlimit : s.limits.maxExponentBits = 4096) (ha : p.a ≠ 0)
    (hd : p.d ≠ 0) (hreal : 0 ≤ p.discriminant) (hroot : p.rationalRoot? = some root)
    (hx : .number x ∈ (ofCubic s (p.map .number)).value.roots) : p.valueAt x = 0 := by
  have hvalue := Cubic.valueAt_of_rationalRoot? hroot
  rw [ofCubic_of_rationalRoot hd hroot, (perm_finish s _ _ _).mem_iff, List.mem_dedup,
    List.mem_cons] at hx
  rcases hx with hx | hx
  · rwa [Term.number.inj hx]
  · have hsolves := solves_of_mem_quadratic hlimit ha (discrim_deflated_nonneg hvalue hreal) hx
    rw [valueAt_eq_deflated p root x, hsolves, hvalue, mul_zero, add_zero]

/-- The rational roots of a cubic that is searched for them are told apart. -/
theorem areToldApart_of_roots (hp : p.IsEnumerable) {numbers : List Rat} (hnodup : numbers.Nodup)
    (hroots : ∀ x ∈ numbers, p.valueAt x = 0) : AreToldApart numbers where
  finite x hx := (hp.isModerate (hroots x hx)).isFinite
  different := by
    refine hnodup.imp_of_mem fun {x y} hx hy hne => ?_
    rw [compareNearest_eq, ne_eq, Int.compare_eq_eq]
    rcases lt_or_gt_of_ne hne with hlt | hgt
    · exact (hp.nearestWord_lt (hroots x hx) (hroots y hy) hlt).ne
    · exact (hp.nearestWord_lt (hroots y hy) (hroots x hx) hgt).ne'

end Cubic

/-! ### Roots as they are listed -/

theorem exists_roots_ofCubic (s : Settings) (p : Cubic Term) :
    ∃ found, (ofCubic s p).value.roots = ascending s (distinct found) := by
  simp only [ofCubic, Build.value_bind]
  repeat' split
  all_goals
    simp only [Build.value_bind, Build.value_pure, finish]
    exact ⟨_, rfl⟩

/-- Roots that are all numbers come in strictly ascending order if their doubles are finite and
    differ.  For two roots of a quadratic this is needed exactly if the leading coefficient is
    negative, and for a cubic that is divided by a rational root it always holds. -/
theorem numbers_ascend (s : Settings) :
    (∀ (a b c : Rat) (numbers : List Rat), a ≠ 0 →
      (ofQuadratic s (.number a) (.number b) (.number c)).value.roots = numbers.map .number →
        (AreToldApart numbers → numbers.Pairwise (· < ·)) ∧
        (s.limits.maxExponentBits = 4096 → 0 ≤ discrim a b c →
          (numbers.Pairwise (· < ·) ↔ numbers.length ≤ 1 ∨ 0 < a ∨ AreToldApart numbers))) ∧
    ∀ (p : Cubic Rat) (numbers : List Rat), p.a ≠ 0 →
      (ofCubic s (p.map .number)).value.roots = numbers.map .number →
        (AreToldApart numbers → numbers.Pairwise (· < ·)) ∧
        (s.limits.maxExponentBits = 4096 → 0 ≤ p.discriminant → p.d ≠ 0 →
          p.rationalRoot?.isSome = true → numbers.Pairwise (· < ·)) := by
  constructor
  · intro a b c numbers ha hlisted
    have hascends : AreToldApart numbers → numbers.Pairwise (· < ·) :=
      pairwise_lt_of_ascending s ((roots_ofQuadratic ..).symm.trans hlisted)
    refine ⟨hascends, fun hlimit hdelta => ?_⟩
    exact pairwise_lt_iff_of_ofQuadratic hlimit ha hdelta hlisted
  · intro p numbers ha hlisted
    obtain ⟨found, hfound⟩ := exists_roots_ofCubic s (p.map .number)
    have hascending := hfound.symm.trans hlisted
    refine ⟨pairwise_lt_of_ascending s hascending, fun hlimit hreal hd hsome => ?_⟩
    obtain ⟨root, hroot⟩ := Option.isSome_iff_exists.1 hsome
    have hroots : ∀ x ∈ numbers, p.valueAt x = 0 := fun x hx =>
      valueAt_of_mem_ofCubic hlimit ha hd hreal hroot (hlisted ▸ List.mem_map_of_mem hx)
    exact pairwise_lt_of_ascending s hascending (areToldApart_of_roots
      (Cubic.isEnumerable_of_rationalRoot? hroot) (nodup_of_ascending s hascending) hroots)

/-- The roots of `(1 - x) (x - 2)`, of `x (x - 1) (x + 2)` and of `(x - 1) (x - 2) (x - 3)`. -/
theorem numbers_ascend_integers :
    AreToldApart [1, 2] ∧ ([1, 2] : List Rat).Pairwise (· < ·) ∧
      AreToldApart [-2, 0, 1] ∧ ([-2, 0, 1] : List Rat).Pairwise (· < ·) ∧
      (⟨1, -6, 11, -6⟩ : Cubic Rat).rationalRoot? = some 1 ∧
      ([1, 2, 3] : List Rat).Pairwise (· < ·) := by
  have hquadratic : (ofQuadratic {} (.number (-1)) (.number 3) (.number (-2))).value.roots =
      [1, 2].map .number := by decide +kernel
  have hnull : (ofCubic {} ((⟨1, 1, -2, 0⟩ : Cubic Rat).map .number)).value.roots =
      [-2, 0, 1].map .number := by decide +kernel
  have hcubic : (ofCubic {} ((⟨1, -6, 11, -6⟩ : Cubic Rat).map .number)).value.roots =
      [1, 2, 3].map .number := by decide +kernel
  have hroot : (⟨1, -6, 11, -6⟩ : Cubic Rat).rationalRoot? = some 1 := by decide +kernel
  have hdelta : 0 ≤ discrim (-1 : Rat) 3 (-2) := by norm_num [discrim]
  have hreal : 0 ≤ (⟨1, -6, 11, -6⟩ : Cubic Rat).discriminant := by norm_num [Cubic.discriminant]
  have hapart : AreToldApart [1, 2] := ⟨by decide +kernel, by decide +kernel⟩
  have hapart' : AreToldApart [-2, 0, 1] := ⟨by decide +kernel, by decide +kernel⟩
  have hascends := (numbers_ascend {}).1 _ _ _ _ (by norm_num) hquadratic
  refine ⟨hapart, (hascends.2 rfl hdelta).2 (.inr (.inr hapart)), hapart', ?_, hroot, ?_⟩
  · exact ((numbers_ascend {}).2 _ _ (by norm_num) hnull).1 hapart'
  · exact ((numbers_ascend {}).2 _ _ (by norm_num) hcubic).2 rfl hreal (by norm_num)
      (hroot ▸ rfl)

/-- Roots that share a double are left as the formula gives them, here the higher one first. -/
example : (ofQuadratic {} (.number (-1)) (.number (2 + 1 / 2 ^ 60))
    (.number (-1 - 1 / 2 ^ 60))).value.roots = [1 + 1 / 2 ^ 60, 1].map .number := by
  decide +kernel

end Roots

end EquationSolver
