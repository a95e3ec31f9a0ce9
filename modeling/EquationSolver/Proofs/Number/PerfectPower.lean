import EquationSolver.Number.Integer
import EquationSolver.Reduction.Power
import Mathlib.Algebra.GroupWithZero.Basic
import Mathlib.Algebra.Order.Ring.Nat
import Mathlib.Data.Nat.Prime.Basic
import Mathlib.Tactic.SplitIfs

/-!
# Splitting roots and perfect powers

What comes out of a root and what stays inside make up the number again, and so does the
number that is left when the index of its root is lowered.  The bisection finds the floor of a
root, so a number without an exact root is no perfect power.  What stays inside a root after
splitting has no power of a small number as a factor and is no perfect power itself, and neither is
what is left when the index is lowered: no divisor of the index that is left can be taken out any
more.
-/

namespace EquationSolver

/-! ### Perfect powers -/

theorem pow_exactRoot? {a n root : Nat} (h : exactRoot? a n = some root) : root ^ n = a := by
  obtain ⟨hroot, heq⟩ := Option.ite_none_right_eq_some.1 h
  rwa [Option.some.inj heq] at hroot

theorem removePower_spec {divisor n outside inside : Nat} :
    (removePower divisor (divisor ^ n) outside inside).1 ^ n *
        (removePower divisor (divisor ^ n) outside inside).2 =
      outside ^ n * inside := by
  fun_induction removePower divisor (divisor ^ n) outside inside with
  | case1 outside inside h ih =>
    rw [ih, Nat.mul_pow, Nat.mul_assoc, Nat.mul_div_cancel' (Nat.dvd_of_mod_eq_zero h.2.2)]
  | case2 => rfl

theorem removeSmallPowers_spec (n : Nat) (divisors : List Nat) (split : Nat × Nat) :
    (removeSmallPowers n divisors split).1 ^ n * (removeSmallPowers n divisors split).2 =
      split.1 ^ n * split.2 := by
  induction divisors generalizing split with
  | nil => rfl
  | cons divisor rest ih =>
    obtain ⟨outside, inside⟩ := split
    unfold removeSmallPowers
    dsimp only
    split_ifs
    · rfl
    · rw [ih]
      exact removePower_spec

/-- What comes out of a root and what stays inside make up the number. -/
theorem splitPower_spec (a n : Nat) : (splitPower a n).1 ^ n * (splitPower a n).2 = a := by
  unfold splitPower
  split_ifs
  · rw [Nat.one_pow, Nat.one_mul]
  · have hremoved := removeSmallPowers_spec n trialDivisors (1, a)
    rw [Nat.one_pow, Nat.one_mul] at hremoved
    dsimp only
    split
    case h_1 root hroot => rw [Nat.mul_pow, pow_exactRoot? hroot, Nat.mul_one, hremoved]
    case h_2 => exact hremoved

/-- Neither part of a positive number is zero, if a root is drawn. -/
theorem splitPower_pos {a n : Nat} (ha : 0 < a) (hn : n ≠ 0) :
    0 < (splitPower a n).1 ∧ 0 < (splitPower a n).2 := by
  have hspec := splitPower_spec a n
  rw [← hspec] at ha
  exact ⟨Nat.pos_of_ne_zero fun h => by simp [h, hn] at ha, Nat.pos_of_mul_pos_left ha⟩

/-! ### Lowering the index -/

namespace Reduction

theorem findRoot?_spec {radicand index g d root : Nat}
    (h : findRoot? radicand index g = some (d, root)) : index % d = 0 ∧ root ^ d = radicand := by
  induction g with
  | zero => cases h
  | succ g ih =>
    unfold findRoot? at h
    split_ifs at h with hdivides
    · split at h
      case h_1 found hfound =>
        cases h
        exact ⟨hdivides.2, pow_exactRoot? hfound⟩
      case h_2 => exact ih h
    · exact ih h

/-- The index is divided by a number, and the radicand is that power of what is left. -/
theorem lowerIndex_spec (radicand index : Nat) : ∃ g, (lowerIndex radicand index).2 * g = index ∧
    (lowerIndex radicand index).1 ^ g = radicand := by
  fun_induction lowerIndex radicand index with
  | case1 radicand index hindex g root hfound ih =>
    obtain ⟨g', hlowered, hpower⟩ := ih
    obtain ⟨hdivides, hroot⟩ := findRoot?_spec hfound
    refine ⟨g' * g, ?_, ?_⟩
    · rw [← Nat.mul_assoc, hlowered, Nat.div_mul_cancel (Nat.dvd_of_mod_eq_zero hdivides)]
    · rw [Nat.pow_mul, hpower, hroot]
  | case2 => exact ⟨1, Nat.mul_one _, Nat.pow_one _⟩
  | case3 => exact ⟨1, Nat.mul_one _, Nat.pow_one _⟩

theorem lowerIndex_pos {radicand index : Nat} (hradicand : 0 < radicand) (hindex : index ≠ 0) :
    0 < (lowerIndex radicand index).1 := by
  obtain ⟨g, hlowered, hpower⟩ := lowerIndex_spec radicand index
  have hg : g ≠ 0 := right_ne_zero_of_mul (hlowered.symm ▸ hindex)
  refine Nat.pos_of_ne_zero fun hzero => ?_
  rw [hzero, zero_pow hg] at hpower
  exact hradicand.ne hpower

end Reduction

/-! ### Floors of roots -/

/-- Halving keeps the root between the ends. -/
theorem rootBetween_spec {a n low high : Nat} (hlow : low ^ n ≤ a) (hhigh : a < high ^ n) :
    rootBetween a n low high ^ n ≤ a ∧ a < (rootBetween a n low high + 1) ^ n := by
  fun_induction rootBetween a n low high with
  | case1 low high hwide middle hmiddle ih => exact ih hmiddle hhigh
  | case2 low high hwide middle hmiddle ih => exact ih hlow (Nat.lt_of_not_le hmiddle)
  | case3 low high hnarrow =>
    exact ⟨hlow, Nat.lt_of_lt_of_le hhigh (Nat.pow_le_pow_left (by omega) n)⟩

/-- The first upper bound has more digits than the root. -/
theorem lt_two_pow_bitLength {a n : Nat} (hn : 0 < n) : a < (2 ^ (bitLength a / n + 1)) ^ n := by
  have hdigits : a < 2 ^ bitLength a := by
    unfold bitLength
    split_ifs with ha
    · simp [ha]
    · exact Nat.lt_log2_self
  have hlength : bitLength a ≤ (bitLength a / n + 1) * n :=
    Nat.le_of_lt (Nat.lt_mul_of_div_lt (Nat.lt_succ_self _) hn)
  calc a < 2 ^ bitLength a := hdigits
    _ ≤ 2 ^ ((bitLength a / n + 1) * n) := Nat.pow_le_pow_right (by omega) hlength
    _ = (2 ^ (bitLength a / n + 1)) ^ n := Nat.pow_mul ..

theorem floorRoot_bounds {a n : Nat} (hn : 0 < n) :
    floorRoot a n ^ n ≤ a ∧ a < (floorRoot a n + 1) ^ n := by
  unfold floorRoot
  split_ifs with htrivial
  · rcases htrivial with rfl | rfl
    · exact ⟨(Nat.zero_pow hn).le, by simp⟩
    · exact ⟨(Nat.pow_one a).le, by simp⟩
  · exact rootBetween_spec (by simp [Nat.zero_pow hn]) (lt_two_pow_bitLength hn)

/-- The floor of the root of a perfect power is the root. -/
theorem floorRoot_pow {r n : Nat} (hn : 0 < n) : floorRoot (r ^ n) n = r := by
  obtain ⟨hle, hlt⟩ := floorRoot_bounds (a := r ^ n) hn
  have hupper : floorRoot (r ^ n) n ≤ r := (Nat.pow_le_pow_iff_left hn.ne').1 hle
  have hlower : r < floorRoot (r ^ n) n + 1 := (Nat.pow_lt_pow_iff_left hn.ne').1 hlt
  omega

theorem exactRoot?_pow {r n : Nat} (hn : 0 < n) : exactRoot? (r ^ n) n = some r := by
  unfold exactRoot?
  rw [floorRoot_pow hn]
  exact if_pos rfl

theorem exactRoot?_eq_some_iff {a n r : Nat} (hn : 0 < n) :
    exactRoot? a n = some r ↔ r ^ n = a := by
  constructor
  · exact pow_exactRoot?
  · rintro rfl
    exact exactRoot?_pow hn

/-- A number without an exact root is no perfect power. -/
theorem pow_ne_of_exactRoot?_eq_none {a n : Nat} (hn : 0 < n) (h : exactRoot? a n = none)
    (r : Nat) : r ^ n ≠ a := by
  rintro rfl
  rw [exactRoot?_pow hn] at h
  cases h

namespace Integer

theorem rootFloor_natCast (a : Nat) {n : Nat} (hn : 0 < n) :
    rootFloor (a : Int) n = .ok (floorRoot a n : Int) := by
  rw [rootFloor, if_neg (not_lt.2 (Int.natCast_nonneg a)), if_neg hn.ne', Int.natAbs_natCast]

theorem exactRoot_natCast (a : Nat) {n : Nat} (hn : 0 < n) :
    exactRoot (a : Int) n = .ok ((exactRoot? a n).map fun r : Nat => (r : Int)) := by
  rw [exactRoot, if_neg (not_lt.2 (Int.natCast_nonneg a)), if_neg hn.ne', Int.natAbs_natCast]
  cases exactRoot? a n <;> rfl

/-- The floor of a root is the largest integer whose power is no larger than the number, and the
    number has an exact root just when it is the power of a nonnegative integer. -/
theorem rootFloor_brackets {a : Int} {n : Nat} (ha : 0 ≤ a) (hn : 1 ≤ n) :
    (∃ r, rootFloor a n = .ok r ∧ 0 ≤ r ∧ r ^ n ≤ a ∧ a < (r + 1) ^ n) ∧
      ∃ found, exactRoot a n = .ok found ∧ ∀ s, found = some s ↔ 0 ≤ s ∧ s ^ n = a := by
  obtain ⟨a, rfl⟩ := Int.eq_ofNat_of_zero_le ha
  obtain ⟨hle, hlt⟩ := floorRoot_bounds (a := a) hn
  refine ⟨⟨_, rootFloor_natCast a hn, Int.natCast_nonneg _, ?_, ?_⟩, _, exactRoot_natCast a hn,
    fun s => ?_⟩
  · exact_mod_cast hle
  · exact_mod_cast hlt
  · rw [Option.map_eq_some_iff]
    constructor
    · rintro ⟨r, hr, rfl⟩
      exact ⟨Int.natCast_nonneg r, by exact_mod_cast (exactRoot?_eq_some_iff hn).1 hr⟩
    · rintro ⟨hs, hpower⟩
      obtain ⟨r, rfl⟩ := Int.eq_ofNat_of_zero_le hs
      exact ⟨r, (exactRoot?_eq_some_iff hn).2 (by exact_mod_cast hpower), rfl⟩

/-- The cube root of a thousand, which is exact. -/
theorem rootFloor_brackets_thousand : (0 : Int) ≤ 1000 ∧ 1 ≤ 3 ∧
    (∃ r, rootFloor 1000 3 = .ok r ∧ 0 ≤ r ∧ r ^ 3 ≤ 1000 ∧ 1000 < (r + 1) ^ 3) ∧
      exactRoot 1000 3 = .ok (some 10) := by
  obtain ⟨hfloor, found, hfound, hexact⟩ :=
    rootFloor_brackets (a := 1000) (n := 3) (by decide) (by decide)
  have hroot : found = some 10 := (hexact 10).2 (by decide)
  exact ⟨by decide, by decide, hfloor, by rw [hfound, hroot]⟩

end Integer

/-! ### Small divisors -/

/-- What is left when a power has been removed divides what there was, and not by the power. -/
theorem removePower_inside (divisor outside : Nat) {power inside : Nat} (hpower : 1 < power)
    (hinside : 0 < inside) :
    (removePower divisor power outside inside).2 ∣ inside ∧
      ¬ power ∣ (removePower divisor power outside inside).2 := by
  fun_induction removePower divisor power outside inside with
  | case1 outside inside h ih =>
    have hdvd : power ∣ inside := Nat.dvd_of_mod_eq_zero h.2.2
    have hpos : 0 < inside / power := Nat.div_pos (Nat.le_of_dvd hinside hdvd) (by omega)
    obtain ⟨hquotient, hnot⟩ := ih hpos
    exact ⟨hquotient.trans (Nat.div_dvd_of_dvd hdvd), hnot⟩
  | case2 outside inside h =>
    exact ⟨Nat.dvd_refl _, fun hdvd => h ⟨hpower, hinside, Nat.mod_eq_zero_of_dvd hdvd⟩⟩

/-- The powers of divisors that ascend are all removed: the search stops early only where the
    powers that are left are too large. -/
theorem removeSmallPowers_inside {n : Nat} (hn : 0 < n) {divisors : List Nat}
    (hascending : divisors.Pairwise (· ≤ ·)) (htwo : ∀ d ∈ divisors, 2 ≤ d) {split : Nat × Nat}
    (hinside : 0 < split.2) :
    (removeSmallPowers n divisors split).2 ∣ split.2 ∧
      ∀ d ∈ divisors, ¬ d ^ n ∣ (removeSmallPowers n divisors split).2 := by
  induction divisors generalizing split with
  | nil => exact ⟨Nat.dvd_refl _, nofun⟩
  | cons divisor rest ih =>
    obtain ⟨outside, inside⟩ := split
    obtain ⟨hbehind, hrest⟩ := List.pairwise_cons.1 hascending
    obtain ⟨hdivisor, htwo⟩ := List.forall_mem_cons.1 htwo
    unfold removeSmallPowers
    dsimp only
    split_ifs with hlarge
    · refine ⟨Nat.dvd_refl _, fun d hd hdvd => ?_⟩
      have hle : divisor ≤ d := by
        rcases List.mem_cons.1 hd with rfl | hd
        · exact Nat.le_refl _
        · exact hbehind d hd
      have hpower : divisor ^ n ≤ d ^ n := Nat.pow_le_pow_left hle n
      exact absurd (Nat.le_of_dvd hinside hdvd) (Nat.not_le.2 (Nat.lt_of_lt_of_le hlarge hpower))
    · have hpower : 1 < divisor ^ n := Nat.one_lt_pow hn.ne' hdivisor
      obtain ⟨hdvd, hnot⟩ := removePower_inside divisor outside hpower hinside
      have hpos : 0 < (removePower divisor (divisor ^ n) outside inside).2 :=
        Nat.pos_of_dvd_of_pos hdvd hinside
      obtain ⟨hleft, hothers⟩ := ih hrest htwo hpos
      refine ⟨hleft.trans hdvd, List.forall_mem_cons.2 ⟨fun hdivides => ?_, hothers⟩⟩
      exact hnot (hdivides.trans hleft)

theorem trialDivisors_pairwise : trialDivisors.Pairwise (· ≤ ·) := by
  refine List.pairwise_cons.2 ⟨?_, List.pairwise_map.2 (List.pairwise_lt_range.imp ?_)⟩
  · intro d hd
    obtain ⟨k, -, rfl⟩ := List.mem_map.1 hd
    omega
  · intro j k hjk
    omega

theorem two_le_of_mem_trialDivisors {d : Nat} (h : d ∈ trialDivisors) : 2 ≤ d := by
  rcases List.mem_cons.1 h with rfl | h
  · exact Nat.le_refl _
  · obtain ⟨k, -, rfl⟩ := List.mem_map.1 h
    omega

/-- The primes up to the limit are among the trial divisors. -/
theorem mem_trialDivisors_of_prime {p : Nat} (hp : p.Prime) (hle : p ≤ trialDivisionLimit) :
    p ∈ trialDivisors := by
  rcases hp.eq_two_or_odd with rfl | hodd
  · exact List.mem_cons_self
  · have htwo : 2 ≤ p := hp.two_le
    have hlimit : (trialDivisionLimit - 1) / 2 = 4999 := rfl
    have hlimit' : trialDivisionLimit = 10000 := rfl
    refine List.mem_cons_of_mem _ (List.mem_map.2 ⟨(p - 3) / 2, List.mem_range.2 ?_, ?_⟩) <;>
      omega

/-! ### What stays inside a root -/

/-- No power of a small number divides what stays inside a root. -/
theorem not_pow_dvd_splitPower {a n r : Nat} (ha : 0 < a) (hn : 2 ≤ n) (htwo : 2 ≤ r)
    (hle : r ≤ trialDivisionLimit) : ¬ r ^ n ∣ (splitPower a n).2 := by
  intro hdvd
  have hprime : r.minFac.Prime := Nat.minFac_prime (by omega)
  have hmem : r.minFac ∈ trialDivisors :=
    mem_trialDivisors_of_prime hprime ((Nat.minFac_le (by omega)).trans hle)
  have hpower : r.minFac ^ n ∣ (splitPower a n).2 :=
    (pow_dvd_pow_of_dvd r.minFac_dvd n).trans hdvd
  have hremoved : ¬ r.minFac ^ n ∣ (removeSmallPowers n trialDivisors (1, a)).2 :=
    (removeSmallPowers_inside (by omega) trialDivisors_pairwise
      (fun _ => two_le_of_mem_trialDivisors) ha).2 _ hmem
  unfold splitPower at hpower
  rw [if_neg (by omega)] at hpower
  dsimp only at hpower
  split at hpower
  · exact absurd hpower (Nat.not_dvd_of_pos_of_lt Nat.one_pos
      (Nat.one_lt_pow (by omega) hprime.two_le))
  · exact hremoved hpower

/-- What stays inside a root is one or no perfect power. -/
theorem splitPower_eq_one_or_ne_pow {a n : Nat} (ha : 0 < a) (hn : 2 ≤ n) :
    (splitPower a n).2 = 1 ∨ ∀ r, r ^ n ≠ (splitPower a n).2 := by
  unfold splitPower
  rw [if_neg (by omega)]
  dsimp only
  split
  case h_1 => exact .inl rfl
  case h_2 hnone => exact .inr (pow_ne_of_exactRoot?_eq_none (by omega) hnone)

/-- A positive number is split into a power and what stays inside a root of it, which has no power
    of a number up to the limit as a factor and is one or no perfect power. -/
theorem splitPower_exact {a n : Nat} (ha : 0 < a) (hn : 2 ≤ n) :
    1 ≤ (splitPower a n).1 ∧ 1 ≤ (splitPower a n).2 ∧
      (splitPower a n).1 ^ n * (splitPower a n).2 = a ∧
      (∀ r, 2 ≤ r → r ≤ 10000 → ¬ r ^ n ∣ (splitPower a n).2) ∧
      ((splitPower a n).2 = 1 ∨ ∀ r, r ^ n ≠ (splitPower a n).2) := by
  obtain ⟨houtside, hinside⟩ := splitPower_pos ha (by omega : n ≠ 0)
  have hsmall (r : Nat) (htwo : 2 ≤ r) (hle : r ≤ 10000) : ¬ r ^ n ∣ (splitPower a n).2 :=
    not_pow_dvd_splitPower ha hn htwo hle
  exact ⟨houtside, hinside, splitPower_spec a n, hsmall, splitPower_eq_one_or_ne_pow ha hn⟩

/-- A square of two and the square of a prime beyond the limit. -/
theorem splitPower_exact_prime : 0 < 2 ^ 5 * 10007 ^ 2 ∧ 2 ≤ 2 ∧
    (splitPower (2 ^ 5 * 10007 ^ 2) 2).1 ^ 2 * (splitPower (2 ^ 5 * 10007 ^ 2) 2).2 =
      2 ^ 5 * 10007 ^ 2 ∧
    ¬ 2 ^ 2 ∣ (splitPower (2 ^ 5 * 10007 ^ 2) 2).2 := by
  obtain ⟨-, -, hproduct, hsmall, -⟩ :=
    splitPower_exact (a := 2 ^ 5 * 10007 ^ 2) (n := 2) (by decide) (by decide)
  exact ⟨by decide, by decide, hproduct, hsmall 2 (by decide) (by decide)⟩

/-- Nothing comes out of the root of a prime. -/
theorem splitPower_prime {p n : Nat} (hp : p.Prime) (hn : 2 ≤ n) : splitPower p n = (1, p) := by
  have hproduct := splitPower_spec p n
  have hpower : (splitPower p n).1 ^ n ∣ p := ⟨_, hproduct.symm⟩
  have houtside : (splitPower p n).1 = 1 := by
    rcases (Nat.dvd_prime hp).1 hpower with hone | hprime
    · exact (Nat.pow_eq_one.1 hone).resolve_right (by omega)
    · exact absurd (hprime ▸ hp) (Nat.Prime.not_prime_pow hn)
  rw [houtside, Nat.one_pow, Nat.one_mul] at hproduct
  exact Prod.ext houtside hproduct

/-! ### Lowering the index -/

namespace Reduction

/-- The index of the root of a prime stays. -/
theorem lowerIndex_prime {p : Nat} (hp : p.Prime) (index : Nat) :
    lowerIndex p index = (p, index) := by
  unfold lowerIndex
  split_ifs
  · split
    case h_1 d root hfound =>
      have hroot : root ^ d = p := (findRoot?_spec hfound).2
      exact absurd (hroot ▸ hp) (Nat.Prime.not_prime_pow (two_le_of_findRoot? hfound))
    case h_2 => rfl
  · rfl

theorem exactRoot?_eq_none_of_findRoot? {radicand index : Nat} : ∀ {bound : Nat},
    findRoot? radicand index bound = none → ∀ g, 2 ≤ g → g ≤ bound → index % g = 0 →
      exactRoot? radicand g = none
  | 0, _, g, htwo, hle, _ => by omega
  | bound + 1, h, g, htwo, hle, hdivides => by
    unfold findRoot? at h
    rcases Nat.lt_or_eq_of_le hle with hlt | rfl
    · split_ifs at h with htried
      · split at h
        · cases h
        · exact exactRoot?_eq_none_of_findRoot? h g htwo (by omega) hdivides
      · exact exactRoot?_eq_none_of_findRoot? h g htwo (by omega) hdivides
    · rw [if_pos ⟨htwo, hdivides⟩] at h
      split at h
      · cases h
      · assumption

/-- The radicand of a root with lowered index is no perfect power that a divisor of the index
    could be taken out with. -/
theorem lowerIndex_ne_pow {radicand index : Nat} (hindex : 0 < index) {g : Nat} (htwo : 2 ≤ g)
    (hdvd : g ∣ (lowerIndex radicand index).2) (r : Nat) :
    r ^ g ≠ (lowerIndex radicand index).1 := by
  fun_induction lowerIndex radicand index with
  | case1 radicand index hpos d root hfound ih =>
    have hdivides : d ∣ index := Nat.dvd_of_mod_eq_zero (findRoot?_spec hfound).1
    exact ih (Nat.div_pos (Nat.le_of_dvd hpos hdivides) (Nat.pos_of_dvd_of_pos hdivides hpos)) hdvd
  | case2 radicand index hpos hnone =>
    have hnoroot := exactRoot?_eq_none_of_findRoot? hnone g htwo (Nat.le_of_dvd hindex hdvd)
      (Nat.mod_eq_zero_of_dvd hdvd)
    exact pow_ne_of_exactRoot?_eq_none (by omega) hnoroot r
  | case3 radicand index hzero => exact absurd hindex hzero

/-- What is left of a radicand that is no perfect power: an index that is at least two, a
    radicand that is at least two, and no power of a small number in it. -/
theorem lowerIndex_proper {radicand index : Nat} (hradicand : 2 ≤ radicand) (hindex : 2 ≤ index)
    (hpower : ∀ r, r ^ index ≠ radicand) :
    2 ≤ (lowerIndex radicand index).1 ∧ 2 ≤ (lowerIndex radicand index).2 ∧
      ∀ r, r ^ (lowerIndex radicand index).2 ∣ (lowerIndex radicand index).1 →
        r ^ index ∣ radicand := by
  obtain ⟨g, hlowered, hroot⟩ := lowerIndex_spec radicand index
  generalize (lowerIndex radicand index).1 = m at hroot ⊢
  generalize (lowerIndex radicand index).2 = k at hlowered ⊢
  subst hlowered
  subst hroot
  have hk : k ≠ 0 := by
    rintro rfl
    omega
  have hone : k ≠ 1 := by
    rintro rfl
    exact hpower m (by rw [Nat.one_mul])
  have hm : 2 ≤ m := by
    by_contra hsmall
    have hle : m ^ g ≤ 1 ^ g := Nat.pow_le_pow_left (by omega) g
    rw [Nat.one_pow] at hle
    omega
  refine ⟨hm, by omega, fun r hdvd => ?_⟩
  rw [Nat.pow_mul]
  exact pow_dvd_pow_of_dvd hdvd g

end Reduction

end EquationSolver
