import EquationSolver.Number.Integer
import EquationSolver.Proofs.Number.PerfectPower
import Mathlib.Algebra.Order.Group.Unbundled.Int

/-!
# The enumeration of divisors

Every divisor up to the square root is found by trial, and every divisor beyond it is the cofactor
of one of these.  The cofactors of larger divisors are smaller, so the small divisors and, in
reverse, the cofactors ascend strictly.  The trial loop counts and squares words of 64 bits: for
every magnitude that is small enough to enumerate these are the numbers that are meant, and the
loop comes to the divisors.
-/

namespace EquationSolver

variable {n d : Nat}

/-! ### Divisors up to the square root -/

/-- The divisors of a number up to a bound. -/
def smallDivisors (n bound : Nat) : List Nat :=
  (List.range' 1 bound).filter fun d => n % d = 0

/-- The cofactors of divisors other than themselves. -/
def cofactors (n : Nat) (small : List Nat) : List Nat :=
  (small.filter fun d => d ≠ n / d).map (n / ·)

theorem divisors_eq (n : Nat) : divisors n = smallDivisors n (floorRoot n 2) ++
    (cofactors n (smallDivisors n (floorRoot n 2))).reverse :=
  rfl

theorem mul_self_le_iff : d * d ≤ n ↔ d ≤ floorRoot n 2 := by
  obtain ⟨hle, hlt⟩ := floorRoot_bounds (a := n) (n := 2) two_pos
  rw [sq] at hle hlt
  constructor
  · intro hsquare
    exact Nat.lt_succ_iff.1 (Nat.mul_self_lt_mul_self_iff.1 (hsquare.trans_lt hlt))
  · intro hroot
    exact (Nat.mul_le_mul hroot hroot).trans hle

theorem mem_smallDivisors (hn : 0 < n) :
    d ∈ smallDivisors n (floorRoot n 2) ↔ d ∣ n ∧ d * d ≤ n := by
  rw [smallDivisors, List.mem_filter, List.mem_range'_1, decide_eq_true_eq,
    ← Nat.dvd_iff_mod_eq_zero, mul_self_le_iff]
  constructor
  · rintro ⟨⟨-, hbound⟩, hdvd⟩
    exact ⟨hdvd, by omega⟩
  · rintro ⟨hdvd, hroot⟩
    have hpos : 0 < d := Nat.pos_of_dvd_of_pos hdvd hn
    exact ⟨⟨hpos, by omega⟩, hdvd⟩

theorem mem_cofactors {small : List Nat} :
    d ∈ cofactors n small ↔ ∃ e ∈ small, e ≠ n / e ∧ n / e = d := by
  simp only [cofactors, List.mem_map, List.mem_filter, decide_eq_true_eq, and_assoc]

/-- The divisors of a positive number are enumerated completely. -/
theorem mem_divisors (hn : 0 < n) : d ∈ divisors n ↔ d ∣ n := by
  rw [divisors_eq, List.mem_append, List.mem_reverse, mem_cofactors, mem_smallDivisors hn]
  constructor
  · rintro (⟨hdvd, -⟩ | ⟨e, he, -, rfl⟩)
    · exact hdvd
    · exact Nat.div_dvd_of_dvd ((mem_smallDivisors hn).1 he).1
  · intro hdvd
    by_cases hsquare : d * d ≤ n
    · exact .inl ⟨hdvd, hsquare⟩
    · -- A divisor beyond the square root has its cofactor below.
      obtain ⟨e, rfl⟩ := hdvd
      have hpos : 0 < d := Nat.pos_of_mul_pos_right hn
      have hlt : e < d := Nat.lt_of_mul_lt_mul_left (not_le.1 hsquare)
      have hdivisor : d * e / e = d :=
        Nat.mul_div_cancel d (Nat.pos_of_ne_zero (right_ne_zero_of_mul hn.ne'))
      refine .inr ⟨e, (mem_smallDivisors hn).2 ⟨Dvd.intro_left d rfl, ?_⟩, ?_, hdivisor⟩
      · exact Nat.mul_le_mul_right e hlt.le
      · rw [hdivisor]
        exact hlt.ne

/-! ### The order of divisors -/

theorem pairwise_smallDivisors (n bound : Nat) : (smallDivisors n bound).Pairwise (· < ·) :=
  List.Pairwise.filter _ List.pairwise_lt_range'

/-- A larger divisor has a smaller cofactor. -/
theorem div_lt_div_of_dvd {e : Nat} (hn : 0 < n) (hd : d ∣ n) (he : e ∣ n) (hlt : d < e) :
    n / e < n / d := by
  have hpos : 0 < n / d := Nat.div_pos (Nat.le_of_dvd hn hd) (Nat.pos_of_dvd_of_pos hd hn)
  refine Nat.lt_of_mul_lt_mul_left (a := e) ?_
  calc e * (n / e) = d * (n / d) := by rw [Nat.mul_div_cancel' he, Nat.mul_div_cancel' hd]
    _ < e * (n / d) := Nat.mul_lt_mul_of_pos_right hlt hpos

/-- A cofactor other than its divisor is beyond the square root. -/
theorem lt_cofactor {e : Nat} (hn : 0 < n) (hd : d ∣ n) (hsquare : d * d ≤ n) (hne : d ≠ n / d)
    (he : e * e ≤ n) : e < n / d := by
  have hpos : 0 < d := Nat.pos_of_dvd_of_pos hd hn
  have hlt : d < n / d := lt_of_le_of_ne ((Nat.le_div_iff_mul_le hpos).2 hsquare) hne
  by_contra hle
  have hcofactor : n / d * (n / d) < n / d * (n / d) := calc
    n / d * (n / d) ≤ e * e := Nat.mul_le_mul (not_lt.1 hle) (not_lt.1 hle)
    _ ≤ d * (n / d) := by rwa [Nat.mul_div_cancel' hd]
    _ < n / d * (n / d) := Nat.mul_lt_mul_of_pos_right hlt (hpos.trans hlt)
  exact lt_irrefl _ hcofactor

theorem pairwise_cofactors (hn : 0 < n) {small : List Nat} (hsmall : small.Pairwise (· < ·))
    (hdvd : ∀ d ∈ small, d ∣ n) : (cofactors n small).reverse.Pairwise (· < ·) := by
  rw [List.pairwise_reverse, cofactors, List.pairwise_map]
  refine (hsmall.filter _).imp_of_mem fun {d e} hd he hlt => ?_
  exact div_lt_div_of_dvd hn (hdvd d (List.mem_filter.1 hd).1) (hdvd e (List.mem_filter.1 he).1) hlt

/-- The divisors of a positive number are listed in strictly ascending order. -/
theorem pairwise_divisors (hn : 0 < n) : (divisors n).Pairwise (· < ·) := by
  rw [divisors_eq, List.pairwise_append]
  refine ⟨pairwise_smallDivisors n _, ?_, fun e he c hc => ?_⟩
  · exact pairwise_cofactors hn (pairwise_smallDivisors n _)
      fun d hd => ((mem_smallDivisors hn).1 hd).1
  · obtain ⟨d, hd, hne, rfl⟩ := mem_cofactors.1 (List.mem_reverse.1 hc)
    obtain ⟨hdvd, hsquare⟩ := (mem_smallDivisors hn).1 hd
    exact lt_cofactor hn hdvd hsquare hne ((mem_smallDivisors hn).1 he).2

/-! ### The trial loop on words -/

/-- The trial loop from a number on, with the divisors and the cofactors that have been found.  It
    has no result if the square of a number, or the number after it, is no unsigned word of 64
    bits. -/
def trialDivision? (n d : Nat) (small large : List Nat) : Option (List Nat) :=
  if Integer.wordCount ≤ d * d then none
  else if n < d * d then some (small ++ large.reverse)
  else if Integer.wordCount ≤ d + 1 then none
  else if n % d ≠ 0 then trialDivision? n (d + 1) small large
  else if d = n / d then trialDivision? n (d + 1) (small ++ [d]) large
  else trialDivision? n (d + 1) (small ++ [d]) (large ++ [n / d])
termination_by n + 1 - d
decreasing_by
  all_goals
    have hle : d ≤ n := d.le_mul_self.trans (not_lt.1 ‹¬n < d * d›)
    omega

theorem smallDivisors_succ (n bound : Nat) : smallDivisors n (bound + 1) =
    if n % (bound + 1) = 0 then smallDivisors n bound ++ [bound + 1] else smallDivisors n bound := by
  rw [smallDivisors, List.range'_1_concat, List.filter_append, Nat.add_comm 1 bound]
  split
  case isTrue h => rw [List.filter_cons_of_pos (by simpa using h), List.filter_nil, smallDivisors]
  case isFalse h =>
    rw [List.filter_cons_of_neg (by simpa using h), List.filter_nil, List.append_nil, smallDivisors]

theorem cofactors_append (n : Nat) (small : List Nat) (d : Nat) : cofactors n (small ++ [d]) =
    if d = n / d then cofactors n small else cofactors n small ++ [n / d] := by
  rw [cofactors, List.filter_append, List.map_append]
  split
  case isTrue h =>
    rw [List.filter_cons_of_neg (by simpa using h), List.filter_nil, List.map_nil, List.append_nil,
      cofactors]
  case isFalse h =>
    rw [List.filter_cons_of_pos (by simpa using h), List.filter_nil, List.map_singleton, cofactors]

/-- What the loop has found before it comes to the next number. -/
def trialsFrom? (n bound : Nat) : Option (List Nat) :=
  trialDivision? n (bound + 1) (smallDivisors n bound) (cofactors n (smallDivisors n bound))

/-- Trying a number up to the square root adds it and its cofactor to what has been found. -/
theorem trialsFrom?_succ {bound : Nat} (hlimit : n ≤ divisorEnumerationLimit)
    (hbound : (bound + 1) * (bound + 1) ≤ n) : trialsFrom? n bound = trialsFrom? n (bound + 1) := by
  have hwords : divisorEnumerationLimit + 1 < Integer.wordCount := by decide
  have hle : bound + 1 ≤ n := (bound + 1).le_mul_self.trans hbound
  rw [trialsFrom?, trialDivision?, if_neg (by omega), if_neg (by omega), if_neg (by omega),
    trialsFrom?, smallDivisors_succ]
  by_cases hdvd : n % (bound + 1) = 0
  · rw [if_neg (not_not.2 hdvd), if_pos hdvd, cofactors_append]
    split <;> rfl
  · rw [if_pos hdvd, if_neg hdvd]

/-- The square of the first number behind the square root is a word. -/
theorem mul_self_succ_floorRoot_lt (hlimit : n ≤ divisorEnumerationLimit) :
    (floorRoot n 2 + 1) * (floorRoot n 2 + 1) < Integer.wordCount := by
  have hroot : floorRoot n 2 * floorRoot n 2 ≤ 1000000 * 1000000 :=
    (mul_self_le_iff.2 le_rfl).trans hlimit
  have hle : floorRoot n 2 + 1 ≤ 1000001 := Nat.succ_le_succ (Nat.mul_self_le_mul_self_iff.1 hroot)
  calc (floorRoot n 2 + 1) * (floorRoot n 2 + 1) ≤ 1000001 * 1000001 := Nat.mul_le_mul hle hle
    _ < Integer.wordCount := by decide

/-- The loop ends behind the square root, with all divisors. -/
theorem trialsFrom?_eq_divisors {bound : Nat} (hlimit : n ≤ divisorEnumerationLimit)
    (hbound : bound ≤ floorRoot n 2) : trialsFrom? n bound = some (divisors n) := by
  induction hbound using Nat.decreasingInduction with
  | of_succ bound hlt ih =>
    rw [trialsFrom?_succ hlimit (mul_self_le_iff.2 hlt)]
    exact ih
  | self =>
    have hend : n < (floorRoot n 2 + 1) * (floorRoot n 2 + 1) :=
      not_le.1 fun hle => absurd (mul_self_le_iff.1 hle) (by omega)
    rw [trialsFrom?, trialDivision?, if_neg (not_le.2 (mul_self_succ_floorRoot_lt hlimit)),
      if_pos hend, divisors_eq]

/-- On words, the loop comes to the divisors of every number that is small enough to enumerate. -/
theorem trialDivision?_eq_divisors (hlimit : n ≤ divisorEnumerationLimit) :
    trialDivision? n 1 [] [] = some (divisors n) :=
  trialsFrom?_eq_divisors hlimit (Nat.zero_le _)

/-! ### Divisors of integers -/

theorem divisors?_eq_some {n : Int} {found : List Nat} (h : divisors? n = some found) :
    n ≠ 0 ∧ ∀ d, d ∈ found ↔ (d : Int) ∣ n := by
  unfold divisors? at h
  split_ifs at h with hbound
  have hn : n ≠ 0 := fun hzero => hbound (.inl hzero)
  refine ⟨hn, fun d => ?_⟩
  rw [← Option.some.inj h, mem_divisors (Int.natAbs_pos.2 hn), Int.natCast_dvd]

theorem divisors?_of_le {n : Int} (hn : n ≠ 0) (h : n.natAbs ≤ divisorEnumerationLimit) :
    divisors? n = some (divisors n.natAbs) :=
  if_neg (not_or.2 ⟨hn, not_lt.2 h⟩)

/-- The divisors of every integer but zero up to the limit are enumerated: all of them, in strictly
    ascending order, by a loop that never leaves the words. -/
theorem divisors?_enumerates (n : Int) :
    (1 ≤ |n| → |n| ≤ 10 ^ 12 → ∃ found, divisors? n = some found ∧ found.Pairwise (· < ·) ∧
      (∀ d : Nat, d ∈ found ↔ 0 < d ∧ (d : Int) ∣ n) ∧
        trialDivision? n.natAbs 1 [] [] = some found) ∧
      (n = 0 ∨ 10 ^ 12 < |n| → divisors? n = none) := by
  have hlimit : (divisorEnumerationLimit : Int) = 10 ^ 12 := rfl
  rw [← Int.natCast_natAbs]
  refine ⟨fun hpos hle => ?_, fun h => if_pos (h.imp_right fun hlarge => by omega)⟩
  have hn : n ≠ 0 := by omega
  have hsmall : n.natAbs ≤ divisorEnumerationLimit := by omega
  have hfound : divisors? n = some (divisors n.natAbs) := divisors?_of_le hn hsmall
  refine ⟨divisors n.natAbs, hfound, pairwise_divisors (Int.natAbs_pos.2 hn), fun d => ?_,
    trialDivision?_eq_divisors hsmall⟩
  rw [(divisors?_eq_some hfound).2 d]
  refine ⟨fun hdvd => ⟨Nat.pos_of_ne_zero ?_, hdvd⟩, And.right⟩
  rintro rfl
  exact hn (Int.zero_dvd.1 hdvd)

/-- The square of a million is the largest number whose divisors are enumerated. -/
theorem divisors?_enumerates_limit : (1 : Int) ≤ |-10 ^ 12| ∧ |(-10 ^ 12 : Int)| ≤ 10 ^ 12 ∧
    ∃ found, divisors? (-10 ^ 12) = some found ∧ found.Pairwise (· < ·) ∧ 10 ^ 6 ∈ found := by
  have hpos : (1 : Int) ≤ |-10 ^ 12| := by decide
  have hle : |(-10 ^ 12 : Int)| ≤ 10 ^ 12 := by decide
  obtain ⟨found, hfound, hpairwise, hmem, -⟩ := (divisors?_enumerates (-10 ^ 12)).1 hpos hle
  exact ⟨hpos, hle, found, hfound, hpairwise, (hmem (10 ^ 6)).2 ⟨by decide, by decide⟩⟩

end EquationSolver
