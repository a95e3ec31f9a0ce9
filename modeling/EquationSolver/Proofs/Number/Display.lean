import EquationSolver.Number.Digits
import EquationSolver.Proofs.Number.Decimal
import EquationSolver.Proofs.Number.Nearest
import Mathlib

/-!
# The display form is rounded correctly

A number that is not zero is rounded to significant decimal digits on the grid whose unit has the
place of the last of them.  What is rounded up to a power of ten gets another digit in front and
one less at the end, which is on the coarser grid the rounded number as well.

The display form of a double is a decimal literal for the double rounded to as many significant
digits as are shown.  A first rounding decides on the exponent, and with it on the places of a second
one.  The two agree, also where the first has carried into a new digit, and the zeros that are
dropped at the end of the fraction do not count.
-/

namespace EquationSolver

open Binary64 (Rounds)
open Literal

/-- The number is the other one rounded to significant digits, half to even: a multiple of the unit
    in the last of the digits that begin with the leading one. -/
def IsRoundedTo (count : ℕ) (x y : ℚ) : Prop :=
  ∃ (scale : ℤ) (m : ℕ), (10 : ℚ) ^ (scale + count - 1) ≤ |x| ∧ |x| < 10 ^ (scale + count) ∧
    Rounds (|x| / 10 ^ scale) m ∧ y = SignType.sign x * (m * 10 ^ scale)

theorem ten_zpow_lt_iff {k l : ℤ} : (10 : ℚ) ^ k < 10 ^ l ↔ k < l :=
  zpow_lt_zpow_iff_right₀ (by norm_num)

theorem Binary64.Rounds.unique {x : ℚ} {m n : ℕ} (h : Rounds x m) (h' : Rounds x n) : m = n :=
  le_antisymm (h.mono h' le_rfl) (h'.mono h le_rfl)

theorem IsRoundedTo.neg {count : ℕ} {x y : ℚ} (h : IsRoundedTo count x y) :
    IsRoundedTo count (-x) (-y) := by
  obtain ⟨scale, m, hle, hlt, hrounds, rfl⟩ := h
  refine ⟨scale, m, ?_, ?_, ?_, ?_⟩
  · rwa [abs_neg]
  · rwa [abs_neg]
  · rwa [abs_neg]
  · rw [Left.sign_neg, SignType.coe_neg, neg_mul]

/-- There is only one such number. -/
theorem IsRoundedTo.unique {count : ℕ} {x y z : ℚ} (hy : IsRoundedTo count x y)
    (hz : IsRoundedTo count x z) : y = z := by
  obtain ⟨k, m, hkle, hklt, hm, rfl⟩ := hy
  obtain ⟨l, n, hlle, hllt, hn, rfl⟩ := hz
  have hkl := ten_zpow_lt_iff.1 (hkle.trans_lt hllt)
  have hlk := ten_zpow_lt_iff.1 (hlle.trans_lt hklt)
  obtain rfl : k = l := by omega
  rw [hm.unique hn]

namespace Digits

/-! ### The leading digit -/

/-- The digits of a number tell between which powers of ten it is. -/
theorem exists_length_ofNat {n : ℕ} (hn : 0 < n) :
    ∃ d, (ofNat n).length = d + 1 ∧ 10 ^ d ≤ n ∧ n < 10 ^ (d + 1) := by
  have hpos : 0 < (ofNat n).length := Nat.length_toDigits_pos
  obtain ⟨d, hlength⟩ := Nat.exists_eq_add_one.2 hpos
  refine ⟨d, hlength, ?_, ?_⟩
  · by_contra hlt
    rcases Nat.eq_zero_or_pos d with rfl | hd
    · exact hlt hn
    · have hle := (Nat.length_toDigits_le_iff (by norm_num) hd).2 (not_le.1 hlt)
      exact (hlength ▸ hle).not_gt (Nat.lt_succ_self d)
  · exact (Nat.length_toDigits_le_iff (by norm_num) d.succ_pos).1 hlength.le

theorem length_ofNat_of_mem {n d : ℕ} (h : 10 ^ d ≤ n) (h' : n < 10 ^ (d + 1)) :
    (ofNat n).length = d + 1 := by
  obtain ⟨e, hlength, hle, hlt⟩ := exists_length_ofNat ((Nat.pow_pos (by norm_num)).trans_le h)
  have hd := (Nat.pow_lt_pow_iff_right (by norm_num : 1 < 10)).1 (h.trans_lt hlt)
  have he := (Nat.pow_lt_pow_iff_right (by norm_num : 1 < 10)).1 (hle.trans_lt h')
  omega

variable {num den count : ℕ}

theorem leadingExponent_spec (hnum : 0 < num) (hden : 0 < den) :
    (10 : ℚ) ^ leadingExponent num den ≤ num / den ∧
      (num : ℚ) / den < 10 ^ (leadingExponent num den + 1) := by
  have hnum' : (0 : ℚ) < num := by exact_mod_cast hnum
  have hden' : (0 : ℚ) < den := by exact_mod_cast hden
  unfold leadingExponent
  split
  case isTrue hle =>
    obtain ⟨k, hlength, hlow, hhigh⟩ := exists_length_ofNat (Nat.div_pos hle hden)
    have hlow' := (Nat.le_div_iff_mul_le hden).1 hlow
    have hhigh' := (Nat.div_lt_iff_lt_mul hden).1 hhigh
    rw [hlength, le_div_iff₀ hden', div_lt_iff₀ hden', Nat.cast_succ, add_sub_cancel_right,
      zpow_natCast]
    refine ⟨by exact_mod_cast hlow', ?_⟩
    rw [← Nat.cast_succ, zpow_natCast]
    exact_mod_cast hhigh'
  case isFalse hlt =>
    -- how often the numerator goes into the denominator, but for the last part
    have hpos : 0 < (den + num - 1) / num - 1 := by
      have := (Nat.le_div_iff_mul_le hnum).2 (by omega : 2 * num ≤ den + num - 1)
      omega
    obtain ⟨k, hlength, hlow, hhigh⟩ := exists_length_ofNat hpos
    have hparts : den ≤ 10 ^ (k + 1) * num := by
      have := (Nat.div_lt_iff_lt_mul hnum).1
        (by omega : (den + num - 1) / num < 10 ^ (k + 1) + 1)
      rw [Nat.add_mul, Nat.one_mul] at this
      omega
    have hparts' : 10 ^ k * num < den := by
      have := (Nat.le_div_iff_mul_le hnum).1 (by omega : 10 ^ k + 1 ≤ (den + num - 1) / num)
      rw [Nat.add_mul, Nat.one_mul] at this
      omega
    have hnext : -((k + 1 : ℕ) : ℤ) + 1 = -(k : ℕ) := by
      push_cast
      ring
    rw [hlength, le_div_iff₀ hden', div_lt_iff₀ hden', hnext, zpow_neg, zpow_neg, zpow_natCast,
      zpow_natCast]
    constructor
    · rw [inv_mul_le_iff₀ (by positivity)]
      exact_mod_cast hparts
    · rw [lt_inv_mul_iff₀ (by positivity)]
      exact_mod_cast hparts'

/-! ### Rounding -/

/-- A number that is rounded to a power of ten is rounded to the next lower one on the grid that is
    ten times coarser. -/
theorem rounds_carry {x : ℚ} {scale : ℤ} (h : Rounds (x / 10 ^ scale) (10 ^ (count + 1))) :
    Rounds (x / 10 ^ (scale + 1)) (10 ^ count) := by
  obtain ⟨hlow, hhigh⟩ := abs_le.1 h.near
  have hcoarser : x / 10 ^ (scale + 1) = x / 10 ^ scale / 10 := by
    rw [zpow_add_one₀ (by norm_num), div_div]
  rw [hcoarser]
  generalize x / 10 ^ scale = y at hlow hhigh
  apply Binary64.rounds_of_near
  push_cast at *
  rw [pow_succ] at hlow hhigh
  rw [abs_lt]
  constructor <;> linarith

/-- The significand has as many digits as are asked for, its last digit has the place of the unit
    that it is rounded to, and the exponent of its first digit is that of the number, or one more
    when it has been rounded up to a power of ten. -/
structure IsRound (num den count : ℕ) (r : Rounded) : Prop where
  le_significand : 10 ^ (count - 1) ≤ r.significand
  significand_lt : r.significand < 10 ^ count
  rounds : Rounds ((num : ℚ) / den / 10 ^ r.scale) r.significand
  leading : r.scale + count - 1 = leadingExponent num den ∨
    r.scale + count - 1 = leadingExponent num den + 1
  isRoundedTo : IsRoundedTo count ((num : ℚ) / den) (r.significand * 10 ^ r.scale)

theorem isRound_round (hnum : 0 < num) (hden : 0 < den) (hcount : 0 < count) :
    IsRound num den count (round num den count) := by
  obtain ⟨hlow, hhigh⟩ := leadingExponent_spec hnum hden
  have hpos : (0 : ℚ) < num / den := (zpow_pos (by norm_num) _).trans_le hlow
  obtain ⟨count, rfl⟩ := Nat.exists_eq_add_one.2 hcount
  unfold round
  dsimp only
  have hrounds := Binary64.rounds_scaled (by norm_num : 0 < 10) num hden
    (leadingExponent num den - ((count + 1 : ℕ) - 1))
  generalize hscale : leadingExponent num den - (((count + 1 : ℕ) : ℤ) - 1) = scale at hrounds ⊢
  generalize (if 0 ≤ scale then _ else _) = m at hrounds ⊢
  rw [Nat.cast_ofNat] at hrounds
  have hleading : leadingExponent num den = scale + count := by
    push_cast at hscale
    omega
  rw [hleading] at hlow hhigh
  have hunit : (0 : ℚ) < 10 ^ scale := zpow_pos (by norm_num) _
  -- between the powers of ten, and so is the rounded number
  have hle : 10 ^ count ≤ m := by
    refine (Binary64.rounds_natCast (10 ^ count)).mono hrounds ?_
    rw [le_div_iff₀ hunit]
    push_cast
    rw [← zpow_natCast, ← zpow_add₀ (by norm_num), add_comm]
    exact hlow
  have hlt : m ≤ 10 ^ (count + 1) := by
    refine hrounds.mono (Binary64.rounds_natCast (10 ^ (count + 1))) ?_
    rw [div_le_iff₀ hunit]
    push_cast
    rw [← zpow_natCast, ← zpow_add₀ (by norm_num), add_comm, Nat.cast_succ, ← add_assoc]
    exact hhigh.le
  have hrounded (y : ℚ) (hy : y = m * 10 ^ scale) :
      IsRoundedTo (count + 1) ((num : ℚ) / den) y := by
    refine ⟨scale, m, ?_, ?_, ?_, ?_⟩
    · rw [abs_of_pos hpos, Nat.cast_succ, ← add_assoc, add_sub_cancel_right]
      exact hlow
    · rw [abs_of_pos hpos, Nat.cast_succ, ← add_assoc]
      exact hhigh
    · rwa [abs_of_pos hpos]
    · rw [sign_pos hpos, SignType.coe_one, one_mul]
      exact hy
  split
  case isTrue hcarry =>
    have hcarry : m = 10 ^ (count + 1) := hcarry
    subst hcarry
    refine ⟨le_rfl, Nat.pow_lt_pow_right (by norm_num) (Nat.lt_succ_self count),
      rounds_carry hrounds, .inr ?_, hrounded _ ?_⟩
    · rw [hleading]
      push_cast
      ring
    · rw [zpow_add_one₀ (by norm_num), Nat.pow_eq]
      push_cast
      ring
  case isFalse hcarry =>
    refine ⟨hle, lt_of_le_of_ne hlt hcarry, hrounds, .inl ?_, hrounded _ rfl⟩
    rw [hleading]
    push_cast
    ring

end Digits

/-! ### Magnitudes of doubles -/

namespace Binary64

variable {bits : UInt64}

theorem magnitude_eq (bits : UInt64) :
    ((magnitude bits).1 : ℚ) / (magnitude bits).2 = significand bits * 2 ^ exponent bits := by
  unfold magnitude
  split
  case h_1 q hq =>
    rw [hq, Int.ofNat_eq_natCast, zpow_natCast, Nat.pow_eq]
    push_cast
    exact div_one _
  case h_2 q hq =>
    rw [hq, Int.negSucc_eq, zpow_neg, ← Nat.cast_succ, zpow_natCast, Nat.pow_eq, div_eq_mul_inv]
    push_cast
    rfl

theorem magnitude_den_pos (bits : UInt64) : 0 < (magnitude bits).2 := by
  unfold magnitude
  split
  case h_1 => exact Nat.zero_lt_one
  case h_2 => exact Nat.two_pow_pos _

theorem magnitude_num_pos (h : significand bits ≠ 0) : 0 < (magnitude bits).1 := by
  unfold magnitude
  split
  case h_1 => exact Nat.mul_pos (Nat.pos_of_ne_zero h) (Nat.two_pow_pos _)
  case h_2 => exact Nat.pos_of_ne_zero h

theorem significand_lt (bits : UInt64) : significand bits < 2 ^ 53 := by
  have hfraction : fractionField bits < 2 ^ 52 := Nat.mod_lt _ (by decide)
  have hword : exponentWord = 2 ^ 52 := rfl
  unfold significand
  split <;> omega

theorem exponent_bounds (h : isFinite bits = true) :
    -1074 ≤ exponent bits ∧ exponent bits ≤ 971 := by
  have hfield : exponentField bits < 2048 := Nat.mod_lt _ (by decide)
  have hfinite : exponentField bits ≠ 2047 := of_decide_eq_true h
  unfold exponent
  split <;> omega

/-- A finite double that is not zero is between the powers of two that doubles go up to. -/
theorem magnitude_bounds (hfinite : isFinite bits = true) (hnonzero : significand bits ≠ 0) :
    (2 : ℚ) ^ (-1074 : ℤ) ≤ (magnitude bits).1 / (magnitude bits).2 ∧
      ((magnitude bits).1 : ℚ) / (magnitude bits).2 < 2 ^ (1024 : ℤ) := by
  obtain ⟨hlow, hhigh⟩ := exponent_bounds hfinite
  have hone : (1 : ℚ) ≤ significand bits := by exact_mod_cast Nat.pos_of_ne_zero hnonzero
  have htop : (significand bits : ℚ) < 2 ^ (53 : ℤ) := by exact_mod_cast significand_lt bits
  rw [magnitude_eq]
  constructor
  · calc (2 : ℚ) ^ (-1074 : ℤ) ≤ 2 ^ exponent bits := zpow_le_zpow_right₀ one_le_two hlow
      _ ≤ significand bits * 2 ^ exponent bits := le_mul_of_one_le_left (by positivity) hone
  · calc (significand bits : ℚ) * 2 ^ exponent bits < 2 ^ (53 : ℤ) * 2 ^ exponent bits :=
          mul_lt_mul_of_pos_right htop (by positivity)
      _ = 2 ^ (53 + exponent bits) := (zpow_add₀ two_ne_zero _ _).symm
      _ ≤ 2 ^ (1024 : ℤ) := zpow_le_zpow_right₀ one_le_two (by omega)

theorem toRat_eq (bits : UInt64) : toRat bits =
    if signBit bits then -(((magnitude bits).1 : ℚ) / (magnitude bits).2)
    else ((magnitude bits).1 : ℚ) / (magnitude bits).2 :=
  rfl

end Binary64

/-- The first digit of a double has an exponent of at most three digits. -/
theorem Digits.leadingExponent_bounds {bits : UInt64} (hfinite : Binary64.isFinite bits = true)
    (hnonzero : Binary64.significand bits ≠ 0) :
    -360 < leadingExponent (Binary64.magnitude bits).1 (Binary64.magnitude bits).2 ∧
      leadingExponent (Binary64.magnitude bits).1 (Binary64.magnitude bits).2 < 342 := by
  obtain ⟨hlow, hhigh⟩ := leadingExponent_spec (Binary64.magnitude_num_pos hnonzero)
    (Binary64.magnitude_den_pos bits)
  obtain ⟨hleast, hgreatest⟩ := Binary64.magnitude_bounds hfinite hnonzero
  -- ten is more than three factors of two
  have hpower {n k : ℤ} (hk : 0 ≤ k) (hn : n ≤ 3 * k) : (2 : ℚ) ^ n ≤ 10 ^ k :=
    calc (2 : ℚ) ^ n ≤ 2 ^ (3 * k) := zpow_le_zpow_right₀ one_le_two hn
      _ = (2 ^ (3 : ℤ)) ^ k := zpow_mul _ _ _
      _ ≤ 10 ^ k := zpow_le_zpow_left₀ hk (by norm_num) (by norm_num)
  have hfirst : (10 : ℚ) ^ (-358 : ℤ) ≤ 2 ^ (-1074 : ℤ) := by
    rw [zpow_neg, zpow_neg]
    exact inv_anti₀ (zpow_pos two_pos _) (hpower (by norm_num) (by norm_num))
  have hlast : (2 : ℚ) ^ (1024 : ℤ) ≤ 10 ^ (342 : ℤ) := hpower (by norm_num) (by norm_num)
  have habove := ten_zpow_lt_iff.1 (hfirst.trans_lt (hleast.trans_lt hhigh))
  have hbelow := ten_zpow_lt_iff.1 (hlow.trans_lt (hgreatest.trans_le hlast))
  omega

namespace Literal

theorem IsDigits.point_not_mem {text : List Char} (h : IsDigits text) : '.' ∉ text :=
  fun hmem => h.ne hmem (by decide) rfl

theorem IsDigits.trimEnd {text : List Char} (h : IsDigits text) (c : Char) :
    IsDigits (Digits.trimEnd c text) :=
  fun d hd => h d ((List.rdropWhile_prefix (· == c) text).subset hd)

end Literal

namespace Digits

/-! ### Trimming -/

section Trimming

variable {c d : Char}

theorem trimEnd_append_cons (h : d ≠ c) (before after : List Char) :
    trimEnd c (before ++ d :: after) = before ++ d :: trimEnd c after := by
  show List.rdropWhile (· == c) _ = before ++ d :: List.rdropWhile (· == c) after
  induction after using List.reverseRecOn with
  | nil => exact List.rdropWhile_concat_neg (· == c) before d (by simpa using h)
  | append_singleton after e ih =>
    have hconcat : before ++ d :: (after ++ [e]) = (before ++ d :: after) ++ [e] := by simp
    rw [hconcat, List.rdropWhile_concat, List.rdropWhile_concat]
    split
    · exact ih
    · exact hconcat.symm

theorem trimEnd_eq_self {text : List Char} (h : c ∉ text) : trimEnd c text = text :=
  List.rdropWhile_eq_self_iff.2 fun hne => by
    simpa using fun heq : text.getLast hne = c => h (heq ▸ List.getLast_mem hne)

/-- What is dropped from the end is the character, some times. -/
theorem exists_eq_trimEnd_append (c : Char) (text : List Char) :
    ∃ n, text = trimEnd c text ++ List.replicate n c := by
  refine ⟨(text.rtakeWhile (· == c)).length, ?_⟩
  have hdropped : text.rtakeWhile (· == c) =
      List.replicate (text.rtakeWhile (· == c)).length c :=
    List.eq_replicate_of_mem fun d hd => by simpa using List.mem_rtakeWhile_imp hd
  rw [← hdropped]
  exact (List.rdropWhile_append_rtakeWhile ..).symm

end Trimming

section Fraction

variable {whole fraction : List Char} {bits : UInt64}

/-- Only zeros at the end of the fraction are dropped, with the point if nothing is left. -/
theorem trimFraction_joinPoint (hwhole : '.' ∉ whole) (hfraction : IsDigits fraction) :
    trimFraction (joinPoint whole fraction) = joinPoint whole (trimEnd '0' fraction) := by
  unfold trimFraction
  cases hcase : fraction with
  | nil => exact if_neg (by simpa [joinPoint] using hwhole)
  | cons d rest =>
    rw [← hcase]
    have hjoined : joinPoint whole fraction = whole ++ '.' :: fraction := by
      rw [joinPoint, hcase]
      rfl
    rw [hjoined, if_pos (by simp), trimEnd_append_cons (by decide)]
    have hdigits := (hfraction.trimEnd '0').point_not_mem
    unfold joinPoint
    generalize trimEnd '0' fraction = kept at hdigits
    cases kept with
    | nil =>
      have hpoint := List.rdropWhile_concat_pos (· == '.') whole '.' (by decide)
      exact hpoint.trans (trimEnd_eq_self hwhole)
    | cons e kept =>
      obtain ⟨hne, hkept⟩ := not_or.1 (mt List.mem_cons.2 hdigits)
      have happend : whole ++ '.' :: e :: kept = (whole ++ ['.']) ++ e :: kept := by simp
      show trimEnd '.' (whole ++ '.' :: e :: kept) = whole ++ '.' :: e :: kept
      rw [happend, trimEnd_append_cons (Ne.symm hne), trimEnd_eq_self hkept]

theorem signed_joinPoint : signed bits (joinPoint whole fraction) =
    joinPoint (signed bits whole) fraction := by
  unfold signed joinPoint
  split_ifs <;> rfl

theorem signed_append (text text' : List Char) :
    signed bits text ++ text' = signed bits (text ++ text') := by
  unfold signed
  split <;> rfl

/-- Trimming leaves a sign and the digits before the point alone. -/
theorem trimFraction_signed (hwhole : IsDigits whole) (hfraction : IsDigits fraction) :
    trimFraction (signed bits (joinPoint whole fraction)) =
      signed bits (joinPoint whole (trimEnd '0' fraction)) := by
  have hsigned : '.' ∉ signed bits whole := by
    unfold signed
    split
    · simpa using hwhole.point_not_mem
    · exact hwhole.point_not_mem
  rw [signed_joinPoint, signed_joinPoint, trimFraction_joinPoint hsigned hfraction]

end Fraction

/-! ### Digits with a point -/

/-- Digits with a point before the last of them, of which those that count are left. -/
def pointed (digits : List Char) (places : ℕ) : List Char :=
  joinPoint (digits.take (digits.length - places))
    (trimEnd '0' (digits.drop (digits.length - places)))

section Pointed

variable {digits : List Char} {places : ℕ}

theorem isDigits_take (h : IsDigits digits) (n : ℕ) : IsDigits (digits.take n) :=
  fun c hc => h c (List.mem_of_mem_take hc)

theorem isDigits_drop (h : IsDigits digits) (n : ℕ) : IsDigits (digits.drop n) :=
  fun c hc => h c (List.mem_of_mem_drop hc)

theorem trimFraction_digits (bits : UInt64) (h : IsDigits digits) (places : ℕ) :
    trimFraction (signed bits (joinPoint (digits.take (digits.length - places))
      (digits.drop (digits.length - places)))) = signed bits (pointed digits places) :=
  trimFraction_signed (isDigits_take h _) (isDigits_drop h _)

theorem numeral_zeros (n : ℕ) : numeral (List.replicate n '0') = 0 := by
  induction n with
  | zero => rfl
  | succ n ih =>
    rw [List.replicate_succ', numeral_append, ih, Nat.zero_mul]
    rfl

theorem length_pointed_le (digits : List Char) (places : ℕ) :
    (pointed digits places).length ≤ digits.length + 1 := by
  have hkept : (trimEnd '0' (digits.drop (digits.length - places))).length ≤
      (digits.drop (digits.length - places)).length :=
    (List.rdropWhile_prefix (· == '0') _).length_le
  have hsplit := congrArg List.length (List.take_append_drop (digits.length - places) digits)
  rw [List.length_append] at hsplit
  have hjoined (whole fraction : List Char) :
      (joinPoint whole fraction).length ≤ whole.length + fraction.length + 1 := by
    unfold joinPoint
    split
    · omega
    · rw [List.length_append, List.length_cons]
      omega
  exact (hjoined _ _).trans (Nat.succ_le_succ (by omega))

theorem isDigits_leftpad (n : ℕ) (h : IsDigits digits) : IsDigits (digits.leftpad n '0') := by
  refine IsDigits.append (fun c hc => ?_) h
  rw [List.eq_of_mem_replicate hc]
  rfl

theorem numeral_leftpad (n : ℕ) : numeral (digits.leftpad n '0') = numeral digits := by
  rw [List.leftpad, numeral_append, numeral_zeros, Nat.zero_mul, Nat.zero_add]

/-- The value of a fraction without the zeros at its end. -/
theorem numeral_trimEnd (fraction : List Char) :
    (numeral (trimEnd '0' fraction) : ℚ) / 10 ^ (trimEnd '0' fraction).length =
      numeral fraction / 10 ^ fraction.length := by
  obtain ⟨n, hn⟩ := exists_eq_trimEnd_append '0' fraction
  generalize trimEnd '0' fraction = kept at hn
  rw [hn, numeral_append, numeral_zeros, List.length_append, List.length_replicate, pow_add]
  push_cast
  field_simp
  ring

/-- The digits are those of a numerator over ten to the number of places. -/
theorem mantissa_pointed (h : IsDigits digits) (hplaces : places < digits.length) :
    Mantissa (pointed digits places) (numeral digits / 10 ^ places) := by
  have hwhole := isDigits_take h (digits.length - places)
  have hfraction := isDigits_drop h (digits.length - places)
  have hne : digits.take (digits.length - places) ≠ [] := by
    rw [ne_eq, List.take_eq_nil_iff, not_or]
    exact ⟨by omega, List.ne_nil_of_length_pos (by omega)⟩
  have hlength : (digits.drop (digits.length - places)).length = places := by
    rw [List.length_drop]
    omega
  have hvalue : (numeral digits : ℚ) / 10 ^ places =
      numeral (digits.take (digits.length - places)) +
        numeral (trimEnd '0' (digits.drop (digits.length - places))) /
          10 ^ (trimEnd '0' (digits.drop (digits.length - places))).length := by
    rw [numeral_trimEnd, hlength]
    conv_lhs => rw [← List.take_append_drop (digits.length - places) digits, numeral_append, hlength]
    push_cast
    field_simp
  have hkept := hfraction.trimEnd '0'
  rw [hvalue]
  unfold pointed joinPoint
  split
  case isTrue hempty =>
    rw [List.isEmpty_iff.1 hempty, List.length_nil, pow_zero, div_one]
    simpa [numeral] using Mantissa.whole hne hwhole
  case isFalse => exact .point (by simp [hne]) hwhole hkept

end Pointed

/-! ### The two forms -/

/-- A double rounded to significant digits, without its sign. -/
def rounded (bits : UInt64) (count : ℕ) : Rounded :=
  round (Binary64.magnitude bits).1 (Binary64.magnitude bits).2 count

section Forms

variable {bits : UInt64} {count : ℕ}

theorem isRound_rounded (hnonzero : Binary64.significand bits ≠ 0) (hcount : 0 < count) :
    IsRound (Binary64.magnitude bits).1 (Binary64.magnitude bits).2 count (rounded bits count) :=
  isRound_round (Binary64.magnitude_num_pos hnonzero) (Binary64.magnitude_den_pos bits) hcount

theorem IsRound.length_significand {num den : ℕ} {r : Rounded} (h : IsRound num den count r)
    (hcount : 0 < count) : (ofNat r.significand).length = count := by
  obtain ⟨count, rfl⟩ := Nat.exists_eq_add_one.2 hcount
  exact length_ofNat_of_mem h.le_significand h.significand_lt

/-- The second rounding, to as many places as the first one leaves for the fraction, has the same
    result. -/
theorem fixed_eq (hnonzero : Binary64.significand bits ≠ 0) (hcount : 0 < count) {places : ℕ}
    (hplaces : (rounded bits count).scale = -places) :
    trimFraction (fixed bits places) =
      signed bits (pointed ((ofNat (rounded bits count).significand).leftpad (places + 1) '0')
        places) := by
  have hrounds := (isRound_rounded hnonzero hcount).rounds
  have hagain := Binary64.rounds_roundHalfEven ((Binary64.magnitude bits).1 * 10 ^ places)
    (Binary64.magnitude_den_pos bits)
  rw [hplaces, zpow_neg, zpow_natCast, div_inv_eq_mul, div_mul_eq_mul_div] at hrounds
  push_cast at hagain
  unfold fixed
  dsimp only
  rw [Nat.pow_eq, hagain.unique hrounds]
  exact trimFraction_digits bits (isDigits_leftpad _ (isDigits_ofNat _)) places

/-- With an exponent the display form shows the significant digits with a point behind the first;
    without, the point stands where it falls among them or among zeros before them. -/
theorem display_cases (hnonzero : Binary64.significand bits ≠ 0) (hcount : 0 < count) :
    display bits count =
        signed bits (pointed (ofNat (rounded bits count).significand) (count - 1) ++
          'E' :: (toString ((rounded bits count).scale + (count - 1 : ℕ))).toList) ∨
      ∃ places : ℕ, (rounded bits count).scale = -places ∧ places ≤ count + 3 ∧
        display bits count =
          signed bits (pointed ((ofNat (rounded bits count).significand).leftpad (places + 1) '0')
            places) := by
  have hlength := (isRound_rounded hnonzero hcount).length_significand hcount
  have hpred : count - 1 + 1 = count := Nat.sub_add_cancel hcount
  have hmantissa : mantissa bits (count - 1) =
      (signed bits (joinPoint ((ofNat (rounded bits count).significand).take 1)
        ((ofNat (rounded bits count).significand).drop 1)),
        (rounded bits count).scale + (count - 1 : ℕ)) := by
    unfold mantissa rounded
    dsimp only
    rw [hpred]
  have htrim := trimFraction_digits bits (isDigits_ofNat (rounded bits count).significand)
    (count - 1)
  rw [hlength, Nat.sub_sub_self hcount] at htrim
  unfold display
  rw [hmantissa]
  dsimp only
  split
  case isTrue => exact .inl (by rw [htrim, signed_append])
  case isFalse hpositional =>
    rw [not_or, minPositionalExponent] at hpositional
    obtain ⟨places, hplaces⟩ :=
      Int.eq_ofNat_of_zero_le (a := -(rounded bits count).scale) (by omega)
    have hscale : (rounded bits count).scale = -places := by omega
    have hrest : ((count : ℤ) - 1 - ((rounded bits count).scale + (count - 1 : ℕ))).toNat =
        places := by omega
    rw [hrest]
    exact .inr ⟨places, hscale, by omega, fixed_eq hnonzero hcount hscale⟩

/-! ### What is written -/

theorem exponent_toString (z : ℤ) : Exponent (toString z).toList z := by
  rw [toList_toString_int]
  split
  case isTrue h =>
    have := Exponent.unsigned (ofNat_ne_nil z.toNat) (isDigits_ofNat _)
    rwa [numeral_ofNat, Int.toNat_of_nonneg h] at this
  case isFalse h =>
    have := Exponent.negative (ofNat_ne_nil (-z).toNat) (isDigits_ofNat _)
    rwa [numeral_ofNat, Int.toNat_of_nonneg (by omega), neg_neg] at this

theorem length_toString_le {z : ℤ} (h : |z| < 1000) : (toString z).toList.length ≤ 4 := by
  have hnat {n : ℕ} (hn : n < 10 ^ 3) : (ofNat n).length ≤ 3 :=
    (Nat.length_toDigits_le_iff (by norm_num) (by norm_num)).2 hn
  rw [abs_lt] at h
  rw [toList_toString_int]
  split
  · exact (hnat (by omega)).trans (by norm_num)
  · exact Nat.succ_le_succ (hnat (by omega))

theorem spells_signed {text : List Char} {m : ℚ} {e : ℤ} (h : Unsigned text m e) :
    Spells (signed bits text) (applySign (Binary64.signBit bits) m) e := by
  unfold signed applySign
  split
  · exact .negative h
  · exact .unsigned h

/-- The display form spells the rounded double, with an exponent of at most three digits. -/
theorem exists_spells_display (hfinite : Binary64.isFinite bits = true)
    (hnonzero : Binary64.significand bits ≠ 0) (hcount : 0 < count) :
    ∃ m e, Spells (display bits count) (applySign (Binary64.signBit bits) m) e ∧ |e| < 400 ∧
      m * 10 ^ e = (rounded bits count).significand * 10 ^ (rounded bits count).scale := by
  have hround := isRound_rounded hnonzero hcount
  have hlength := hround.length_significand hcount
  obtain ⟨hlow, hhigh⟩ := leadingExponent_bounds hfinite hnonzero
  have hten : (10 : ℚ) ≠ 0 := by norm_num
  obtain hdisplay | ⟨places, hscale, -, hdisplay⟩ := display_cases hnonzero hcount
  · have hmantissa := mantissa_pointed (isDigits_ofNat (rounded bits count).significand)
      (show count - 1 < (ofNat (rounded bits count).significand).length by omega)
    have hmark : isMark 'E' = true := rfl
    refine ⟨_, (rounded bits count).scale + (count - 1 : ℕ), hdisplay ▸ spells_signed
      (.scaled hmantissa hmark (exponent_toString _)), ?_, ?_⟩
    · have hleading := hround.leading
      rw [abs_lt]
      omega
    · rw [numeral_ofNat, zpow_add₀ hten, zpow_natCast]
      field_simp
  · have hpadded : places <
        ((ofNat (rounded bits count).significand).leftpad (places + 1) '0').length := by
      rw [List.length_leftpad]
      omega
    have hmantissa := mantissa_pointed (isDigits_leftpad (places + 1)
      (isDigits_ofNat (rounded bits count).significand)) hpadded
    refine ⟨_, 0, hdisplay ▸ spells_signed (.plain hmantissa), by norm_num, ?_⟩
    rw [numeral_leftpad, numeral_ofNat, hscale, zpow_neg, zpow_natCast, zpow_zero, mul_one,
      div_eq_mul_inv]

/-- The display form is short. -/
theorem length_display_lt (hfinite : Binary64.isFinite bits = true)
    (hnonzero : Binary64.significand bits ≠ 0) (hcount : 0 < count)
    (hlimit : count ≤ maxSignificant) : (display bits count).length < 100 := by
  have hround := isRound_rounded hnonzero hcount
  have hlength := hround.length_significand hcount
  have hleading := hround.leading
  obtain ⟨hlow, hhigh⟩ := leadingExponent_bounds hfinite hnonzero
  rw [maxSignificant] at hlimit
  have hsigned (text : List Char) : (signed bits text).length ≤ text.length + 1 := by
    unfold signed
    split
    · exact le_rfl
    · exact Nat.le_succ _
  obtain hdisplay | ⟨places, hscale, hplaces, hdisplay⟩ := display_cases hnonzero hcount
  · have hexponent := length_toString_le
      (z := (rounded bits count).scale + (count - 1 : ℕ)) (by
        rw [abs_lt]
        omega)
    have hpointed := length_pointed_le (ofNat (rounded bits count).significand) (count - 1)
    rw [hdisplay]
    refine (hsigned _).trans_lt ?_
    rw [List.length_append, List.length_cons]
    omega
  · have hpointed := length_pointed_le
      ((ofNat (rounded bits count).significand).leftpad (places + 1) '0') places
    rw [List.length_leftpad] at hpointed
    rw [hdisplay]
    exact (hsigned _).trans_lt (by omega)

end Forms

/-- The display form of a finite double that is not zero is a decimal literal.  It is read as the
    exact value of the double rounded to as many significant digits as are shown. -/
theorem format_isRoundedTo {bits : UInt64} (hfinite : Binary64.isFinite bits = true)
    (hnonzero : Binary64.significand bits ≠ 0) (n : ℕ) :
    ∃ y, Denotes (format bits n).toList y ∧ value? (format bits n) = some y ∧
      IsRoundedTo (significantCount n) (Binary64.toRat bits) y := by
  have hcount : 0 < significantCount n := by
    unfold significantCount
    omega
  have hlimit : significantCount n ≤ maxSignificant := by
    unfold significantCount maxSignificant
    omega
  have hformat : (format bits n).toList = display bits (significantCount n) := by
    rw [format, hfinite, Bool.not_true, if_neg Bool.false_ne_true, if_neg hnonzero,
      String.toList_ofList]
  obtain ⟨m, e, hspells, hexponent, hvalue⟩ := exists_spells_display hfinite hnonzero hcount
  rw [abs_lt] at hexponent
  have hdenotes : Denotes (display bits (significantCount n))
      (applySign (Binary64.signBit bits) (m * 10 ^ e)) :=
    ⟨_, e, hspells, by omega, by omega, applySign_mul _ _ _⟩
  have hnarrow : NarrowsExactly (display bits (significantCount n)) :=
    narrowsExactly_of_length_lt
      ((length_display_lt hfinite hnonzero hcount hlimit).trans (by norm_num))
  have hwritten : writtenExponent? (display bits (significantCount n)) ≠ some (-2 ^ 63) := by
    rw [hspells.exists_mantissa.1]
    intro heq
    have := Option.some.inj heq
    omega
  have hrounded := (isRound_rounded hnonzero hcount).isRoundedTo
  refine ⟨applySign (Binary64.signBit bits) (m * 10 ^ e), ?_, ?_, ?_⟩
  · rwa [hformat]
  · rw [value?, hformat]
    exact (ofChars?_eq_some_iff hnarrow hwritten).2 hdenotes
  · rw [Binary64.toRat_eq, hvalue]
    unfold applySign
    split
    · exact hrounded.neg
    · exact hrounded

/-- Rounding 999.9 to three digits carries into a fourth. -/
theorem format_isRoundedTo_carry : Binary64.isFinite 0x408F3F3333333333 = true ∧
    Binary64.significand 0x408F3F3333333333 ≠ 0 ∧ ∃ y, value? (format 0x408F3F3333333333 3) = some y ∧
      IsRoundedTo 3 (Binary64.toRat 0x408F3F3333333333) y ∧ y = 1000 := by
  have hfinite : Binary64.isFinite 0x408F3F3333333333 = true := by decide
  have hnonzero : Binary64.significand 0x408F3F3333333333 ≠ 0 := by decide
  obtain ⟨y, -, hvalue, hrounded⟩ := format_isRoundedTo hfinite hnonzero 3
  refine ⟨hfinite, hnonzero, y, hvalue, hrounded, ?_⟩
  have hread : value? (format 0x408F3F3333333333 3) = some 1000 := by decide +kernel
  exact Option.some.inj (hvalue.symm.trans hread)

end Digits

end EquationSolver
