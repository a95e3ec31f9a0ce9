import EquationSolver.Proofs.Number.Size
import Mathlib

/-!
# The nearest double keeps the order

A rational is rounded on a grid that its magnitude determines, and the word of the double is the
place on the grids one after the other.  A larger number has no smaller word, and where doubles are
dense enough for two numbers, they have different ones.  Doubles compare as their words do, with
the sign for a sign, and what compares with anything is a number.
-/

namespace EquationSolver

namespace Binary64

open Float.Model (Format UnpackedFloat)
open Float.Model.UnpackedFloat (Sign unpackSign unpackExponent unpackMantissa)

/-! ### Rounding to a natural number -/

/-- The number is nearest to the rational, and even if another one is as near. -/
structure Rounds (x : Rat) (m : Nat) : Prop where
  near : |x - m| ≤ 1 / 2
  even_of_tie : |x - m| = 1 / 2 → m % 2 = 0

section Rounding

variable {x y : Rat} {m n : Nat}

/-- A number is nearest if it is nearer than half a unit. -/
theorem rounds_of_near (h : |x - m| < 1 / 2) : Rounds x m :=
  ⟨h.le, fun htie => absurd htie h.ne⟩

theorem rounds_roundHalfEven (num : Nat) {den : Nat} (hden : 0 < den) :
    Rounds ((num : Rat) / den) (roundHalfEven num den) := by
  have hden' : (0 : Rat) < den := by exact_mod_cast hden
  have hdivision : (num : Rat) / den = (num / den : Nat) + (num % den : Nat) / den := by
    rw [div_eq_iff hden'.ne', add_mul, div_mul_cancel₀ _ hden'.ne']
    exact_mod_cast (Nat.div_add_mod' num den).symm
  have hremainder : num % den < den := Nat.mod_lt num hden
  rw [hdivision]
  unfold roundHalfEven
  generalize num / den = quotient
  generalize num % den = remainder at hremainder
  dsimp only
  have hnonneg : (0 : Rat) ≤ (remainder : Rat) / den := by positivity
  have hone : (remainder : Rat) / den < 1 := by
    rw [div_lt_one hden']
    exact_mod_cast hremainder
  have hhalf : (remainder : Rat) / den - 1 / 2 = (2 * remainder - den) / (2 * den) := by
    field_simp
  split_ifs with hbelow habove
  · have hlt : (2 * remainder : Rat) - den < 0 := sub_neg.2 (by exact_mod_cast hbelow)
    have hneg := hhalf.trans_lt (div_neg_of_neg_of_pos hlt (by positivity))
    apply rounds_of_near
    rw [abs_lt]
    constructor <;> linarith
  · have hgt : 0 < (2 * remainder : Rat) - den := sub_pos.2 (by exact_mod_cast habove)
    have hpos := hhalf.symm ▸ div_pos hgt (by positivity : (0 : Rat) < 2 * den)
    apply rounds_of_near
    push_cast
    rw [abs_lt]
    constructor <;> linarith
  · have htie : (2 * remainder : Rat) - den = 0 := sub_eq_zero.2 (by exact_mod_cast (by omega))
    rw [htie, zero_div, sub_eq_zero] at hhalf
    rw [hhalf]
    rcases Nat.mod_two_eq_zero_or_one quotient with heven | hodd
    · rw [heven]
      refine ⟨?_, fun _ => by omega⟩
      push_cast
      rw [add_zero, add_sub_cancel_left, abs_of_pos one_half_pos]
    · rw [hodd]
      refine ⟨?_, fun _ => by omega⟩
      push_cast
      rw [add_sub_add_left_eq_sub, abs_le]
      constructor <;> norm_num

/-- A fraction is rounded on a grid of powers of a base. -/
theorem rounds_scaled {base : Nat} (hbase : 0 < base) (num : Nat) {den : Nat} (hden : 0 < den)
    (q : Int) : Rounds ((num : Rat) / den / (base : Rat) ^ q)
      (if 0 ≤ q then roundHalfEven num (den * Nat.pow base q.toNat)
      else roundHalfEven (num * Nat.pow base (-q).toNat) den) := by
  split
  case isTrue hq =>
    obtain ⟨k, rfl⟩ := Int.eq_ofNat_of_zero_le hq
    have hrounds := rounds_roundHalfEven num (Nat.mul_pos hden (Nat.pow_pos hbase (n := k)))
    push_cast at hrounds
    rw [Int.toNat_natCast, zpow_natCast, div_div]
    exact hrounds
  case isFalse hq =>
    obtain ⟨k, hk⟩ := Int.eq_ofNat_of_zero_le (a := -q) (by omega)
    obtain rfl : q = -k := by omega
    have hrounds := rounds_roundHalfEven (num * base ^ k) hden
    push_cast at hrounds
    rw [neg_neg, Int.toNat_natCast, zpow_neg, zpow_natCast, div_inv_eq_mul, div_mul_eq_mul_div]
    exact hrounds

/-- Numbers keep their order when they are rounded. -/
theorem Rounds.mono (h : Rounds x m) (h' : Rounds y n) (hxy : x ≤ y) : m ≤ n := by
  by_contra hlt
  have hlt : (n : Rat) + 1 ≤ m := by exact_mod_cast (by omega : n + 1 ≤ m)
  obtain ⟨hlow, -⟩ := abs_le.1 h.near
  obtain ⟨-, hhigh⟩ := abs_le.1 h'.near
  -- both are half a unit away from numbers next to each other, one of which is odd
  have hm : x - m = -(1 / 2) := by linarith
  have hn : y - n = 1 / 2 := by linarith
  have hsucc : m = n + 1 := by
    have : (m : Rat) = n + 1 := by linarith
    exact_mod_cast this
  have heven := h.even_of_tie (by rw [hm, abs_neg, abs_of_pos one_half_pos])
  have heven' := h'.even_of_tie (by rw [hn, abs_of_pos one_half_pos])
  omega

/-- Numbers that differ by more than a unit are rounded differently. -/
theorem Rounds.lt (h : Rounds x m) (h' : Rounds y n) (hxy : x + 1 < y) : m < n := by
  obtain ⟨hlow, -⟩ := abs_le.1 h.near
  obtain ⟨-, hhigh⟩ := abs_le.1 h'.near
  have hlt : (m : Rat) < n := by linarith
  exact_mod_cast hlt

theorem rounds_natCast (n : Nat) : Rounds n n :=
  rounds_of_near (by norm_num)

end Rounding

/-! ### Grids -/

/-- A positive number `x` is rounded to `m` units of `2 ^ q`, with fifty-three binary digits unless
    the grid cannot be finer. -/
structure IsGridded (x : Rat) (q : Int) (m : Nat) : Prop where
  finest : -1074 ≤ q
  lt_top : x / 2 ^ q < 2 ^ 53
  bottom_le : q = -1074 ∨ 2 ^ 52 ≤ x / 2 ^ q
  rounds : Rounds (x / 2 ^ q) m

/-- The place on the grids one after the other, each of which takes as many places as there are
    significands. -/
def gridWord (q : Int) (m : Nat) : Nat :=
  (q + 1074).toNat * 2 ^ 52 + m

section Grids

variable {x y : Rat} {q r : Int} {m n : Nat}

theorem IsGridded.le_top (h : IsGridded x q m) : m ≤ 2 ^ 53 := by
  have hrounds := rounds_natCast (2 ^ 53)
  push_cast at hrounds
  exact h.rounds.mono hrounds h.lt_top.le

theorem IsGridded.bottom_le_significand (h : IsGridded x q m) (hx : 2 ^ 52 ≤ x / 2 ^ q) :
    2 ^ 52 ≤ m := by
  have hrounds := rounds_natCast (2 ^ 52)
  push_cast at hrounds
  exact hrounds.mono h.rounds hx

/-- A larger number is rounded on a grid that is no finer. -/
theorem IsGridded.exponent_le (h : IsGridded x q m) (h' : IsGridded y r n) (hxy : x ≤ y) :
    q ≤ r := by
  by_contra hlt
  have hq : q ≠ -1074 := by
    have := h'.finest
    omega
  have hbottom := h.bottom_le.resolve_left hq
  have htop := h'.lt_top
  rw [le_div_iff₀ (zpow_pos two_pos q)] at hbottom
  rw [div_lt_iff₀ (zpow_pos two_pos r)] at htop
  have hpower : (2 : Rat) ^ 53 * 2 ^ r ≤ 2 ^ 52 * 2 ^ q := by
    calc (2 : Rat) ^ 53 * 2 ^ r = 2 ^ 52 * 2 ^ (r + 1) := by
          rw [zpow_add_one₀ two_ne_zero]
          ring
      _ ≤ 2 ^ 52 * 2 ^ q :=
          mul_le_mul_of_nonneg_left (zpow_le_zpow_right₀ one_le_two (by omega)) (by positivity)
  linarith

/-- On a coarser grid a number is further on. -/
theorem IsGridded.bottom_le_of_lt (h : IsGridded x q m) (h' : IsGridded y r n) (hqr : q < r) :
    2 ^ 52 ≤ y / 2 ^ r :=
  h'.bottom_le.resolve_left (by have := h.finest; omega)

/-- A larger number is no less far on the grids. -/
theorem IsGridded.word_le (h : IsGridded x q m) (h' : IsGridded y r n) (hxy : x ≤ y) :
    gridWord q m ≤ gridWord r n := by
  have hfinest := h.finest
  unfold gridWord
  rcases (h.exponent_le h' hxy).eq_or_lt with rfl | hlt
  · have hmn := h.rounds.mono h'.rounds
      (div_le_div_of_nonneg_right hxy (zpow_pos two_pos q).le)
    omega
  · have htop := h.le_top
    have hbottom := h'.bottom_le_significand (h.bottom_le_of_lt h' hlt)
    omega

/-- A number that is larger by more than a unit of its grid is further on. -/
theorem IsGridded.word_lt (h : IsGridded x q m) (h' : IsGridded y r n)
    (hxy : 1 < (y - x) / 2 ^ r) : gridWord q m < gridWord r n := by
  have hr : (0 : Rat) < 2 ^ r := zpow_pos two_pos r
  have hlt : x < y := by
    rw [lt_div_iff₀ hr] at hxy
    linarith
  rw [sub_div] at hxy
  have hfinest := h.finest
  unfold gridWord
  rcases (h.exponent_le h' hlt.le).eq_or_lt with rfl | hqr
  · have hmn := h.rounds.lt h'.rounds (by linarith)
    omega
  · have htop := h.le_top
    have hbottom := h'.bottom_le_significand (h.bottom_le_of_lt h' hqr)
    by_contra hge
    -- both are rounded to the power of two at which the grid changes
    obtain ⟨rfl, rfl, rfl⟩ : r = q + 1 ∧ m = 2 ^ 53 ∧ n = 2 ^ 52 := by omega
    obtain ⟨hx, -⟩ := abs_le.1 h.rounds.near
    obtain ⟨-, hy⟩ := abs_le.1 h'.rounds.near
    have hhalf : x / 2 ^ (q + 1) = x / 2 ^ q / 2 := by
      rw [zpow_add_one₀ two_ne_zero, div_mul_eq_div_div]
    rw [hhalf] at hxy
    push_cast at hx hy
    linarith

end Grids

/-! ### The grid of a fraction -/

theorem log2_le_zpow {n : Nat} (hn : 0 < n) :
    (2 : Rat) ^ (n.log2 : Int) ≤ n ∧ (n : Rat) < 2 ^ ((n.log2 : Int) + 1) := by
  constructor
  · exact_mod_cast Nat.log2_self_le hn.ne'
  · exact_mod_cast Nat.lt_log2_self

/-- Numerator and denominator are compared with one of them shifted. -/
theorem lt_zpow_iff (num : Nat) {den : Nat} (hden : 0 < den) (e : Int) :
    (num : Rat) / den < 2 ^ e ↔
      if 0 ≤ e then num < den * Nat.pow 2 e.toNat else num * Nat.pow 2 (-e).toNat < den := by
  have hden' : (0 : Rat) < den := by exact_mod_cast hden
  split
  case isTrue he =>
    obtain ⟨k, rfl⟩ := Int.eq_ofNat_of_zero_le he
    rw [div_lt_iff₀ hden', Int.toNat_natCast, zpow_natCast, mul_comm]
    exact_mod_cast Iff.rfl
  case isFalse he =>
    obtain ⟨k, hk⟩ := Int.eq_ofNat_of_zero_le (a := -e) (by omega)
    obtain rfl : e = -k := by omega
    rw [neg_neg, Int.toNat_natCast, zpow_neg, zpow_natCast, div_lt_iff₀ hden', inv_mul_eq_div,
      lt_div_iff₀ (pow_pos two_pos k)]
    exact_mod_cast Iff.rfl

/-- The power of two below a fraction is found from the lengths of its parts. -/
theorem gridExponent_spec {num den : Nat} (hnum : 0 < num) (hden : 0 < den) :
    ∃ leading : Int, gridExponent num den = max (leading - 52) (-1074) ∧
      (2 : Rat) ^ leading ≤ (num : Rat) / den ∧ (num : Rat) / den < 2 ^ (leading + 1) := by
  have hden' : (0 : Rat) < den := by exact_mod_cast hden
  obtain ⟨hnumLow, hnumHigh⟩ := log2_le_zpow hnum
  obtain ⟨hdenLow, hdenHigh⟩ := log2_le_zpow hden
  have hbelow := lt_zpow_iff num hden ((num.log2 : Int) - den.log2)
  have htop : (num : Rat) / den < 2 ^ ((num.log2 : Int) - den.log2 + 1) := by
    calc (num : Rat) / den < 2 ^ ((num.log2 : Int) + 1) / 2 ^ (den.log2 : Int) :=
          div_lt_div₀ hnumHigh hdenLow (zpow_pos two_pos _).le (zpow_pos two_pos _)
      _ = 2 ^ ((num.log2 : Int) - den.log2 + 1) := by
          rw [← zpow_sub₀ two_ne_zero]
          congr 1
          ring
  have hbottom : (2 : Rat) ^ ((num.log2 : Int) - den.log2 - 1) ≤ (num : Rat) / den := by
    calc (2 : Rat) ^ ((num.log2 : Int) - den.log2 - 1)
        = 2 ^ (num.log2 : Int) / 2 ^ ((den.log2 : Int) + 1) := by
          rw [← zpow_sub₀ two_ne_zero]
          congr 1
          ring
      _ ≤ (num : Rat) / den := div_le_div₀ (by positivity) hnumLow hden' hdenHigh.le
  unfold gridExponent
  dsimp only
  generalize (num.log2 : Int) - den.log2 = estimate at hbelow htop hbottom ⊢
  have hdecide : (if 0 ≤ estimate then decide (num < den * Nat.pow 2 estimate.toNat)
      else decide (num * Nat.pow 2 (-estimate).toNat < den)) =
        decide ((num : Rat) / den < 2 ^ estimate) := by
    split_ifs at hbelow ⊢ <;> exact decide_eq_decide.2 hbelow.symm
  rw [hdecide]
  by_cases hlt : (num : Rat) / den < 2 ^ estimate
  · exact ⟨estimate - 1, by simp [hlt], hbottom, by rwa [sub_add_cancel]⟩
  · exact ⟨estimate, by simp [hlt], not_lt.1 hlt, htop⟩

/-- The word of the nearest double is the place of the number on the grids, as long as that is below
    the word of infinity. -/
theorem nearestMagnitude_spec {num den : Nat} (hnum : 0 < num) (hden : 0 < den) :
    ∃ q m, IsGridded ((num : Rat) / den) q m ∧
      nearestMagnitude num den = min (gridWord q m) infinityWord := by
  have hden' : (0 : Rat) < den := by exact_mod_cast hden
  obtain ⟨leading, hgrid, hlow, hhigh⟩ := gridExponent_spec hnum hden
  refine ⟨gridExponent num den, _, ⟨?_, ?_, ?_, ?_⟩, rfl⟩
  · omega
  · rw [div_lt_iff₀ (zpow_pos two_pos _)]
    calc (num : Rat) / den < 2 ^ (leading + 1) := hhigh
      _ ≤ 2 ^ (53 + gridExponent num den) := zpow_le_zpow_right₀ one_le_two (by omega)
      _ = 2 ^ 53 * 2 ^ gridExponent num den := by
          rw [zpow_add₀ two_ne_zero]
          norm_num
  · rcases le_or_gt (leading - 52) (-1074) with hle | hgt
    · exact .inl (by omega)
    · refine .inr ?_
      have hleading : gridExponent num den = leading - 52 := by omega
      rw [le_div_iff₀ (zpow_pos two_pos _), hleading]
      calc (2 : Rat) ^ 52 * 2 ^ (leading - 52) = 2 ^ leading := by
            rw [zpow_sub₀ two_ne_zero]
            norm_num
            ring
        _ ≤ (num : Rat) / den := hlow
  · exact rounds_scaled two_pos num hden _

/-! ### Words of doubles -/

/-- The double has the word, with its sign for a sign. -/
inductive HasWord : UnpackedFloat → Int → Prop
  | infinity (sign : Sign) : HasWord (.infinity sign) (sign.apply infinityWord)
  | zero (sign : Sign) : HasWord (.zero sign) 0
  | finite (sign : Sign) {m : Nat} {e : Int} (hm : 0 < m) (finest : -1074 ≤ e) (htop : m < 2 ^ 53)
      (hbottom : e = -1074 ∨ 2 ^ 52 ≤ m) (hword : gridWord e m < infinityWord) :
      HasWord (.finite sign m e hm) (sign.apply (gridWord e m))

section Words

variable {u v : UnpackedFloat} {k l : Int} {w : Nat} {sign : Sign}

/-- Significands are compared after exponents. -/
theorem compare_gridWord {m m' : Nat} {e e' : Int} (hm : m < 2 ^ 53) (hm' : m' < 2 ^ 53)
    (he : -1074 ≤ e) (he' : -1074 ≤ e') (h : e = -1074 ∨ 2 ^ 52 ≤ m)
    (h' : e' = -1074 ∨ 2 ^ 52 ≤ m') :
    (compare e e').then (compare m m') = compare (gridWord e m : Int) (gridWord e' m') := by
  unfold gridWord
  rcases lt_trichotomy e e' with hlt | rfl | hgt
  · rw [Int.compare_eq_lt.2 hlt, Int.compare_eq_lt.2 (by omega)]
    rfl
  · rw [Int.compare_eq_eq.2 rfl]
    show compare m m' = _
    rcases lt_trichotomy m m' with hlt | rfl | hgt
    · rw [Nat.compare_eq_lt.2 hlt, Int.compare_eq_lt.2 (by omega)]
    · rw [Nat.compare_eq_eq.2 rfl, Int.compare_eq_eq.2 rfl]
    · rw [Nat.compare_eq_gt.2 hgt, Int.compare_eq_gt.2 (by omega)]
  · rw [Int.compare_eq_gt.2 hgt, Int.compare_eq_gt.2 (by omega)]
    rfl

theorem compare_neg_neg (k l : Int) : compare (-k) (-l) = (compare k l).swap := by
  rcases lt_trichotomy k l with hlt | rfl | hgt
  · rw [Int.compare_eq_lt.2 hlt, Int.compare_eq_gt.2 (by omega)]
    rfl
  · simp
  · rw [Int.compare_eq_gt.2 hgt, Int.compare_eq_lt.2 (by omega)]
    rfl

theorem gridWord_pos {m : Nat} (hm : 0 < m) (e : Int) : 0 < gridWord e m :=
  Nat.add_pos_right _ hm

theorem some_compare_lt {k l : Int} (h : k < l) : some .lt = some (compare k l) := by
  rw [Int.compare_eq_lt.2 h]

theorem some_compare_gt {k l : Int} (h : l < k) : some .gt = some (compare k l) := by
  rw [Int.compare_eq_gt.2 h]

theorem some_compare_eq {k l : Int} (h : k = l) : some .eq = some (compare k l) := by
  rw [Int.compare_eq_eq.2 h]

/-- Doubles compare as their words do. -/
theorem HasWord.compare_eq (h : HasWord u k) (h' : HasWord v l) :
    u.compare v = some (compare k l) := by
  have hinfinity : 0 < infinityWord := by decide
  cases h with
  | infinity sign =>
    cases h' with
    | infinity sign' =>
      cases sign <;> cases sign'
      · exact some_compare_eq rfl
      · exact some_compare_lt (by simp only [Sign.apply]; omega)
      · exact some_compare_gt (by simp only [Sign.apply]; omega)
      · exact some_compare_eq rfl
    | zero sign' =>
      cases sign
      · exact some_compare_lt (by simp only [Sign.apply]; omega)
      · exact some_compare_gt (by simp only [Sign.apply]; omega)
    | finite sign' hm finest htop hbottom hword =>
      cases sign <;> cases sign'
      · exact some_compare_lt (by simp only [Sign.apply]; omega)
      · exact some_compare_lt (by simp only [Sign.apply]; omega)
      · exact some_compare_gt (by simp only [Sign.apply]; omega)
      · exact some_compare_gt (by simp only [Sign.apply]; omega)
  | zero sign =>
    cases h' with
    | infinity sign' =>
      cases sign'
      · exact some_compare_gt (by simp only [Sign.apply]; omega)
      · exact some_compare_lt (by simp only [Sign.apply]; omega)
    | zero sign' => exact some_compare_eq rfl
    | @finite sign' m' e' hm finest htop hbottom hword =>
      have hpos := gridWord_pos hm e'
      cases sign'
      · exact some_compare_gt (by simp only [Sign.apply]; omega)
      · exact some_compare_lt (by simp only [Sign.apply]; omega)
  | @finite sign m e hm finest htop hbottom hword =>
    have hpos := gridWord_pos hm e
    cases h' with
    | infinity sign' =>
      cases sign <;> cases sign'
      · exact some_compare_gt (by simp only [Sign.apply]; omega)
      · exact some_compare_lt (by simp only [Sign.apply]; omega)
      · exact some_compare_gt (by simp only [Sign.apply]; omega)
      · exact some_compare_lt (by simp only [Sign.apply]; omega)
    | zero sign' =>
      cases sign
      · exact some_compare_lt (by simp only [Sign.apply]; omega)
      · exact some_compare_gt (by simp only [Sign.apply]; omega)
    | @finite sign' m' e' hm' finest' htop' hbottom' hword' =>
      have hpos' := gridWord_pos hm' e'
      have hgrids := compare_gridWord htop htop' finest finest' hbottom hbottom'
      cases sign <;> cases sign'
      · exact congrArg some ((congrArg Ordering.swap hgrids).trans (compare_neg_neg _ _).symm)
      · exact some_compare_lt (by simp only [Sign.apply]; omega)
      · exact some_compare_gt (by simp only [Sign.apply]; omega)
      · exact congrArg some hgrids

theorem lt_iff_compare {x y : Float} :
    x < y ↔ x.toModel.unpack.compare y.toModel.unpack = some .lt := by
  rw [← beq_iff_eq]
  exact ⟨of_decide_eq_true (p := x.toModel < y.toModel),
    decide_eq_true (p := x.toModel < y.toModel)⟩

theorem HasWord.lt_iff {x y : Float} (hx : HasWord x.toModel.unpack k)
    (hy : HasWord y.toModel.unpack l) : x < y ↔ k < l := by
  rw [lt_iff_compare, hx.compare_eq hy, Option.some_inj, Int.compare_eq_lt]

/-- A double is finite if its word is below that of infinity. -/
theorem HasWord.isFinite_iff (h : HasWord u k) : u.isFinite = true ↔ k.natAbs < infinityWord := by
  have hinfinity : 0 < infinityWord := by decide
  cases h with
  | infinity sign =>
    refine iff_of_false (by simp [UnpackedFloat.isFinite]) ?_
    cases sign <;> simp [Sign.apply]
  | zero sign => exact iff_of_true rfl hinfinity
  | finite sign hm finest htop hbottom hword =>
    refine iff_of_true rfl ?_
    cases sign <;> simpa [Sign.apply] using hword

/-! ### Reading words -/

/-- The bits of a word with a sign. -/
def IsSigned (b : BitVec Format.binary64.numBits) (sign : Sign) (w : Nat) : Prop :=
  b.toNat = match sign with
    | .positive => w
    | .negative => w + signWord

theorem toNat_unpackMantissa (b : BitVec Format.binary64.numBits) :
    (unpackMantissa b).toNat = b.toNat % 2 ^ 52 := by
  rw [unpackMantissa, BitVec.toNat_cast, BitVec.extractLsb_toNat, Nat.shiftRight_eq_div_pow]
  show b.toNat / 2 ^ 0 % 2 ^ 52 = b.toNat % 2 ^ 52
  rw [pow_zero, Nat.div_one]

theorem toNat_unpackExponent (b : BitVec Format.binary64.numBits) :
    (unpackExponent b).toNat = b.toNat / 2 ^ 52 % 2 ^ 11 := by
  rw [unpackExponent, BitVec.toNat_cast, BitVec.extractLsb_toNat, Nat.shiftRight_eq_div_pow]
  rfl

theorem toNat_unpackSign (b : BitVec Format.binary64.numBits) :
    (unpackSign b).toNat = b.toNat / 2 ^ 63 % 2 := by
  rw [unpackSign, BitVec.toNat_cast, BitVec.extractLsb_toNat, Nat.shiftRight_eq_div_pow]
  rfl

theorem IsSigned.fields {b : BitVec Format.binary64.numBits} (h : IsSigned b sign w)
    (hw : w ≤ infinityWord) : (unpackMantissa b).toNat = w % 2 ^ 52 ∧
      (unpackExponent b).toNat = w / 2 ^ 52 ∧ Sign.ofBitVec (unpackSign b) = sign := by
  have hinfinity : infinityWord = 2047 * 2 ^ 52 := rfl
  have hsignWord : signWord = 2 ^ 63 := rfl
  rw [toNat_unpackMantissa, toNat_unpackExponent]
  have hsign := toNat_unpackSign b
  cases sign with
  | positive =>
    have hb : b.toNat = w := h
    rw [hb] at hsign ⊢
    have hzero : unpackSign b = 0#1 := BitVec.eq_of_toNat_eq (by rw [hsign]; simp; omega)
    exact ⟨rfl, by omega, by rw [hzero]; rfl⟩
  | negative =>
    have hb : b.toNat = w + signWord := h
    rw [hb] at hsign ⊢
    have hone : unpackSign b = 1#1 := BitVec.eq_of_toNat_eq (by rw [hsign]; simp; omega)
    exact ⟨by omega, by omega, by rw [hone]; rfl⟩

/-- What a word up to that of infinity is read as. -/
theorem IsSigned.hasWord {b : BitVec Format.binary64.numBits} (h : IsSigned b sign w)
    (hw : w ≤ infinityWord) :
    HasWord (UnpackedFloat.unpack Format.binary64 b) (sign.apply w) ∧
      UnpackedFloat.isNaNBits b = false := by
  have hinfinity : infinityWord = 2047 * 2 ^ 52 := rfl
  obtain ⟨hmantissa, hexponent, hsign⟩ := h.fields hw
  have hbias : (Format.exponentBias .binary64 : Int) = 1023 := by decide
  have hall : unpackExponent b = -1#11 ↔ w / 2 ^ 52 = 2047 := by
    rw [← BitVec.toNat_inj, hexponent]
    rfl
  have hnone : unpackExponent b = 0#11 ↔ w / 2 ^ 52 = 0 := by
    rw [← BitVec.toNat_inj, hexponent]
    rfl
  have hblank : unpackMantissa b = 0#52 ↔ w % 2 ^ 52 = 0 := by
    rw [← BitVec.toNat_inj, hmantissa]
    rfl
  constructor
  · unfold UnpackedFloat.unpack
    dsimp only
    rw [hsign, hbias, hexponent]
    split_ifs with hinfinite hmantissa' hsubnormal hzero
    · have hword : w = infinityWord := by
        rw [hall] at hinfinite
        omega
      exact hword ▸ .infinity sign
    · rw [hall] at hinfinite
      rw [hblank] at hmantissa'
      omega
    · have hword : w = 0 := by
        rw [hnone] at hsubnormal
        rw [hblank] at hzero
        omega
      have happly : sign.apply (0 : Nat) = 0 := by cases sign <;> rfl
      rw [hword, happly]
      exact .zero sign
    · rw [hnone] at hsubnormal
      have hword : gridWord (-1074) (unpackMantissa b).toNat = w := by
        rw [gridWord, hmantissa]
        omega
      have hexp : ((w / 2 ^ 52 : Nat) : Int) - (1023 + ((52 : Nat) : Int)) + 1 = -1074 := by omega
      simp only [hexp]
      rw [← hword]
      exact .finite sign _ le_rfl (by omega) (.inl rfl) (by omega)
    · rw [hall] at hinfinite
      rw [hnone] at hsubnormal
      have hleading : (1#1 ++ unpackMantissa b).toNat = 2 ^ 52 + w % 2 ^ 52 := by
        rw [BitVec.toNat_append, ← Nat.shiftLeft_add_eq_or_of_lt (unpackMantissa b).isLt, hmantissa]
        rfl
      have hword : gridWord ((w / 2 ^ 52 : Nat) - (1023 + ((52 : Nat) : Int)))
          (1#1 ++ unpackMantissa b).toNat = w := by
        rw [gridWord, hleading]
        omega
      have hfinite : HasWord (.finite sign (1#1 ++ unpackMantissa b).toNat _ (by omega)) _ :=
        .finite sign (e := (w / 2 ^ 52 : Nat) - (1023 + ((52 : Nat) : Int))) (by omega) (by omega)
          (by omega) (.inr (by omega)) (by omega)
      rw [hword] at hfinite
      exact hfinite
  · refine decide_eq_false fun hnan => ?_
    rw [hall, ne_eq, hblank] at hnan
    omega

/-- A double that is read off a word up to that of infinity has the word. -/
theorem hasWord_ofBits {bits : UInt64} (h : IsSigned bits.toBitVec sign w) (hw : w ≤ infinityWord) :
    HasWord (Float.ofBits bits).toModel.unpack (sign.apply w) := by
  obtain ⟨hword, hnumber⟩ := h.hasWord hw
  have hpack := @UnpackedFloat.pack_unpack .binary64 bits.toBitVec (by decide)
  rw [hnumber, if_neg Bool.false_ne_true] at hpack
  show HasWord (UnpackedFloat.unpack Format.binary64 (UnpackedFloat.pack Format.binary64
    (UnpackedFloat.unpack Format.binary64 bits.toBitVec))) _
  rw [hpack]
  exact hword

end Words

/-! ### The word of the nearest double -/

/-- The word of the nearest double, with the sign of the number. -/
def nearestWord (x : Rat) : Int :=
  x.num.sign * nearestMagnitude x.num.natAbs x.den

section Nearest

variable {x y : Rat}

theorem nearestMagnitude_le (num den : Nat) : nearestMagnitude num den ≤ infinityWord :=
  Nat.min_le_right _ _

theorem hasWord_nearest (x : Rat) : HasWord (nearest x).toModel.unpack (nearestWord x) := by
  have hinfinity : infinityWord = 2047 * 2 ^ 52 := rfl
  have hsignWord : signWord = 2 ^ 63 := rfl
  have hle := nearestMagnitude_le x.num.natAbs x.den
  have htoNat {w : Nat} (hw : w < 2 ^ 64) : (UInt64.ofNat w).toBitVec.toNat = w := by
    rw [UInt64.toNat_toBitVec, UInt64.toNat_ofNat', Nat.mod_eq_of_lt hw]
  unfold nearest nearestWord
  split
  case isTrue hzero =>
    rw [hzero, Int.sign_zero, zero_mul]
    exact .zero .positive
  case isFalse hzero =>
    dsimp only
    split
    case isTrue hneg =>
      rw [Int.sign_eq_neg_one_of_neg hneg, neg_one_mul]
      have hsigned : IsSigned
          (UInt64.ofNat (nearestMagnitude x.num.natAbs x.den + signWord)).toBitVec
          .negative (nearestMagnitude x.num.natAbs x.den) := htoNat (by omega)
      exact hasWord_ofBits hsigned hle
    case isFalse hneg =>
      rw [Int.sign_eq_one_of_pos (by omega), one_mul]
      have hsigned : IsSigned (UInt64.ofNat (nearestMagnitude x.num.natAbs x.den)).toBitVec
        .positive (nearestMagnitude x.num.natAbs x.den) := htoNat (by omega)
      exact hasWord_ofBits hsigned hle

/-- The doubles nearest to two numbers compare as their words do. -/
theorem nearest_lt_iff : nearest x < nearest y ↔ nearestWord x < nearestWord y :=
  (hasWord_nearest x).lt_iff (hasWord_nearest y)

theorem isFinite_nearest :
    (nearest x).isFinite = true ↔ (nearestWord x).natAbs < infinityWord :=
  (hasWord_nearest x).isFinite_iff

@[simp] theorem nearestWord_neg (x : Rat) : nearestWord (-x) = -nearestWord x := by
  rw [nearestWord, nearestWord, Rat.num_neg_eq_neg_num, Rat.den_neg_eq_den, Int.sign_neg,
    Int.natAbs_neg, neg_mul]

theorem nearestWord_of_pos (hx : 0 < x) : ∃ q m, IsGridded x q m ∧
    nearestWord x = min (gridWord q m : Int) infinityWord := by
  have hnum : 0 < x.num := Rat.num_pos.2 hx
  have hpos : 0 < x.num.natAbs := by omega
  obtain ⟨q, m, hgridded, hword⟩ := nearestMagnitude_spec hpos x.den_pos
  have hvalue : ((x.num.natAbs : Nat) : Rat) / x.den = x := by
    rw [Nat.cast_natAbs, abs_of_pos hnum, Rat.num_div_den]
  rw [hvalue] at hgridded
  refine ⟨q, m, hgridded, ?_⟩
  rw [nearestWord, Int.sign_eq_one_of_pos hnum, one_mul, hword, Nat.cast_min]

theorem nearestWord_nonneg (hx : 0 ≤ x) : 0 ≤ nearestWord x := by
  rcases hx.eq_or_lt with rfl | hpos
  · exact le_rfl
  · obtain ⟨q, m, -, hword⟩ := nearestWord_of_pos hpos
    omega

theorem nearestWord_le_of_pos (hx : 0 < x) (hxy : x ≤ y) : nearestWord x ≤ nearestWord y := by
  obtain ⟨q, m, hgridded, hword⟩ := nearestWord_of_pos hx
  obtain ⟨r, n, hgridded', hword'⟩ := nearestWord_of_pos (hx.trans_le hxy)
  have hle := hgridded.word_le hgridded' hxy
  omega

/-- A larger number has no smaller word. -/
theorem nearestWord_mono (hxy : x ≤ y) : nearestWord x ≤ nearestWord y := by
  rcases lt_or_ge 0 x with hx | hx
  · exact nearestWord_le_of_pos hx hxy
  · rcases lt_or_ge y 0 with hy | hy
    · have hle := nearestWord_le_of_pos (neg_pos.2 hy) (neg_le_neg hxy)
      rw [nearestWord_neg, nearestWord_neg] at hle
      omega
    · have hnonneg := nearestWord_nonneg (neg_nonneg.2 hx)
      rw [nearestWord_neg] at hnonneg
      have := nearestWord_nonneg hy
      omega

/-! ### Numbers for which doubles are dense -/

/-- The magnitude is neither too small nor too large for doubles with all of their digits. -/
def IsModerate (x : Rat) : Prop :=
  (2 : Rat) ^ (-1000 : Int) ≤ |x| ∧ |x| ≤ 2 ^ (1000 : Int)

theorem isModerate_neg : IsModerate (-x) ↔ IsModerate x := by
  rw [IsModerate, IsModerate, abs_neg]

/-- A positive number of moderate magnitude is rounded to fifty-three digits and not to
    infinity. -/
theorem IsModerate.exists_gridded (h : IsModerate x) (hx : 0 < x) : ∃ q m, IsGridded x q m ∧
    2 ^ 52 ≤ x / 2 ^ q ∧ gridWord q m < infinityWord ∧ nearestWord x = gridWord q m := by
  obtain ⟨hlow, hhigh⟩ := h
  rw [abs_of_pos hx] at hlow hhigh
  obtain ⟨q, m, hgridded, hword⟩ := nearestWord_of_pos hx
  have hinfinity : infinityWord = 2047 * 2 ^ 52 := rfl
  have hfinest := hgridded.finest
  have htop := hgridded.le_top
  have hpower (k : Int) : (2 : Rat) ^ 52 * 2 ^ k = 2 ^ (52 + k) := by
    rw [zpow_add₀ two_ne_zero]
    norm_num
  have hbottom : 2 ^ 52 ≤ x / 2 ^ q := by
    rcases hgridded.bottom_le with rfl | hbottom
    · rw [le_div_iff₀ (zpow_pos two_pos _), hpower]
      exact (zpow_le_zpow_right₀ one_le_two (by decide)).trans hlow
    · exact hbottom
  have hq : q ≤ 948 := by
    have hle := hbottom
    rw [le_div_iff₀ (zpow_pos two_pos _), hpower] at hle
    have := (zpow_le_zpow_iff_right₀ (one_lt_two : (1 : Rat) < 2)).1 (hle.trans hhigh)
    omega
  have hlt : gridWord q m < infinityWord := by
    unfold gridWord
    omega
  exact ⟨q, m, hgridded, hbottom, hlt, by omega⟩

theorem IsModerate.isFinite (h : IsModerate x) : (nearest x).isFinite = true := by
  rw [isFinite_nearest]
  rcases lt_trichotomy x 0 with hneg | rfl | hpos
  · obtain ⟨q, m, -, -, hlt, hword⟩ := (isModerate_neg.2 h).exists_gridded (neg_pos.2 hneg)
    rw [nearestWord_neg] at hword
    omega
  · decide
  · obtain ⟨q, m, -, -, hlt, hword⟩ := h.exists_gridded hpos
    omega

/-- Positive numbers of moderate magnitude that differ by more than one part in `2 ^ 52` have
    different words. -/
theorem nearestWord_lt_of_pos (hy : IsModerate y) (hx : 0 < x)
    (hgap : y < (y - x) * 2 ^ 52) : nearestWord x < nearestWord y := by
  have hypos : 0 < y := by
    by_contra hle
    nlinarith
  obtain ⟨r, n, hgridded', hbottom, -, hword'⟩ := hy.exists_gridded hypos
  obtain ⟨q, m, hgridded, hword⟩ := nearestWord_of_pos hx
  have hunit : 1 < (y - x) / 2 ^ r := by
    have hr : (0 : Rat) < 2 ^ r := zpow_pos two_pos r
    rw [le_div_iff₀ hr] at hbottom
    rw [lt_div_iff₀ hr]
    linarith
  have hlt := hgridded.word_lt hgridded' hunit
  omega

end Nearest

/-! ### The order of doubles -/

section Order

variable {x y z : Float} {k l : Int}

/-- What is no number has a word above that of infinity. -/
theorem exists_hasWord_unpack (b : BitVec Format.binary64.numBits)
    (h : UnpackedFloat.unpack Format.binary64 b ≠ .notANumber) :
    ∃ k, HasWord (UnpackedFloat.unpack Format.binary64 b) k := by
  have hinfinity : infinityWord = 2047 * 2 ^ 52 := rfl
  have hlt : b.toNat < 2 ^ 64 := b.isLt
  rcases le_or_gt (b.toNat % 2 ^ 63) infinityWord with hle | hgt
  · rcases lt_or_ge b.toNat (2 ^ 63) with hpositive | hnegative
    · have hsigned : IsSigned b .positive (b.toNat % 2 ^ 63) := (Nat.mod_eq_of_lt hpositive).symm
      exact ⟨_, (hsigned.hasWord hle).1⟩
    · have hsigned : IsSigned b .negative (b.toNat % 2 ^ 63) := by
        show b.toNat = b.toNat % 2 ^ 63 + 2 ^ 63
        omega
      exact ⟨_, (hsigned.hasWord hle).1⟩
  · refine absurd ?_ h
    have hexponent : unpackExponent b = -1#11 := by
      rw [← BitVec.toNat_inj, toNat_unpackExponent]
      show b.toNat / 2 ^ 52 % 2 ^ 11 = 2047
      omega
    have hmantissa : unpackMantissa b ≠ 0#52 := by
      rw [ne_eq, ← BitVec.toNat_inj, toNat_unpackMantissa]
      show ¬b.toNat % 2 ^ 52 = 0
      omega
    unfold UnpackedFloat.unpack
    dsimp only
    rw [if_pos hexponent, if_neg hmantissa]

theorem exists_hasWord (h : x.toModel.unpack ≠ .notANumber) : ∃ k, HasWord x.toModel.unpack k :=
  exists_hasWord_unpack x.toModel.toBits.toBitVec h

theorem exists_hasWord_of_isFinite (h : x.isFinite = true) : ∃ k, HasWord x.toModel.unpack k := by
  refine exists_hasWord fun hnan => ?_
  have hfinite : x.toModel.unpack.isFinite = true := h
  rw [hnan] at hfinite
  cases hfinite

/-- What compares with anything is a number. -/
theorem exists_hasWord_of_compare {o : Ordering}
    (h : x.toModel.unpack.compare y.toModel.unpack = some o) :
    (∃ k, HasWord x.toModel.unpack k) ∧ ∃ l, HasWord y.toModel.unpack l := by
  refine ⟨exists_hasWord fun hnan => ?_, exists_hasWord fun hnan => ?_⟩
  · rw [hnan] at h
    cases h
  · rw [hnan] at h
    revert h
    generalize x.toModel.unpack = u
    cases u <;> exact nofun

/-! ### Comparisons -/

theorem beq_iff_compare :
    (x == y) = true ↔ x.toModel.unpack.compare y.toModel.unpack = some .eq :=
  beq_iff_eq (a := x.toModel.unpack.compare y.toModel.unpack)

theorem HasWord.beq_iff (hx : HasWord x.toModel.unpack k) (hy : HasWord y.toModel.unpack l) :
    (x == y) = true ↔ k = l := by
  rw [beq_iff_compare, hx.compare_eq hy, Option.some_inj, Int.compare_eq_eq]

theorem HasWord.le_iff (hx : HasWord x.toModel.unpack k) (hy : HasWord y.toModel.unpack l) :
    x ≤ y ↔ k ≤ l := by
  have hle : x ≤ y ↔ (x.toModel.unpack.compare y.toModel.unpack).any (·.isLE) = true :=
    ⟨of_decide_eq_true (p := x.toModel ≤ y.toModel), decide_eq_true (p := x.toModel ≤ y.toModel)⟩
  rw [hle, hx.compare_eq hy, Option.any_some, Int.isLE_compare]

/-- Of two numbers one is less than the other, or at least as large. -/
theorem le_of_not_lt (hx : ∃ k, HasWord x.toModel.unpack k) (hy : ∃ l, HasWord y.toModel.unpack l)
    (h : ¬x < y) : y ≤ x := by
  obtain ⟨k, hk⟩ := hx
  obtain ⟨l, hl⟩ := hy
  rw [hk.lt_iff hl, not_lt] at h
  exact (hl.le_iff hk).2 h

end Order

end Binary64

end EquationSolver
