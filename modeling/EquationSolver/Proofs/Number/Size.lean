import EquationSolver.Number.Integer
import EquationSolver.Reduction.Settings
import Mathlib

/-!
# The size test of exact powers

The size test multiplies doubles: the binary digits of the base, which are at least one, by the
exponent.  An exponent beyond half a word rounds to a double beyond it, and so does its product
with a double that is not below one, so that it fails the test.  Exact powers whose exponents
pass the test are therefore always computed.
-/

namespace EquationSolver

namespace Binary64

open Float.Model (Format UnpackedFloat)
open Float.Model.UnpackedFloat (Sign ExtendedMantissa unpackSign unpackExponent packComponents
  shiftToExponent shiftToTargetExponent roundWithAccuracy)

/-- The significand of a normal double. -/
def IsNormal (m : Nat) : Prop :=
  2 ^ 52 ≤ m ∧ m < 2 ^ 53

/-- The double is a normal one that is no less than a power of two, or infinite, or not a
    number. -/
def IsLarge (k : Int) : UnpackedFloat → Prop
  | .notANumber => True
  | .infinity sign => sign = .positive
  | .zero _ => False
  | .finite sign m e _ => sign = .positive ∧ IsNormal m ∧ k ≤ e + 52

/-! ### Bits -/

theorem isNormal_append (v : BitVec 52) : IsNormal (1#1 ++ v).toNat := by
  have hv := v.isLt
  rw [BitVec.toNat_append, ← Nat.shiftLeft_add_eq_or_of_lt hv]
  have hone : (1#1).toNat <<< 52 = 2 ^ 52 := by decide
  rw [hone]
  constructor <;> omega

theorem isLarge_unpack {k : Int} {b : BitVec Format.binary64.numBits}
    (hsign : unpackSign b = 0#1) (hk : -1023 < k)
    (h : k + 1023 ≤ (unpackExponent b).toNat) :
    IsLarge k (UnpackedFloat.unpack Format.binary64 b) := by
  unfold UnpackedFloat.unpack
  dsimp only
  rw [hsign]
  split_ifs with hinfinite hzero hsubnormal hm
  · rfl
  · trivial
  · rw [hsubnormal] at h
    simp at h
    omega
  · rw [hsubnormal] at h
    simp at h
    omega
  · refine ⟨rfl, isNormal_append _, ?_⟩
    simp only [Format.exponentBias]
    omega

theorem normal_of_unpack_eq {b : BitVec Format.binary64.numBits} {sign : Sign} {m : Nat} {e : Int}
    {hm : 0 < m} (h : UnpackedFloat.unpack Format.binary64 b = .finite sign m e hm) :
    IsNormal m ∨ e = -1074 := by
  unfold UnpackedFloat.unpack at h
  dsimp only at h
  split_ifs at h with hinfinite hzero hsubnormal hm
  · cases h
    rw [hsubnormal]
    exact .inr rfl
  · cases h
    exact .inl (isNormal_append _)

theorem unpackSign_packComponents (spec : Format) (sign : Sign)
    (exponent : BitVec spec.exponentBits) (mantissa : BitVec spec.mantissaBitsWithoutImplicit) :
    unpackSign (packComponents spec sign exponent mantissa) = sign.toBitVec := by
  ext i hi
  obtain rfl : i = 0 := by omega
  simp [unpackSign, packComponents, BitVec.getLsbD_append, BitVec.getElem_append]

theorem isLarge_packComponents {k : Int} {exponent : BitVec 11} (mantissa : BitVec 52)
    (hk : -1023 < k) (h : k + 1023 ≤ exponent.toNat) :
    IsLarge k (UnpackedFloat.unpack Format.binary64
      (packComponents Format.binary64 .positive exponent mantissa)) := by
  refine isLarge_unpack (unpackSign_packComponents _ _ _ _) hk ?_
  rw [UnpackedFloat.unpackExponent_packComponents]
  exact h

/-- Rounding to a double leaves what is large as large. -/
theorem isLarge_pack {k : Int} {u : UnpackedFloat} (hk : -1023 < k) (hk' : k ≤ 1024)
    (h : IsLarge k u) :
    IsLarge k (UnpackedFloat.unpack Format.binary64 (UnpackedFloat.pack Format.binary64 u)) := by
  have hmax : k + 1023 ≤ ((-1#11).toNat : Int) := by
    simp
    omega
  match u, h with
  | .notANumber, _ => exact isLarge_packComponents _ hk hmax
  | .infinity .positive, _ => exact isLarge_packComponents _ hk hmax
  | .finite .positive m e hm, ⟨_, hnormal, hle⟩ =>
    have hlog : m.log2 = 52 := (Nat.log2_eq_iff (by omega)).2 hnormal
    have hbiased : Format.exponentBias .binary64 = 1023 := rfl
    unfold UnpackedFloat.pack
    dsimp only
    split_ifs with hover hbits
    · exact isLarge_packComponents _ hk hmax
    · refine isLarge_packComponents _ hk ?_
      rw [BitVec.toNat_ofNat, Nat.mod_eq_of_lt (by omega)]
      omega
    · exact absurd (by rw [hlog]; rfl) hbits

/-! ### Comparison -/

theorem isLarge_of_not_lt_one {x : Float} (h : ¬x < 1) : IsLarge 0 x.toModel.unpack := by
  have hlt : (x.toModel.unpack.compare (.finite .positive (2 ^ 52) (-52) (by decide)) ==
      some .lt) ≠ true := by
    intro hlt
    exact h (decide_eq_true (p := x.toModel < (1 : Float).toModel) hlt)
  have hnormal {sign : Sign} {m : Nat} {e : Int} {hm : 0 < m}
      (h : x.toModel.unpack = .finite sign m e hm) : IsNormal m ∨ e = -1074 :=
    normal_of_unpack_eq h
  revert hnormal hlt
  generalize x.toModel.unpack = u
  intro hlt hnormal
  match u with
  | .notANumber => trivial
  | .infinity .positive => rfl
  | .infinity .negative => exact absurd rfl hlt
  | .zero _ => exact absurd rfl hlt
  | .finite .negative _ _ _ => exact absurd rfl hlt
  | .finite .positive m e hm =>
    have hnot : ¬((compare e (-52)).then (compare m (2 ^ 52)) = .lt) := by
      intro hcompare
      exact hlt (by simpa [UnpackedFloat.compare] using hcompare)
    have hge : 0 ≤ e + 52 := by
      by_contra hneg
      have he : compare e (-52) = .lt := Int.compare_eq_lt.2 (by omega)
      exact hnot (by rw [he]; rfl)
    rcases hnormal rfl with hm | he
    · exact ⟨rfl, hm, hge⟩
    · omega

theorem not_le_of_isLarge {x : Float} (h : IsLarge 32 x.toModel.unpack) : ¬x ≤ 4096 := by
  intro hle
  have hle : (x.toModel.unpack.compare (.finite .positive (2 ^ 52) (-40) (by decide))).any
      (·.isLE) = true :=
    of_decide_eq_true (p := x.toModel ≤ (4096 : Float).toModel) hle
  revert h hle
  generalize x.toModel.unpack = u
  intro h hle
  match u, h with
  | .notANumber, _ => cases hle
  | .infinity .positive, _ => cases hle
  | .finite .positive m e _, ⟨_, _, he⟩ =>
    have hcompare : compare e (-40) = .gt := Int.compare_eq_gt.2 (by omega)
    rw [UnpackedFloat.compare, hcompare] at hle
    cases hle

/-! ### Products of large doubles -/

theorem mantissa_shiftRight (em : ExtendedMantissa) (n : Nat) :
    (em >>> n).mantissa = em.mantissa / 2 ^ n := by
  show (n.repeat ExtendedMantissa.shiftRightOne em).mantissa = _
  induction n with
  | zero => simp [Nat.repeat]
  | succ n ih =>
    show (n.repeat ExtendedMantissa.shiftRightOne em).mantissa / 2 = _
    rw [ih, Nat.div_div_eq_div_mul, Nat.pow_succ]

theorem roundedMantissa_bounds (em : ExtendedMantissa) :
    em.mantissa ≤ em.roundedMantissa ∧ em.roundedMantissa ≤ em.mantissa + 1 := by
  obtain ⟨m, round, sticky⟩ := em
  unfold ExtendedMantissa.roundedMantissa
  cases round <;> cases sticky <;>
    simp only [ExtendedMantissa.accuracy, UnpackedFloat.Accuracy.roundToNearestEven] <;> omega

/-- Where doubles are dense, a significand is shifted to fifty-three digits. -/
theorem shiftToTargetExponent_normal {m : Nat} {e : Int} (hm : 2 ^ 52 ≤ m) (he : -1074 ≤ e) :
    IsNormal (shiftToTargetExponent .binary64 m e .exact).1.mantissa ∧
      (shiftToTargetExponent .binary64 m e .exact).2 = e + (m.log2 - 52 : Nat) := by
  have hlog : 52 ≤ m.log2 := (Nat.le_log2 (by omega)).2 hm
  have hself : 2 ^ m.log2 ≤ m := Nat.log2_self_le (by omega)
  have hlt : m < 2 ^ (m.log2 + 1) := Nat.lt_log2_self
  have htarget : Format.targetExponent .binary64 (Float.Model.totalExponent m e) =
      e + (m.log2 - 52 : Nat) := by
    have hbits : Format.mantissaBits .binary64 = 53 := rfl
    have hmin : Format.minExponent .binary64 = -1074 := by decide
    rw [Format.targetExponent, Float.Model.totalExponent, hbits, hmin]
    omega
  unfold shiftToTargetExponent shiftToExponent
  dsimp only
  rw [htarget, mantissa_shiftRight]
  have hshift : (e + (m.log2 - 52 : Nat) - e).toNat = m.log2 - 52 := by omega
  rw [hshift]
  refine ⟨⟨?_, ?_⟩, rfl⟩
  · rw [Nat.le_div_iff_mul_le (Nat.two_pow_pos _), ← Nat.pow_add,
      Nat.add_sub_cancel' hlog]
    exact hself
  · rw [Nat.div_lt_iff_lt_mul (Nat.two_pow_pos _), ← Nat.pow_add,
      show 53 + (m.log2 - 52) = m.log2 + 1 by omega]
    exact hlt

theorem isLarge_round {k : Int} {m : Nat} {e : Int} (hm : 2 ^ 104 ≤ m) (he : -1074 ≤ e)
    (hk : k ≤ e + 104) : IsLarge k (roundWithAccuracy .binary64 .positive m e .exact) := by
  have hlog : 104 ≤ m.log2 := (Nat.le_log2 (by omega)).2 hm
  obtain ⟨hfirst, hexponent⟩ := shiftToTargetExponent_normal (m := m) (e := e) (by omega) he
  unfold roundWithAccuracy
  generalize shiftToTargetExponent .binary64 m e .exact = shifted at hfirst hexponent
  obtain ⟨em, e'⟩ := shifted
  dsimp only at hfirst hexponent ⊢
  obtain ⟨hge, hle⟩ := roundedMantissa_bounds em
  obtain ⟨hlast, hexponent'⟩ := shiftToTargetExponent_normal (m := em.roundedMantissa) (e := e')
    (Nat.le_trans hfirst.1 hge) (by omega)
  generalize shiftToTargetExponent .binary64 em.roundedMantissa e' .exact = shifted
    at hlast hexponent'
  obtain ⟨em', e''⟩ := shifted
  dsimp only at hlast hexponent' ⊢
  rw [dif_neg (by have := hlast.1; omega)]
  exact ⟨rfl, hlast, by omega⟩

theorem isLarge_mul {k : Int} {u v : UnpackedFloat} (hk : 0 ≤ k) (hu : IsLarge 0 u)
    (hv : IsLarge k v) : IsLarge k (UnpackedFloat.mul .binary64 u v) := by
  match u, v, hu, hv with
  | .notANumber, _, _, _ => trivial
  | .infinity .positive, .notANumber, _, _ => trivial
  | .finite _ _ _ _, .notANumber, _, _ => trivial
  | .infinity .positive, .infinity .positive, _, _ => rfl
  | .infinity .positive, .finite .positive _ _ _, _, _ => rfl
  | .finite .positive _ _ _, .infinity .positive, _, _ => rfl
  | .finite .positive m e _, .finite .positive m' e' _, ⟨_, hm, he⟩, ⟨_, hm', he'⟩ =>
    refine isLarge_round ?_ (by omega) (by omega)
    calc 2 ^ 104 = 2 ^ 52 * 2 ^ 52 := by decide
      _ ≤ m * m' := Nat.mul_le_mul hm.1 hm'.1

/-! ### The nearest double -/

theorem le_roundHalfEven (num den : Nat) : num / den ≤ roundHalfEven num den := by
  unfold roundHalfEven
  dsimp only
  split_ifs <;> omega

theorem gridExponent_one {n : Nat} (hn : 0 < n) : gridExponent n 1 = (n.log2 : Int) - 52 := by
  have hself : 2 ^ n.log2 ≤ n := Nat.log2_self_le (by omega)
  have hone : Nat.log2 1 = 0 := by decide
  have hbelow : decide (n < 2 ^ n.log2) = false := decide_eq_false (by omega)
  unfold gridExponent
  simp only [hone, Int.ofNat_zero, Int.sub_zero, Int.toNat_natCast, Nat.one_mul, Nat.pow_eq,
    Int.natCast_nonneg, if_true, hbelow, Bool.false_eq_true, if_false]
  omega

/-- The exponent field of the double nearest to a large number. -/
theorem nearestMagnitude_bounds {k n : Nat} (hk : k ≤ 1024) (hn : 2 ^ k ≤ n) :
    (k + 1023) * 2 ^ 52 ≤ nearestMagnitude n 1 ∧ nearestMagnitude n 1 ≤ 2047 * 2 ^ 52 := by
  have hpos : 0 < n := Nat.lt_of_lt_of_le (Nat.two_pow_pos k) hn
  have hlog : k ≤ n.log2 := (Nat.le_log2 (by omega)).2 hn
  have hself : 2 ^ n.log2 ≤ n := Nat.log2_self_le (by omega)
  have hword : exponentWord = 2 ^ 52 := rfl
  have hinfinity : infinityWord = 2047 * 2 ^ 52 := rfl
  -- the significand of a normal double
  have hsignificand : 2 ^ 52 ≤ (if 0 ≤ gridExponent n 1 then
      roundHalfEven n (1 * Nat.pow 2 (gridExponent n 1).toNat)
    else roundHalfEven (n * Nat.pow 2 (-gridExponent n 1).toNat) 1) := by
    rw [gridExponent_one hpos]
    split_ifs with hgrid
    · refine Nat.le_trans ?_ (le_roundHalfEven _ _)
      rw [Nat.one_mul, Nat.pow_eq, Nat.le_div_iff_mul_le (Nat.two_pow_pos _), ← Nat.pow_add]
      rwa [show 52 + ((n.log2 : Int) - 52).toNat = n.log2 by omega]
    · refine Nat.le_trans ?_ (le_roundHalfEven _ _)
      rw [Nat.div_one, Nat.pow_eq]
      calc 2 ^ 52 = 2 ^ n.log2 * 2 ^ (-((n.log2 : Int) - 52)).toNat := by
            rw [← Nat.pow_add, show n.log2 + (-((n.log2 : Int) - 52)).toNat = 52 by omega]
        _ ≤ n * 2 ^ (-((n.log2 : Int) - 52)).toNat := Nat.mul_le_mul_right _ hself
  unfold nearestMagnitude
  dsimp only
  generalize (if 0 ≤ gridExponent n 1 then
      roundHalfEven n (1 * Nat.pow 2 (gridExponent n 1).toNat)
    else roundHalfEven (n * Nat.pow 2 (-gridExponent n 1).toNat) 1) = significand at hsignificand
  rw [hinfinity, hword, gridExponent_one hpos]
  generalize 2 ^ 52 = word at hsignificand
  have hfield : k + 1022 ≤ ((n.log2 : Int) - 52 + 1074).toNat := by omega
  refine ⟨Nat.le_min.2 ⟨?_, Nat.mul_le_mul_right _ (by omega)⟩, Nat.min_le_right _ _⟩
  calc (k + 1023) * word = (k + 1022) * word + word := by rw [← Nat.succ_mul]
    _ ≤ ((n.log2 : Int) - 52 + 1074).toNat * word + significand :=
      Nat.add_le_add (Nat.mul_le_mul_right _ hfield) hsignificand

theorem isLarge_ofNat {k bits : Nat} (h : (k + 1023) * 2 ^ 52 ≤ bits)
    (hbits : bits ≤ 2047 * 2 ^ 52) :
    IsLarge k (UnpackedFloat.unpack .binary64 (UInt64.ofNat bits).toBitVec) := by
  have hnat : (UInt64.ofNat bits).toBitVec.toNat = bits := by
    rw [UInt64.toNat_toBitVec, UInt64.toNat_ofNat']
    omega
  have hexponent : bits / 2 ^ 52 % 2 ^ 11 = bits / 2 ^ 52 := by omega
  refine isLarge_unpack ?_ (by omega) ?_
  · apply BitVec.eq_of_toNat_eq
    rw [unpackSign, BitVec.toNat_cast, BitVec.extractLsb_toNat, hnat, Nat.shiftRight_eq_div_pow]
    show bits / 2 ^ 63 % 2 ^ 1 = 0
    omega
  · rw [unpackExponent, BitVec.toNat_cast, BitVec.extractLsb_toNat, hnat,
      Nat.shiftRight_eq_div_pow]
    show (k : Int) + 1023 ≤ ((bits / 2 ^ 52 % 2 ^ 11 : Nat) : Int)
    omega

theorem isLarge_nearest {k n : Nat} (hk : k ≤ 1024) (hn : 2 ^ k ≤ n) :
    IsLarge k (nearest (n : Rat)).toModel.unpack := by
  have hpos : 0 < n := Nat.lt_of_lt_of_le (Nat.two_pow_pos k) hn
  obtain ⟨hle, hge⟩ := nearestMagnitude_bounds hk hn
  have hbits : nearest (n : Rat) = Float.ofBits (UInt64.ofNat (nearestMagnitude n 1)) := by
    have hzero : ¬(n : Rat).num = 0 := by
      rw [Rat.num_natCast]
      omega
    have hneg : ¬(n : Rat).num < 0 := by
      rw [Rat.num_natCast]
      omega
    unfold nearest
    rw [if_neg hzero]
    dsimp only
    rw [if_neg hneg, Rat.num_natCast, Rat.den_natCast, Int.natAbs_natCast]
  rw [hbits]
  exact isLarge_pack (by omega) (by omega) (isLarge_ofNat hle hge)

end Binary64

namespace Reduction.Settings

theorem not_magnitudeBits_lt_one (a : Rat) : ¬magnitudeBits a < 1 := by
  have hone : ¬(1 : Float) < 1 := by decide
  have hlarger (x : Float) : ¬(if x < 1 then 1 else x) < 1 := by
    by_cases hlt : x < 1
    · rw [if_pos hlt]
      exact hone
    · rw [if_neg hlt]
      exact hlt
  exact hlarger _

/-- The exponents of exact powers stay within words of half the size. -/
theorem lt_halfWordCount_of_fits {s : Settings} (hlimit : s.limits.maxExponentBits = 4096)
    {base : Rat} {n : Nat} (h : s.fits base n = true) : n < Integer.halfWordCount := by
  by_contra hge
  have hn : 2 ^ 32 ≤ n := Nat.le_of_not_lt hge
  rw [fits, hlimit] at h
  refine Binary64.not_le_of_isLarge (x := magnitudeBits base * Binary64.nearest (n : Rat)) ?_
    (of_decide_eq_true h)
  exact Binary64.isLarge_pack (k := 32) (by omega) (by omega)
    (Binary64.isLarge_mul (k := 32) (by omega)
      (Binary64.isLarge_of_not_lt_one (not_magnitudeBits_lt_one base))
      (Binary64.isLarge_nearest (k := 32) (by omega) hn))

end Reduction.Settings

end EquationSolver
