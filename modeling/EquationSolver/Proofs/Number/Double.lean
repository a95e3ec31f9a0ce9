import EquationSolver.Number.Binary64
import Mathlib

/-!
# One times a double

The product of one and a double is the double: its significand is shifted by the fifty-two binary
digits that the significand of one has behind the first, and rounding shifts it back.
-/

namespace EquationSolver

open Float.Model Float.Model.UnpackedFloat

namespace Binary64

/-- A double that is read off its bits is rounded already. -/
theorem targetExponent_of_unpack {b : BitVec Format.binary64.numBits} {sign : Sign} {m : Nat}
    {e : Int} {hm : 0 < m} (h : UnpackedFloat.unpack Format.binary64 b = .finite sign m e hm) :
    Format.binary64.targetExponent (totalExponent m e) = e := by
  have hbias : Format.binary64.exponentBias = 1023 := by decide
  have hmin : Format.binary64.minExponent = -1074 := by decide
  have hfraction : (unpackMantissa b).toNat < 2 ^ 52 := (unpackMantissa b).isLt
  unfold Format.targetExponent totalExponent Format.mantissaBits
  rw [hmin]
  unfold UnpackedFloat.unpack at h
  rw [hbias] at h
  dsimp only at h
  split_ifs at h with hexponent hmantissa hzero
  case neg =>
    -- a subnormal double
    cases h
    have hlog : (unpackMantissa b).toNat.log2 < 52 := (Nat.log2_lt hm.ne').2 hfraction
    rw [hzero]
    push_cast
    omega
  case neg =>
    -- a normal double
    cases h
    have hleading : (1#1 ++ unpackMantissa b).toNat = 2 ^ 52 + (unpackMantissa b).toNat := by
      rw [BitVec.toNat_append, ← Nat.shiftLeft_add_eq_or_of_lt hfraction]
      rfl
    have hlog : (1#1 ++ unpackMantissa b).toNat.log2 = 52 := by
      refine (Nat.log2_eq_iff hm.ne').2 ?_
      rw [hleading]
      omega
    have hpositive : (unpackExponent b).toNat ≠ 0 :=
      fun h => hzero (BitVec.toNat_inj.1 h)
    rw [hlog]
    push_cast
    omega

/-- Zeros behind the binary point are shifted out without a trace. -/
theorem repeat_shiftRightOne (m n : Nat) :
    Nat.repeat ExtendedMantissa.shiftRightOne n ⟨2 ^ n * m, false, false⟩ = ⟨m, false, false⟩ := by
  induction n generalizing m with
  | zero => simp [Nat.repeat]
  | succ n ih =>
    have heven : 2 ^ (n + 1) * m = 2 ^ n * (2 * m) := by ring
    rw [Nat.repeat, heven, ih]
    simp [ExtendedMantissa.shiftRightOne]

theorem shiftToTargetExponent_shifted {m : Nat} {e : Int} (n : Nat) (hm : 0 < m)
    (h : Format.binary64.targetExponent (totalExponent m e) = e) :
    shiftToTargetExponent Format.binary64 (2 ^ n * m) (-n + e) .exact = (⟨m, false, false⟩, e) := by
  have hlog : (2 ^ n * m).log2 = n + m.log2 := by
    induction n with
    | zero => simp
    | succ n ih =>
      have hpos : 2 ^ n * m ≠ 0 := (Nat.mul_pos (Nat.two_pow_pos n) hm).ne'
      rw [pow_succ', mul_assoc, Nat.log2_two_mul hpos, ih]
      omega
  have htotal : totalExponent (2 ^ n * m) (-n + e) = totalExponent m e := by
    unfold totalExponent
    rw [hlog]
    push_cast
    ring
  unfold shiftToTargetExponent shiftToExponent
  rw [htotal, h]
  have hshift : (e - (-(n : Int) + e)).toNat = n := by omega
  dsimp only
  rw [hshift]
  refine Prod.ext (repeat_shiftRightOne m n) ?_
  dsimp only
  omega

theorem roundWithAccuracy_shifted {sign : Sign} {m : Nat} {e : Int} (hm : 0 < m)
    (h : Format.binary64.targetExponent (totalExponent m e) = e) :
    roundWithAccuracy Format.binary64 sign (2 ^ 52 * m) (-52 + e) .exact = .finite sign m e hm := by
  have hfirst := shiftToTargetExponent_shifted 52 hm h
  have hsecond := shiftToTargetExponent_shifted 0 hm h
  have hrounded : (ExtendedMantissa.mk m false false).roundedMantissa = m := rfl
  simp only [Nat.cast_ofNat] at hfirst
  simp only [pow_zero, one_mul, Nat.cast_zero, neg_zero, zero_add] at hsecond
  unfold roundWithAccuracy
  simp only [hfirst, hrounded, hsecond]
  exact dif_neg hm.ne'

theorem unpack_nearest_one :
    (nearest 1).toModel.unpack = .finite .positive (2 ^ 52) (-52) (by decide) := by
  rfl

/-- One times a double is the double. -/
theorem nearest_one_mul (x : Float) : nearest 1 * x = x := by
  have hunpacked : UnpackedFloat.mul Format.binary64 (nearest 1).toModel.unpack x.toModel.unpack =
      x.toModel.unpack := by
    rw [unpack_nearest_one]
    cases hx : x.toModel.unpack with
    | notANumber => rfl
    | infinity sign => cases sign <;> rfl
    | zero sign => cases sign <;> rfl
    | finite sign m e hm =>
      have hsign : Sign.positive * sign = sign := by cases sign <;> rfl
      show roundWithAccuracy _ (Sign.positive * sign) (2 ^ 52 * m) (-52 + e) .exact = _
      rw [hsign, roundWithAccuracy_shifted hm (targetExponent_of_unpack hx)]
  show Float.ofModel (Float.Model.pack (UnpackedFloat.mul _ _ _)) = x
  rw [hunpacked]
  exact Float.ofBits_toBits x

end Binary64

end EquationSolver
