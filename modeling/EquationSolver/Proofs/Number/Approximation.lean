import EquationSolver.Evaluation.Approximation
import EquationSolver.Proofs.Number.Nearest

/-!
# The approximate value of a number

The approximate value of a number is the nearest double, unless that is infinite: nothing is
dropped from it, since an imaginary part that is zero is negligible beside every double.
-/

namespace EquationSolver

open Float.Model (Format UnpackedFloat)
open Float.Model.UnpackedFloat (packComponents)

namespace Binary64

/-! ### Doubles that are not negative -/

/-- The double is a zero, or positive. -/
def IsNonneg : UnpackedFloat → Prop
  | .notANumber => False
  | .zero _ => True
  | .infinity sign => sign = .positive
  | .finite sign _ _ _ => sign = .positive

/-- The double is positive. -/
def IsPositive : UnpackedFloat → Prop
  | .notANumber => False
  | .zero _ => False
  | .infinity sign => sign = .positive
  | .finite sign _ _ _ => sign = .positive

theorem isNonneg_packComponents {exponent : BitVec 11} {mantissa : BitVec 52}
    (h : exponent = -1#11 → mantissa = 0#52) :
    IsNonneg (UnpackedFloat.unpack Format.binary64
      (packComponents Format.binary64 .positive exponent mantissa)) := by
  unfold UnpackedFloat.unpack
  simp only [UnpackedFloat.unpackExponent_packComponents,
    UnpackedFloat.unpackMantissa_packComponents, UnpackedFloat.unpackSign_packComponents]
  split_ifs with hexponent hmantissa hzero hblank
  · rfl
  · exact absurd (h hexponent) hmantissa
  · trivial
  · rfl
  · rfl

theorem isNonneg_pack {u : UnpackedFloat} (h : IsNonneg u) :
    IsNonneg (UnpackedFloat.unpack Format.binary64 (UnpackedFloat.pack Format.binary64 u)) := by
  match u, h with
  | .infinity .positive, _ => exact isNonneg_packComponents fun _ => rfl
  | .zero sign, _ =>
    show IsNonneg (UnpackedFloat.unpack _ (UnpackedFloat.packedZero _ sign))
    rw [UnpackedFloat.unpack_packedZero]
    trivial
  | .finite .positive m e hm, _ =>
    unfold UnpackedFloat.pack
    dsimp only
    split_ifs with hover hnormal
    · exact isNonneg_packComponents fun _ => rfl
    · -- the exponent field of a double that is not too large is not full
      refine isNonneg_packComponents fun hall => absurd hover ?_
      rw [← BitVec.toNat_inj, BitVec.toNat_ofNat] at hall
      have hfull : (-1#11).toNat = 2047 := by decide
      omega
    · exact isNonneg_packComponents fun hall => absurd hall (by decide)

theorem isNonneg_mul {u v : UnpackedFloat} (hu : IsPositive u) (hv : IsPositive v) :
    IsNonneg (UnpackedFloat.mul Format.binary64 u v) := by
  match u, v, hu, hv with
  | .infinity .positive, .infinity .positive, _, _ => rfl
  | .infinity .positive, .finite .positive _ _ _, _, _ => rfl
  | .finite .positive _ _ _, .infinity .positive, _, _ => rfl
  | .finite .positive m e _, .finite .positive m' e' _, _, _ =>
    show IsNonneg (UnpackedFloat.roundWithAccuracy _ _ _ _ _)
    unfold UnpackedFloat.roundWithAccuracy
    dsimp only
    split_ifs
    · trivial
    · rfl

theorem isPositive_negligibleRatio : IsPositive negligibleRatio.toModel.unpack := by
  rfl

theorem isPositive_of_one_lt {x : Float} (h : 1 < x) : IsPositive x.toModel.unpack := by
  have hlt : (UnpackedFloat.compare (.finite .positive (2 ^ 52) (-52) (by decide))
      x.toModel.unpack == some .lt) = true :=
    of_decide_eq_true (p := (1 : Float).toModel < x.toModel) h
  revert hlt
  generalize x.toModel.unpack = u
  intro hlt
  match u with
  | .notANumber => cases hlt
  | .infinity .positive => rfl
  | .infinity .negative => cases hlt
  | .zero _ => cases hlt
  | .finite .positive _ _ _ => rfl
  | .finite .negative _ _ _ => cases hlt

theorem zero_le_of_isNonneg {x : Float} (h : IsNonneg x.toModel.unpack) : (0 : Float).abs ≤ x := by
  have hle : (UnpackedFloat.compare (.zero .positive) x.toModel.unpack).any (·.isLE) = true := by
    revert h
    generalize x.toModel.unpack = u
    intro h
    match u, h with
    | .infinity .positive, _ => rfl
    | .zero _, _ => rfl
    | .finite .positive _ _ _, _ => rfl
  exact decide_eq_true (p := (0 : Float).abs.toModel ≤ x.toModel) hle

end Binary64

open Binary64

/-- Zero is negligible beside every double. -/
theorem isNegligible_zero (x : Float) : isNegligible 0 x = true := by
  refine decide_eq_true (zero_le_of_isNonneg ?_)
  refine isNonneg_pack (isNonneg_mul isPositive_negligibleRatio ?_)
  split
  case isTrue h => exact isPositive_of_one_lt h
  case isFalse h => rfl

/-- The approximate value of a number is the nearest double, if that is finite. -/
theorem approximate_number (s : Reduction.Settings) (bindings : List (String × Float)) (a : Rat) :
    (Term.number a).approximate s bindings =
      if (nearest a).isFinite then .value ⟨nearest a, 0⟩ else .undefined := by
  have hzero : (0 : Float).isFinite = true := rfl
  unfold Term.approximate
  simp only [Evaluation.eval, Evaluation.checkFinite, ComplexFloat.ofReal, ComplexFloat.isFinite,
    hzero, Bool.and_true]
  cases hfinite : (nearest a).isFinite with
  | false => rfl
  | true => simp only [if_true, isNegligible_zero]

theorem real?_approximate_number (s : Reduction.Settings) (bindings : List (String × Float))
    (a : Rat) : ((Term.number a).approximate s bindings).real? =
      if (nearest a).isFinite then some (nearest a) else none := by
  rw [approximate_number]
  split_ifs
  · exact if_pos (show ((0 : Float) == 0) = true from rfl)
  · rfl

end EquationSolver
