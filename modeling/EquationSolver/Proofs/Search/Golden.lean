import EquationSolver.Proofs.Search.Exact

/-!
# The golden section with a ratio that is not golden

The ratio by which an interval is divided has sixteen decimal digits, so that an inner point that is
used again does not quite divide what is left of the interval in the same way.  The error is small,
but it does not shrink with the interval, and after many steps an inner point may come to lie
outside.  What is left may then reach beyond where it was, though by less than what the errors add
up to: after the first step away from the lower end it stays above that end.
-/

namespace EquationSolver

open SearchNumber

namespace GoldenSection

/-! ### Errors -/

def ratio : ℚ :=
  6180339887498949 / 10000000000000000

/-- By how much an inner point at some distance from an end fails to divide a width. -/
def error (width distance : ℚ) : ℚ :=
  (1 + ratio) * distance - width

/-- Both ends of an interval lie above a bound, by more than the errors of an inner point can add
    up to. -/
def StaysAbove (bound low high error : ℚ) : Prop :=
  ∃ η ω, |error| ≤ η ∧ |high - low| ≤ ω ∧
    bound + 2 * η + ω / 10 ^ 15 < low ∧ bound + 2 * η + ω / 10 ^ 15 < high

section Errors

variable {bound low high distance e : ℚ}

theorem error_neg (width distance : ℚ) : error (-width) (-distance) = -error width distance := by
  unfold error
  ring

/-- The middle of an interval above a bound is above it. -/
theorem StaysAbove.middle (h : StaysAbove bound low high e) : bound < 1 / 2 * (low + high) := by
  obtain ⟨η, ω, he, hw, hlow, hhigh⟩ := h
  have := (abs_nonneg _).trans he
  have := (abs_nonneg _).trans hw
  linarith

theorem StaysAbove.swap (h : StaysAbove bound low high e) : StaysAbove bound high low (-e) := by
  obtain ⟨η, ω, he, hw, hlow, hhigh⟩ := h
  exact ⟨η, ω, by rwa [abs_neg], by rwa [abs_sub_comm], hhigh, hlow⟩

/-- When the part beyond an inner point is dropped that does not divide the width exactly, the new
    end is off by its error, and the error is less by a third. -/
theorem StaysAbove.dropRight (h : StaysAbove bound low high (error (high - low) distance)) :
    StaysAbove bound low (low + distance) (error distance ((1 - ratio) * (high - low))) := by
  obtain ⟨η, ω, he, hw, hlow, hhigh⟩ := h
  unfold error ratio at he
  rw [abs_le] at he hw
  refine ⟨6181 / 10000 * η + ω / 10 ^ 16, 6181 / 10000 * (η + ω), ?_, ?_, ?_, ?_⟩
  · unfold error ratio
    rw [abs_le]
    constructor <;> linarith
  · rw [abs_le]
    constructor <;> linarith
  · linarith
  · linarith

theorem StaysAbove.dropLeft (h : StaysAbove bound low high (error (high - low) distance)) :
    StaysAbove bound (high - distance) high (error distance ((1 - ratio) * (high - low))) := by
  have hswap := h.swap
  rw [← error_neg, neg_sub] at hswap
  have hdrop := hswap.dropRight.swap
  rwa [← error_neg, neg_neg, ← mul_neg, neg_sub, ← sub_eq_add_neg] at hdrop

/-- When the part up to the inner point that divides the width exactly is dropped, the error of the
    other one stays. -/
theorem StaysAbove.crossLeft (h : StaysAbove bound low high (error (high - low) distance)) :
    StaysAbove bound (high - ratio * (high - low)) high
      (error (ratio * (high - low)) (high - low - distance)) := by
  have herror : error (ratio * (high - low)) (high - low - distance) =
      -error (high - low) distance := by
    unfold error
    ring
  rw [herror]
  obtain ⟨η, ω, he, hw, hlow, hhigh⟩ := h
  refine ⟨η, ω, by rwa [abs_neg], ?_, ?_, hhigh⟩
  · unfold ratio
    rw [abs_le] at hw ⊢
    constructor <;> linarith
  · unfold ratio
    linarith

theorem StaysAbove.crossRight (h : StaysAbove bound low high (error (high - low) distance)) :
    StaysAbove bound low (low + ratio * (high - low))
      (error (ratio * (high - low)) (high - low - distance)) := by
  have hswap := h.swap
  rw [← error_neg, neg_sub] at hswap
  have hcross := hswap.crossLeft.swap
  have hend : low - ratio * (low - high) = low + ratio * (high - low) := by ring
  have hdistance : -(low - high - -distance) = high - low - distance := by ring
  rwa [← error_neg, ← mul_neg, neg_sub, hend, hdistance] at hcross

/-- The first step away from the lower end goes further than all the errors can. -/
theorem staysAbove_of_firstCross (hwidth : low < high)
    (h : distance = ratio * (high - low) ∨ ratio * distance = (1 - ratio) * (high - low)) :
    StaysAbove low (high - ratio * (high - low)) high
      (error (ratio * (high - low)) (high - low - distance)) := by
  unfold ratio at h
  refine ⟨(high - low) / 10 ^ 15, high - low, ?_, ?_, ?_, ?_⟩
  · unfold error ratio
    rw [abs_le]
    rcases h with rfl | h <;> constructor <;> linarith
  · unfold ratio
    rw [abs_le]
    constructor <;> linarith
  · unfold ratio
    linarith
  · linarith

end Errors

/-! ### Steps -/

variable {α : Type} [SearchNumber α]

structure IsAt (s : GoldenSection α) (low high left right : ℚ) : Prop where
  low_eq : s.low = ofRat low
  high_eq : s.high = ofRat high
  left_eq : s.left.x = ofRat left
  right_eq : s.right.x = ofRat right

/-- The interval begins at the bound, which no step has left yet, or it stays above the bound.  Of
    the inner points one divides it exactly. -/
inductive Keeps (bound : ℚ) : ℚ → ℚ → ℚ → ℚ → Prop
  | untouched {high distance : ℚ} (hwidth : bound < high)
      (h : distance = ratio * (high - bound) ∨ ratio * distance = (1 - ratio) * (high - bound)) :
      Keeps bound bound high (high - ratio * (high - bound)) (bound + distance)
  | exactLeft {low high distance : ℚ}
      (h : StaysAbove bound low high (error (high - low) distance)) :
      Keeps bound low high (high - ratio * (high - low)) (low + distance)
  | exactRight {low high distance : ℚ}
      (h : StaysAbove bound low high (error (high - low) distance)) :
      Keeps bound low high (high - distance) (low + ratio * (high - low))

section Keeps

variable {bound low high left right : ℚ}

theorem Keeps.middle (h : Keeps bound low high left right) : bound < 1 / 2 * (low + high) := by
  cases h with
  | untouched hwidth => linarith
  | exactLeft h => exact h.middle
  | exactRight h => exact h.middle

/-- What is left after the part beyond the right inner point is dropped. -/
theorem Keeps.dropRight (h : Keeps bound low high left right) :
    Keeps bound low right (right - ratio * (right - low)) left := by
  cases h with
  | @untouched _ distance hwidth h =>
    have hleft : high - ratio * (high - bound) = bound + (1 - ratio) * (high - bound) := by ring
    have hdistance : bound + distance - bound = distance := add_sub_cancel_left _ _
    rw [hleft]
    refine .untouched ?_ ?_
    · have hpos : 0 < distance := by
        unfold ratio at h
        rcases h with rfl | h <;> linarith
      linarith
    · rw [hdistance]
      rcases h with rfl | h
      · exact .inr (by ring)
      · exact .inl h.symm
  | @exactLeft _ _ distance h =>
    have hleft : high - ratio * (high - low) = low + (1 - ratio) * (high - low) := by ring
    rw [hleft]
    refine .exactLeft ?_
    rw [add_sub_cancel_left]
    exact h.dropRight
  | @exactRight _ _ distance h =>
    have hleft : high - distance = low + (high - low - distance) := by ring
    rw [hleft]
    refine .exactLeft ?_
    rw [add_sub_cancel_left]
    exact h.crossRight

/-- What is left after the part up to the left inner point is dropped. -/
theorem Keeps.dropLeft (h : Keeps bound low high left right) :
    Keeps bound left high right (left + ratio * (high - left)) := by
  cases h with
  | @untouched _ distance hwidth h =>
    have hright : bound + distance = high - (high - bound - distance) := by ring
    rw [hright]
    refine .exactRight ?_
    rw [sub_sub_cancel]
    exact staysAbove_of_firstCross hwidth h
  | @exactLeft _ _ distance h =>
    have hright : low + distance = high - (high - low - distance) := by ring
    rw [hright]
    refine .exactRight ?_
    rw [sub_sub_cancel]
    exact h.crossLeft
  | @exactRight _ _ distance h =>
    have hright : low + ratio * (high - low) = high - (1 - ratio) * (high - low) := by ring
    rw [hright]
    refine .exactRight ?_
    rw [sub_sub_cancel]
    exact h.dropLeft

end Keeps

/-! ### Runs -/

section Runs

variable [IsExact α] {magnitude : α → α} {tolerance : α} {bound low high left right : ℚ}

theorem leftPlace_ofRat : leftPlace (ofRat low : α) (ofRat high) =
    ofRat (high - ratio * (high - low)) := by
  simp [leftPlace, inverseGoldenRatio, ratio]

theorem rightPlace_ofRat : rightPlace (ofRat low : α) (ofRat high) =
    ofRat (low + ratio * (high - low)) := by
  simp [rightPlace, inverseGoldenRatio, ratio]

theorem IsAt.middle_eq {s : GoldenSection α} (h : s.IsAt low high left right) :
    s.middle = ofRat (1 / 2 * (low + high)) := by
  simp [middle, h.low_eq, h.high_eq]

/-- Whatever the function, the golden section ends above the lower end of the interval. -/
theorem exists_narrow_place (count : ℕ) {s : GoldenSection α} (hat : s.IsAt low high left right)
    (h : Keeps bound low high left right) :
    ∃ x, (narrow magnitude tolerance count s).place = ofRat x ∧ bound < x := by
  induction count generalizing s low high left right with
  | zero => exact ⟨_, hat.middle_eq, h.middle⟩
  | succ count ih =>
    unfold narrow
    dsimp only
    split
    case isTrue => exact ⟨_, hat.middle_eq, h.middle⟩
    case isFalse =>
      split
      case isTrue =>
        refine ih ⟨hat.low_eq, hat.right_eq, ?_, hat.left_eq⟩ h.dropRight
        rw [hat.low_eq, hat.right_eq]
        exact leftPlace_ofRat
      case isFalse =>
        refine ih ⟨hat.left_eq, hat.high_eq, hat.right_eq, ?_⟩ h.dropLeft
        rw [hat.left_eq, hat.high_eq]
        exact rightPlace_ofRat

end Runs

end GoldenSection

theorem exists_goldenMinimum_place {α : Type} [SearchNumber α] [IsExact α] (f : α → α)
    (tolerance : α) (count : ℕ) {low high : ℚ} (h : low < high) :
    ∃ x, (goldenMinimum f (ofRat low) (ofRat high) tolerance count).place = ofRat x ∧ low < x :=
  GoldenSection.exists_narrow_place count
    ⟨rfl, rfl, GoldenSection.leftPlace_ofRat, GoldenSection.rightPlace_ofRat⟩
    (.untouched h (.inl rfl))

end EquationSolver
