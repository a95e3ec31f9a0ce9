import EquationSolver.Proofs.Search.Brent
import EquationSolver.Proofs.Search.Draws
import EquationSolver.Proofs.Search.Golden

/-!
# The order of the roots of a scanner

Without rounding a scanner reports roots in increasing order, whatever the function, but for one
exception.  A root near zero is reported as zero, and the scanner goes on just after zero.  When
this is before the root itself, the root is found again, and zero is reported once more.
-/

namespace EquationSolver

open SearchNumber

/-! ### Scanners of rationals -/

def ScanSettings.map {α β : Type} (g : α → β) (c : ScanSettings α) : ScanSettings β where
  steps := c.steps
  stretchRatio := g c.stretchRatio
  relativeTolerance := g c.relativeTolerance
  maxIterations := c.maxIterations
  nullTolerance := g c.nullTolerance
  zeroSnapRatio := g c.zeroSnapRatio

namespace Scanner

def map {α β : Type} (g : α → β) (s : Scanner α) : Scanner β where
  settings := s.settings.map g
  low := g s.low
  high := g s.high
  cursor := g s.cursor
  fresh := s.fresh

/-- There is a sampling step, and no tolerance is negative. -/
structure IsRegular (s : Scanner ℚ) : Prop where
  steps_pos : 0 < s.settings.steps
  tolerance_nonneg : 0 ≤ s.settings.relativeTolerance

section Steps

variable {α : Type} [SearchNumber α] [IsExact α] {s : Scanner ℚ} {x : ℚ}

theorem step_eq (s : Scanner ℚ) : s.step =
    if 0 < s.high - s.low then (s.high - s.low) / s.settings.steps
    else 1 / 4503599627370496 :=
  if_congr decide_eq_true_iff rfl rfl

theorem snapped_eq (s : Scanner ℚ) (x : ℚ) :
    s.snapped x = if |x| < s.settings.zeroSnapRatio * s.step then 0 else x :=
  if_congr (decide_eq_true_iff.trans (by rw [← ratAbs_eq]; rfl)) rfl rfl

theorem placeAfter_eq (s : Scanner ℚ) (x : ℚ) : s.placeAfter x =
    x + max (s.settings.relativeTolerance * s.step * 1000000)
      (1 / 4503599627370496 * |x| * 4) := by
  rw [← ratAbs_eq]
  exact congrArg (x + ·) larger_ofRat

theorem IsRegular.step_pos (h : s.IsRegular) : 0 < s.step := by
  rw [step_eq]
  split
  case isTrue hwidth =>
    have hsteps : (0 : ℚ) < s.settings.steps := by exact_mod_cast h.steps_pos
    exact div_pos hwidth hsteps
  case isFalse => norm_num

theorem IsRegular.zero_le_tolerance (h : s.IsRegular) : 0 ≤ s.tolerance :=
  mul_nonneg h.tolerance_nonneg h.step_pos.le

theorem IsRegular.step_map (h : s.IsRegular) : (s.map ofRat : Scanner α).step = ofRat s.step := by
  have hsteps : (s.settings.steps : ℚ) ≠ 0 := by exact_mod_cast h.steps_pos.ne'
  rw [step_eq, apply_ite ofRat, ← div_ofRat _ hsteps]
  simp [step, map, ScanSettings.map, epsilon]

theorem IsRegular.tolerance_map (h : s.IsRegular) :
    (s.map ofRat : Scanner α).tolerance = ofRat s.tolerance := by
  unfold tolerance
  rw [h.step_map]
  exact mul_ofRat _ _

theorem IsRegular.snapped_map (h : s.IsRegular) :
    (s.map ofRat : Scanner α).snapped (ofRat x) = ofRat (s.snapped x) := by
  rw [snapped_eq, apply_ite ofRat]
  unfold snapped
  rw [h.step_map]
  simp [map, ScanSettings.map]

theorem IsRegular.placeAfter_map (h : s.IsRegular) :
    (s.map ofRat : Scanner α).placeAfter (ofRat x) = ofRat (s.placeAfter x) := by
  rw [placeAfter_eq]
  unfold placeAfter
  rw [h.step_map]
  simp [map, ScanSettings.map, epsilon]

end Steps

/-! ### Samples -/

section Samples

variable {α : Type} [SearchNumber α] {f : α → α} {s : Scanner ℚ} {before? : Option (Point α)}
  {left right root : Point α} {c x z r : ℚ}

/-- A place that a search may come to from a sample at which there is no root: it is not before the
    sample, and zero is come to from zero only within a tolerance. -/
def IsAhead (s : Scanner ℚ) (c x : ℚ) : Prop :=
  c ≤ x ∧ (s.tolerance = 0 → c = 0 → 0 < x)

theorem isAhead_of_lt (h : c < x) : s.IsAhead c x :=
  ⟨h.le, fun _ hc => hc ▸ h⟩

/-- The samples so far are at rationals, in order, and none is before the first. -/
structure AreFrom (c : ℚ) (before? : Option (Point α)) (left : Point α) (x : ℚ) : Prop where
  left_eq : left.x = ofRat x
  le_left : c ≤ x
  before_eq : ∀ before ∈ before?, ∃ p, before.x = ofRat p ∧ c ≤ p ∧ p < x

theorem AreFrom.next (h : AreFrom c before? left x) (hright : right.x = ofRat z) (hz : x < z) :
    AreFrom c (some left) right z :=
  ⟨hright, h.le_left.trans hz.le, by
    rintro _ ⟨⟩
    exact ⟨x, h.left_eq, h.le_left, hz⟩⟩

variable [IsExact α]

/-- A change of sign is between the samples. -/
theorem IsRegular.crossing_isAhead (h : s.IsRegular) (hleft : left.x = ofRat x)
    (hright : right.x = ofRat z) (hz : x < z) (hcrosses : crosses left right = true)
    (hroot : (s.map ofRat).crossing? f left right = some root) :
    ∃ r, root.x = ofRat r ∧ s.IsAhead x r := by
  have hplace : root.x = (brent f left right (ofRat s.tolerance) s.settings.maxIterations).place := by
    unfold crossing? at hroot
    rw [h.tolerance_map] at hroot
    dsimp only at hroot
    split at hroot
    case isTrue => exact (Option.some.inj hroot) ▸ rfl
    case isFalse => cases hroot
  have hzero : isZero left.y = false := by
    simp only [crosses, Bool.and_eq_true, Bool.not_eq_true'] at hcrosses
    exact hcrosses.1.2
  obtain ⟨-, r, hr, hbrent⟩ := brent_mem_uIcc (f := f) hleft hright h.zero_le_tolerance
    s.settings.maxIterations
  rw [Set.uIcc_of_le hz.le] at hr
  refine ⟨r, hplace.trans hbrent, hr.1, fun htolerance hx => ?_⟩
  subst hx
  obtain ⟨r', hpositive, hpos⟩ := brent_pos (f := f) hleft hzero hright hz s.settings.maxIterations
  rw [htolerance, hpositive] at hbrent
  exact ofRat_injective hbrent ▸ hpos

/-- A minimum is after the first of the samples. -/
theorem dip_isAhead {p : ℚ} {before : Point α} {s : Scanner α} (hbefore : before.x = ofRat p)
    (hright : right.x = ofRat z) (hz : p < z) (hroot : s.dip? f before right = some root) :
    ∃ r, root.x = ofRat r ∧ p < r := by
  unfold dip? at hroot
  dsimp only at hroot
  split at hroot
  case isTrue =>
    rw [hbefore, hright] at hroot
    obtain ⟨r, hr, hlt⟩ := exists_goldenMinimum_place f s.tolerance s.settings.maxIterations hz
    exact ⟨r, (Option.some.inj hroot) ▸ hr, hlt⟩
  case isFalse => cases hroot

theorem IsRegular.rootBefore_isAhead (h : s.IsRegular) (hfrom : AreFrom c before? left x)
    (hright : right.x = ofRat z) (hz : x < z)
    (hroot : (s.map ofRat).rootBefore? f before? left right = some root) :
    ∃ r, root.x = ofRat r ∧ s.IsAhead c r := by
  unfold rootBefore? at hroot
  split at hroot
  case isTrue =>
    cases hroot
    exact ⟨z, hright, isAhead_of_lt (hfrom.le_left.trans_lt hz)⟩
  case isFalse =>
    split at hroot
    case isTrue hcrosses =>
      obtain ⟨r, hr, hle, hpos⟩ := h.crossing_isAhead hfrom.left_eq hright hz hcrosses hroot
      rcases hfrom.le_left.eq_or_lt with rfl | hlt
      · exact ⟨r, hr, hle, hpos⟩
      · exact ⟨r, hr, isAhead_of_lt (hlt.trans_le hle)⟩
    case isFalse =>
      obtain ⟨before, hbefore, hdip⟩ := Option.bind_eq_some_iff.1 hroot
      obtain ⟨p, hp, hle, hlt⟩ := hfrom.before_eq before hbefore
      split at hdip
      case isTrue =>
        obtain ⟨r, hr, hpr⟩ := dip_isAhead hp hright (hlt.trans hz) hdip
        exact ⟨r, hr, isAhead_of_lt (hle.trans_lt hpr)⟩
      case isFalse => cases hdip

/-- The next sample is one step further, but not after the end of the interval. -/
theorem IsRegular.nextSample_map (h : s.IsRegular) (hleft : left.x = ofRat x) :
    smaller (left.x + (s.map ofRat : Scanner α).step) (s.map ofRat : Scanner α).high =
      ofRat (min (x + s.step) s.high) := by
  rw [hleft, h.step_map, add_ofRat]
  exact smaller_ofRat

theorem search_of_le (f : α → α) (hleft : left.x = ofRat x) (hend : s.high ≤ x) :
    (s.map ofRat).search? f before? left = some none := by
  rw [search?, if_neg]
  rw [hleft]
  exact fun hless => hend.not_gt (of_decide_eq_true ((less_ofRat x s.high).symm.trans hless))

/-- A search comes to an end, since the step is positive, and finds only what is ahead.  The
    induction is on a number of steps that is enough for the rest of the interval. -/
theorem IsRegular.search_spec (h : s.IsRegular) (f : α → α) (count : ℕ)
    (hcount : s.high - x ≤ count * s.step) (hfrom : AreFrom c before? left x) :
    ∃ found, (s.map ofRat).search? f before? left = some found ∧
      ∀ root, found = some root → x < s.high ∧ ∃ r, root.x = ofRat r ∧ s.IsAhead c r := by
  rcases le_or_gt s.high x with hend | hhigh
  · exact ⟨none, search_of_le f hfrom.left_eq hend, nofun⟩
  induction count generalizing before? left x with
  | zero =>
    rw [Nat.cast_zero, zero_mul] at hcount
    exact absurd hhigh (not_lt.2 (sub_nonpos.1 hcount))
  | succ count ih =>
    have hless : less left.x (s.map ofRat : Scanner α).high = true := by
      rw [hfrom.left_eq]
      exact (less_ofRat x s.high).trans (decide_eq_true hhigh)
    have hz : x < min (x + s.step) s.high := lt_min (lt_add_of_pos_right x h.step_pos) hhigh
    rw [search?, if_pos hless, h.nextSample_map hfrom.left_eq]
    dsimp only
    split
    case h_1 root hbefore =>
      refine ⟨some root, rfl, ?_⟩
      rintro _ ⟨⟩
      exact ⟨hhigh, h.rootBefore_isAhead hfrom rfl hz hbefore⟩
    case h_2 =>
      have hnext : AreFrom c (some left) (.of f (ofRat (min (x + s.step) s.high))) _ :=
        hfrom.next rfl hz
      rcases le_or_gt s.high (min (x + s.step) s.high) with hend | hmore
      · exact ⟨none, search_of_le f hnext.left_eq hend, nofun⟩
      · have hrest : s.high - min (x + s.step) s.high ≤ count * s.step := by
          rw [Nat.cast_succ] at hcount
          rw [min_eq_left (min_lt_iff.1 hmore |>.resolve_right (lt_irrefl _)).le]
          linarith
        obtain ⟨found, hfound, hahead⟩ := ih hrest hnext hmore
        exact ⟨found, hfound, fun root hroot => ⟨hhigh, (hahead root hroot).2⟩⟩

end Samples

/-! ### Roots -/

/-- The scanner once it has found a root. -/
def after (s : Scanner ℚ) (x : ℚ) : Scanner ℚ :=
  { s with cursor := s.placeAfter (s.snapped x), fresh := false }

/-- The scanner once it has found that no root is left. -/
def exhausted (s : Scanner ℚ) : Scanner ℚ :=
  { s with cursor := s.high, fresh := false }

/-- The second of two places that are reported one after the other is greater.  Only zero may be
    reported again, if roots are taken for zero further away than where the scanner goes on. -/
def Follows (c : ScanSettings ℚ) (x y : ℚ) : Prop :=
  x < y ∨ x = 0 ∧ y = 0 ∧ c.relativeTolerance * 1000000 < c.zeroSnapRatio

instance (c : ScanSettings ℚ) : IsTrans ℚ (Follows c) where
  trans x y z hxy hyz := by
    rcases hxy with hxy | ⟨rfl, rfl, -⟩
    · rcases hyz with hyz | ⟨rfl, rfl, -⟩
      · exact .inl (hxy.trans hyz)
      · exact .inl hxy
    · exact hyz

/-- The scanner goes on after a place that it has reported, or it is at the end. -/
structure GoesOn (s : Scanner ℚ) (p : ℚ) : Prop where
  fresh_eq : s.fresh = false
  cursor_eq : s.high ≤ s.cursor ∨ s.cursor = s.placeAfter p ∧ s.snapped p = p

section Roots

variable {s : Scanner ℚ} {p x : ℚ}

theorem snapped_snapped (s : Scanner ℚ) (x : ℚ) : s.snapped (s.snapped x) = s.snapped x := by
  rw [snapped_eq s x]
  split
  case isTrue =>
    rw [snapped_eq]
    exact ite_self 0
  case isFalse h =>
    rw [snapped_eq]
    exact if_neg h

theorem IsRegular.after (h : s.IsRegular) (x : ℚ) : (s.after x).IsRegular :=
  ⟨h.steps_pos, h.tolerance_nonneg⟩

theorem IsRegular.exhausted (h : s.IsRegular) : s.exhausted.IsRegular :=
  ⟨h.steps_pos, h.tolerance_nonneg⟩

theorem goesOn_after (s : Scanner ℚ) (x : ℚ) : (s.after x).GoesOn (s.snapped x) :=
  ⟨rfl, .inr ⟨rfl, s.snapped_snapped x⟩⟩

theorem goesOn_exhausted (s : Scanner ℚ) (p : ℚ) : s.exhausted.GoesOn p :=
  ⟨rfl, .inl le_rfl⟩

/-- What the scanner comes to when it goes on after a place follows that place. -/
theorem IsRegular.follows_of_isAhead (h : s.IsRegular) (hp : s.snapped p = p)
    (hahead : s.IsAhead (s.placeAfter p) x) : Follows s.settings p (s.snapped x) := by
  obtain ⟨hle, hpositive⟩ := hahead
  have hstep := h.step_pos
  have hnudge : 0 ≤ s.settings.relativeTolerance * s.step * 1000000 :=
    mul_nonneg h.zero_le_tolerance (by norm_num)
  rw [placeAfter_eq] at hle hpositive
  rw [snapped_eq]
  rcases eq_or_ne p 0 with rfl | hne
  · rw [abs_zero, mul_zero, zero_mul, max_eq_left hnudge, zero_add] at hle hpositive
    split
    case isTrue hsnap =>
      refine .inr ⟨rfl, rfl, ?_⟩
      have hlt := hle.trans_lt ((le_abs_self x).trans_lt hsnap)
      rw [mul_right_comm] at hlt
      exact lt_of_mul_lt_mul_right hlt hstep.le
    case isFalse =>
      refine .inl ?_
      rcases hnudge.eq_or_lt with hzero | hpos
      · refine hpositive ?_ hzero.symm
        exact (mul_eq_zero.1 hzero.symm).resolve_right (by norm_num)
      · exact hpos.trans_le hle
  · have hlt : p < x := by
      refine lt_of_lt_of_le (lt_add_of_pos_right p (lt_max_of_lt_right ?_)) hle
      have := abs_pos.2 hne
      positivity
    refine .inl ?_
    split
    case isTrue hsnap =>
      -- a place after a positive one that is not taken for zero is not taken for zero either
      rw [snapped_eq] at hp
      split at hp
      case isTrue => exact absurd hp.symm hne
      case isFalse hkeep =>
        by_contra hpos
        rw [not_lt] at hpos
        rw [abs_of_nonneg hpos] at hkeep
        rw [abs_of_nonneg (hpos.trans hlt.le)] at hsnap
        exact hkeep (hlt.trans hsnap)
    case isFalse => exact hlt

variable {α : Type} [SearchNumber α] [IsExact α] {f : α → α}

theorem IsRegular.root_spec (h : s.IsRegular) (f : α → α) :
    ∃ found, (s.map ofRat).root? f = some found ∧ ∀ root, found = some root →
      ∃ x, root.x = ofRat x ∧ (s.fresh = false → s.cursor < s.high ∧ s.IsAhead s.cursor x) := by
  have hstart : AreFrom s.cursor none (.of f (s.map ofRat : Scanner α).cursor) s.cursor :=
    ⟨rfl, le_rfl, nofun⟩
  unfold root?
  dsimp only
  split
  case isTrue hfresh =>
    refine ⟨_, rfl, ?_⟩
    rintro _ ⟨⟩
    refine ⟨s.cursor, rfl, fun hstale => ?_⟩
    rw [Bool.and_eq_true] at hfresh
    exact absurd (hstale.symm.trans hfresh.1) Bool.false_ne_true
  case isFalse =>
    obtain ⟨count, hcount⟩ := exists_nat_ge ((s.high - s.cursor) / s.step)
    obtain ⟨found, hfound, hahead⟩ :=
      h.search_spec f count ((div_le_iff₀ h.step_pos).1 hcount) hstart
    refine ⟨found, hfound, fun root hroot => ?_⟩
    obtain ⟨hhigh, x, hx, hahead⟩ := hahead root hroot
    exact ⟨x, hx, fun _ => ⟨hhigh, hahead⟩⟩

theorem IsRegular.accept_map (h : s.IsRegular) {root : Point α} (hx : root.x = ofRat x) :
    (s.map ofRat).accept root = (some ⟨ofRat (s.snapped x), root.y⟩, (s.after x).map ofRat) := by
  unfold accept
  rw [hx, h.snapped_map]
  dsimp only
  rw [h.placeAfter_map, isNumber_ofRat]
  rfl

/-- What one draw does. -/
theorem IsRegular.draw_cases (h : s.IsRegular) (f : α → α) :
    (s.map ofRat).draw f = some (none, s.exhausted.map ofRat) ∨
      ∃ x, (s.map ofRat).draw f = some (some (ofRat (s.snapped x)), (s.after x).map ofRat) ∧
        (s.fresh = false → s.cursor < s.high ∧ s.IsAhead s.cursor x) := by
  obtain ⟨found, hroot, hahead⟩ := h.root_spec f
  unfold draw nextRoot
  rw [hroot]
  cases found with
  | none => exact .inl rfl
  | some root =>
    obtain ⟨x, hx, hahead⟩ := hahead root rfl
    refine .inr ⟨x, ?_, hahead⟩
    dsimp only [Option.map_some]
    rw [h.accept_map hx]
    rfl

/-- After a place the scanner reports only what follows it. -/
theorem IsRegular.isChain_of_goesOn (h : s.IsRegular) (hp : s.GoesOn p) (f : α → α) (n : ℕ) :
    ∃ (values : List (Option α)) (places : List ℚ),
      draws (draw f) n (s.map ofRat) = some values ∧ values.reduceOption = places.map ofRat ∧
      (p :: places).IsChain (Follows s.settings) := by
  induction n generalizing s p with
  | zero => exact ⟨[], [], rfl, rfl, .singleton p⟩
  | succ n ih =>
    obtain hdraw | ⟨x, hdraw, hahead⟩ := h.draw_cases f
    · obtain ⟨values, places, hvalues, hplaces, hchain⟩ :=
        ih h.exhausted (s.goesOn_exhausted p)
      exact ⟨none :: values, places, by rw [draws_succ hdraw, hvalues]; rfl, hplaces, hchain⟩
    · obtain ⟨hhigh, hahead⟩ := hahead hp.fresh_eq
      obtain hend | ⟨hcursor, hsnapped⟩ := hp.cursor_eq
      · exact absurd hhigh hend.not_gt
      · obtain ⟨values, places, hvalues, hplaces, hchain⟩ := ih (h.after x) (s.goesOn_after x)
        refine ⟨some (ofRat (s.snapped x)) :: values, s.snapped x :: places,
          by rw [draws_succ hdraw, hvalues]; rfl, congrArg (_ :: ·) hplaces, ?_⟩
        exact .cons_cons (h.follows_of_isAhead hsnapped (hcursor ▸ hahead)) hchain

/-- Every draw of a scanner comes to an end, and what is reported is in order. -/
theorem IsRegular.exists_draws (h : s.IsRegular) (f : α → α) (n : ℕ) :
    ∃ (values : List (Option α)) (places : List ℚ),
      draws (draw f) n (s.map ofRat) = some values ∧ values.reduceOption = places.map ofRat ∧
      places.Pairwise (Follows s.settings) := by
  induction n generalizing s with
  | zero => exact ⟨[], [], rfl, rfl, .nil⟩
  | succ n ih =>
    obtain hdraw | ⟨x, hdraw, -⟩ := h.draw_cases f
    · obtain ⟨values, places, hvalues, hplaces, hpairwise⟩ := ih h.exhausted
      exact ⟨none :: values, places, by rw [draws_succ hdraw, hvalues]; rfl, hplaces, hpairwise⟩
    · obtain ⟨values, places, hvalues, hplaces, hchain⟩ :=
        (h.after x).isChain_of_goesOn (s.goesOn_after x) f n
      refine ⟨some (ofRat (s.snapped x)) :: values, s.snapped x :: places,
        by rw [draws_succ hdraw, hvalues]; rfl, ?_, List.isChain_iff_pairwise.1 hchain⟩
      exact congrArg (ofRat (s.snapped x) :: ·) hplaces

end Roots

end Scanner

/-- Every draw of a scanner comes to an end, and the roots that it reports are in increasing order:
    each is greater than all before it, except that zero may come again, where roots are taken for
    zero further away than where the scanner goes on. -/
theorem draws_pairwise_follows (f : PartialRat → PartialRat) {s : Scanner ℚ} (h : s.IsRegular)
    (n : ℕ) :
    ∃ (values : List (Option PartialRat)) (places : List ℚ),
      draws (Scanner.draw f) n (s.map ofRat) = some values ∧
        values.reduceOption = places.map ofRat ∧
        places.Pairwise (Scanner.Follows s.settings) :=
  h.exists_draws f n

/-- With the standard settings no root is reported twice. -/
theorem draws_pairwise_lt_of_standard (f : PartialRat → PartialRat) {s : Scanner ℚ}
    (h : s.settings = .standard) (n : ℕ) :
    ∃ (values : List (Option PartialRat)) (places : List ℚ),
      draws (Scanner.draw f) n (s.map ofRat) = some values ∧
        values.reduceOption = places.map ofRat ∧ places.Pairwise (· < ·) := by
  have hregular : s.IsRegular := by
    constructor
    · rw [h]
      decide
    · rw [h]
      decide +kernel
  have hsnap : ¬s.settings.relativeTolerance * 1000000 < s.settings.zeroSnapRatio := by
    rw [h]
    decide +kernel
  obtain ⟨values, places, hvalues, hplaces, hpairwise⟩ := hregular.exists_draws f n
  refine ⟨values, places, hvalues, hplaces, hpairwise.imp fun hfollows => ?_⟩
  exact hfollows.resolve_right fun hzero => hsnap hzero.2.2

/-! ### A root that is found again and again -/

/-- On the interval from 0 to 1, in one step, roots less than 1/2 are taken for zero. -/
def coarseScanner : Scanner ℚ where
  settings := { ScanSettings.standard with steps := 1, zeroSnapRatio := 1 / 2 }
  low := 0
  high := 1
  cursor := 0
  fresh := true

/-- The function with its root at 1/4. -/
def belowQuarter : PartialRat → PartialRat :=
  PartialRat.map (· - 1 / 4)

theorem draws_pairwise_follows_coarse : coarseScanner.IsRegular ∧
    ∃ (values : List (Option PartialRat)) (places : List ℚ),
      draws (Scanner.draw belowQuarter) 2 (coarseScanner.map ofRat) = some values ∧
        values.reduceOption = places.map ofRat ∧
        places.Pairwise (Scanner.Follows coarseScanner.settings) := by
  have hregular : coarseScanner.IsRegular := ⟨by decide, by decide +kernel⟩
  exact ⟨hregular, draws_pairwise_follows belowQuarter hregular 2⟩

/-- One sample to the right of zero, the function has changed its sign. -/
theorem draw_coarseScanner : Scanner.draw belowQuarter (coarseScanner.map ofRat) =
    some (some (ofRat 0), (coarseScanner.after (1 / 4)).map ofRat) := by
  unfold Scanner.draw Scanner.nextRoot Scanner.root?
  dsimp only
  rw [Scanner.search?]
  decide +kernel

/-- Going on just after zero, the scanner finds the same root. -/
theorem draw_after_coarseScanner :
    Scanner.draw belowQuarter ((coarseScanner.after (1 / 4)).map ofRat) =
      some (some (ofRat 0), (coarseScanner.after (1 / 4)).map ofRat) := by
  unfold Scanner.draw Scanner.nextRoot Scanner.root?
  dsimp only
  rw [Scanner.search?]
  decide +kernel

/-- Every call reports zero. -/
theorem draws_coarseScanner (n : ℕ) : draws (Scanner.draw belowQuarter) n
    (coarseScanner.map ofRat) = some (List.replicate n (some (ofRat 0))) := by
  have hafter (n : ℕ) : draws (Scanner.draw belowQuarter) n
      ((coarseScanner.after (1 / 4)).map ofRat) = some (List.replicate n (some (ofRat 0))) := by
    induction n with
    | zero => rfl
    | succ n ih =>
      rw [draws_succ draw_after_coarseScanner, ih]
      rfl
  cases n with
  | zero => rfl
  | succ n =>
    rw [draws_succ draw_coarseScanner, hafter n]
    rfl

end EquationSolver
