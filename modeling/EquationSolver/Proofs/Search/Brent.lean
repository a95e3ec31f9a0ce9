import EquationSolver.Proofs.Search.Exact

/-!
# Brent's method without rounding

Where Brent's method goes when its operations are exact.  Each place lies between the best place so
far and the one opposite, and no further than three quarters of the way, whatever the function: an
interpolated step is taken only if the fraction that it is computed from says so.  Of a function with
values everywhere the best place is a root, or it and the place opposite have values of opposite
sign, so that no division by zero occurs and a bracket that is narrow enough holds a change of sign.
-/

namespace EquationSolver

open SearchNumber

namespace Bracket

variable {α : Type} [SearchNumber α]

/-- The places of the best point, the one before it and the one opposite. -/
structure IsAt (s : Bracket α) (best previous opposite : ℚ) : Prop where
  best_eq : s.best.x = ofRat best
  previous_eq : s.previous.x = ofRat previous
  opposite_eq : s.opposite.x = ofRat opposite

section Places

variable {s : Bracket α} {a b c t w : ℚ}

variable [IsExact α]

theorem IsAt.middle_eq (h : s.IsAt b a c) : s.middle = ofRat (1 / 2 * (c - b)) := by
  simp [middle, h.best_eq, h.opposite_eq]

@[simp] theorem halfWidth_ofRat :
    halfWidth (ofRat t : α) (ofRat b) = ofRat (2 * (1 / 4503599627370496) * |b| + 1 / 2 * t) := by
  simp [halfWidth, epsilon]

theorem IsAt.isClosed_iff (h : s.IsAt b a c) : s.isClosed (ofRat t) = true ↔
    |1 / 2 * (c - b)| ≤ 2 * (1 / 4503599627370496) * |b| + 1 / 2 * t ∨ isZero s.best.y = true := by
  simp [isClosed, h.middle_eq, h.best_eq]

/-- A bracket that is not closed is wider than it may be in the end, and its best point is no
    root. -/
theorem IsAt.of_not_isClosed (h : s.IsAt b a c) (hopen : s.isClosed (ofRat t) = false) :
    2 * (1 / 4503599627370496) * |b| + 1 / 2 * t < |1 / 2 * (c - b)| ∧ isZero s.best.y = false := by
  simpa [isClosed, h.middle_eq, h.best_eq] using hopen

/-! ### Interpolated steps -/

theorem oriented_eq {fraction : α × α} {p : ℚ} (h : (oriented fraction).1 = ofRat p) :
    0 ≤ p ∧ (fraction.1 = ofRat p ∨ fraction.1 = ofRat (-p)) := by
  unfold oriented at h
  split at h
  case isTrue hpositive =>
    have hfirst : fraction.1 = ofRat p := h
    rw [hfirst, isPositive_ofRat, decide_eq_true_eq] at hpositive
    exact ⟨hpositive.le, .inl hfirst⟩
  case isFalse hpositive =>
    have hneg : -fraction.1 = ofRat p := h
    obtain ⟨q, hq⟩ := isRational_of_neg ⟨p, hneg⟩
    rw [hq, neg_ofRat] at hneg
    obtain rfl := ofRat_injective hneg
    rw [hq, isPositive_ofRat, decide_eq_true_eq] at hpositive
    exact ⟨by linarith, .inr (by rw [hq, neg_neg])⟩

/-- An accepted step is a fraction of rationals, and stays well inside the bracket. -/
theorem of_accepts {fraction : α × α} {m : ℚ} (hmiddle : s.middle = ofRat m)
    (h : s.accepts (ofRat w) fraction = true) : ∃ p q, fraction = (ofRat p, ofRat q) ∧
      2 * p < 3 * m * q - |w * q| := by
  obtain ⟨x, y⟩ := fraction
  unfold accepts at h
  rw [hmiddle] at h
  dsimp only at h
  obtain ⟨hx, hbound⟩ := isRational_of_less h
  obtain ⟨p, rfl⟩ := (isRational_of_mul hx).2
  have hy : IsRational y := by
    rcases isRational_of_smaller hbound with hinside | hshort
    · exact (isRational_of_mul (isRational_of_sub hinside).1).2
    · exact (isRational_of_mul (isRational_of_abs hshort)).2
  obtain ⟨q, rfl⟩ := hy
  simp only [mul_ofRat, abs_ofRat, sub_ofRat] at h
  have hless := less_of_less_smaller h
  rw [less_ofRat, decide_eq_true_eq] at hless
  exact ⟨p, q, rfl, hless⟩

/-- Interpolation is tried between values that are rational, of which the last is smaller. -/
theorem of_mayInterpolate {width : α} (h : s.mayInterpolate width = true) :
    ∃ y z, s.best.y = ofRat y ∧ s.previous.y = ofRat z ∧ |y| < |z| := by
  obtain ⟨-, hprogress⟩ := Bool.and_eq_true_iff.1 h
  obtain ⟨hbest, hprevious⟩ := isRational_of_less hprogress
  obtain ⟨y, hy⟩ := isRational_of_abs hbest
  obtain ⟨z, hz⟩ := isRational_of_abs hprevious
  rw [hy, hz, abs_ofRat, abs_ofRat, less_ofRat, decide_eq_true_eq] at hprogress
  exact ⟨y, z, hy, hz, hprogress⟩

/-- By the secant a step is only as short as the best value is small. -/
theorem IsAt.interpolated_ne_zero (h : s.IsAt b c c) (hroot : isZero s.best.y = false)
    (hbc : b ≠ c) {width : α} (hmay : s.mayInterpolate width = true) {p : ℚ}
    (hp : s.interpolated.1 = ofRat p) : p ≠ 0 := by
  obtain ⟨y, z, hy, hz, hprogress⟩ := of_mayInterpolate hmay
  have hz0 : z ≠ 0 := abs_pos.1 ((abs_nonneg y).trans_lt hprogress)
  have hy0 : y ≠ 0 := by simpa [hy] using hroot
  have hsecant : s.interpolated.1 = ofRat (2 * (1 / 2 * (c - b)) * (y / z)) := by
    simp [interpolated, h.middle_eq, h.previous_eq, h.opposite_eq, hy, hz, div_ofRat _ hz0]
  rw [hsecant] at hp
  obtain rfl := ofRat_injective hp
  have hcb : c - b ≠ 0 := sub_ne_zero.2 hbc.symm
  exact mul_ne_zero (mul_ne_zero two_ne_zero (mul_ne_zero (by norm_num) hcb)) (div_ne_zero hy0 hz0)

/-- The next step goes towards the place opposite, and at most three quarters of the way. -/
theorem IsAt.exists_step (h : s.IsAt b a c) (hroot : isZero s.best.y = false) (hbc : b ≠ c) :
    ∃ r, (s.nextSteps (ofRat w)).1 = ofRat (r * (c - b)) ∧ 0 ≤ r ∧ r ≤ 3 / 4 ∧ (a = c → 0 < r) := by
  have hcb : c - b ≠ 0 := sub_ne_zero.2 hbc.symm
  unfold nextSteps
  dsimp only
  split
  case isTrue hinterpolate =>
    obtain ⟨hmay, haccepts⟩ := Bool.and_eq_true_iff.1 hinterpolate
    obtain ⟨p, q, hfraction, hinside⟩ := of_accepts h.middle_eq haccepts
    rw [hfraction]
    obtain ⟨hp, hfirst⟩ := oriented_eq (p := p) (by rw [hfraction])
    have hmq : 0 < (c - b) * q := by
      have := abs_nonneg (w * q)
      linarith
    have hq : q ≠ 0 := right_ne_zero_of_mul hmq.ne'
    refine ⟨p / q / (c - b), ?_, ?_, ?_, ?_⟩
    · rw [div_mul_cancel₀ _ hcb]
      exact div_ofRat p hq
    · rw [div_div, mul_comm]
      exact div_nonneg hp hmq.le
    · rw [div_div, mul_comm, div_le_iff₀ hmq]
      have := abs_nonneg (w * q)
      linarith
    · rintro rfl
      have hne : p ≠ 0 := by
        rcases hfirst with hfirst | hfirst
        · exact h.interpolated_ne_zero hroot hbc hmay hfirst
        · exact neg_ne_zero.1 (h.interpolated_ne_zero hroot hbc hmay hfirst)
      rw [div_div, mul_comm]
      exact div_pos (hp.lt_of_ne' hne) hmq
  case isFalse =>
    exact ⟨1 / 2, h.middle_eq, by norm_num, by norm_num, fun _ => by norm_num⟩

/-- The next place lies between the best one and the one opposite. -/
theorem IsAt.exists_nextPlace (h : s.IsAt b a c) (ht : 0 ≤ t)
    (hopen : s.isClosed (ofRat t) = false) :
    ∃ r, s.nextPlace (halfWidth (ofRat t) s.best.x)
        (s.nextSteps (halfWidth (ofRat t) s.best.x)).1 = ofRat (b + r * (c - b)) ∧
      0 ≤ r ∧ r ≤ 3 / 4 ∧ (a = c → 0 < r) := by
  obtain ⟨hwide, hroot⟩ := h.of_not_isClosed hopen
  rw [h.best_eq, halfWidth_ofRat]
  have hw : 0 ≤ 2 * (1 / 4503599627370496) * |b| + 1 / 2 * t := by positivity
  generalize 2 * (1 / 4503599627370496) * |b| + 1 / 2 * t = w at hwide hw
  have hbc : b ≠ c := by
    rintro rfl
    rw [sub_self, mul_zero, abs_zero] at hwide
    linarith
  obtain ⟨r, hstep, hr, hr', hsecant⟩ := h.exists_step (w := w) hroot hbc
  unfold nextPlace
  rw [hstep, h.best_eq, h.middle_eq, abs_ofRat, less_ofRat, withSign_ofRat]
  split
  case isTrue => exact ⟨r, add_ofRat _ _, hr, hr', hsecant⟩
  case isFalse hshort =>
    -- the shortest step goes less than half of the way
    rw [decide_eq_true_eq, not_lt] at hshort
    have hcb : 0 < |c - b| := abs_pos.2 (sub_ne_zero.2 hbc.symm)
    have hhalf : w / |c - b| < 1 / 2 := by
      rw [div_lt_iff₀ hcb, ← abs_of_pos (one_half_pos (α := ℚ)), ← abs_mul]
      exact hwide
    have hsigned : (if 1 / 2 * (c - b) < 0 then -|w| else |w|) = w / |c - b| * (c - b) := by
      rw [abs_of_nonneg hw]
      rcases lt_or_ge (c - b) 0 with hneg | hnonneg
      · rw [if_pos (by linarith), abs_of_neg hneg, div_neg, neg_mul, div_mul_cancel₀ _ hneg.ne]
      · rw [if_neg (by linarith), abs_of_nonneg hnonneg, div_mul_cancel₀ _ (abs_ne_zero.1 hcb.ne')]
    rw [hsigned]
    refine ⟨w / |c - b|, add_ofRat _ _, by positivity, by linarith, fun hac => ?_⟩
    refine (hsecant hac).trans_le ?_
    rw [le_div_iff₀ hcb]
    rwa [abs_mul, abs_of_nonneg hr] at hshort

end Places

/-! ### Runs -/

section Runs

/-- The bracket once the next place has been evaluated. -/
def advance (f : α → α) (tolerance : α) (s : Bracket α) : Bracket α :=
  let width := halfWidth tolerance s.best.x
  { s with
    best := .of f (s.nextPlace width (s.nextSteps width).1)
    previous := s.best
    step := (s.nextSteps width).1
    stepBefore := (s.nextSteps width).2 }

variable {f : α → α} {tolerance : α}

theorem narrow_succ (count : ℕ) (s : Bracket α) : narrow f tolerance (count + 1) s =
    if s.rebracket.order.isClosed tolerance then ⟨s.rebracket.order.best.x, [], true⟩
    else
      let next := s.rebracket.order.advance f tolerance
      let rest := narrow f tolerance count next
      { rest with visited := next.best.x :: rest.visited } :=
  rfl

/-- What every step preserves holds of each bracket of a run: the places that are visited are the
    best ones of such brackets, and the run ends with the best place of one that is closed, or of
    one for which no steps are left. -/
theorem narrow_of_invariant {P : Bracket α → Prop}
    (hadvance : ∀ s, P s → s.rebracket.order.isClosed tolerance = false →
      P (s.rebracket.order.advance f tolerance)) (count : ℕ) {s : Bracket α} (h : P s) :
    (∀ x ∈ (narrow f tolerance count s).visited, ∃ s, P s ∧ x = s.best.x) ∧
      ∃ last, P last ∧
        ((narrow f tolerance count s).converged = false ∧
            (narrow f tolerance count s).place = last.best.x ∨
          last.rebracket.order.isClosed tolerance = true ∧
            (narrow f tolerance count s).place = last.rebracket.order.best.x) := by
  induction count generalizing s with
  | zero => exact ⟨nofun, s, h, .inl ⟨rfl, rfl⟩⟩
  | succ count ih =>
    rw [narrow_succ]
    split
    case isTrue hclosed => exact ⟨nofun, s, h, .inr ⟨hclosed, rfl⟩⟩
    case isFalse hopen =>
      have hnext := hadvance s h (Bool.eq_false_of_not_eq_true hopen)
      obtain ⟨hvisited, hlast⟩ := ih hnext
      exact ⟨List.forall_mem_cons.2 ⟨⟨_, hnext, rfl⟩, hvisited⟩, hlast⟩

variable [IsExact α] {s : Bracket α} {a b c t : ℚ}

theorem IsAt.advance (h : s.IsAt b a c) (ht : 0 ≤ t) (hopen : s.isClosed (ofRat t) = false) :
    ∃ r, (s.advance f (ofRat t)).IsAt (b + r * (c - b)) b c ∧
      0 ≤ r ∧ r ≤ 3 / 4 ∧ (a = c → 0 < r) := by
  obtain ⟨r, hplace, hr⟩ := h.exists_nextPlace ht hopen
  exact ⟨r, ⟨hplace, h.best_eq, h.opposite_eq⟩, hr⟩

end Runs

/-! ### What holds of the three points -/

/-- The three points have a property. -/
structure All (P : Point α → Prop) (s : Bracket α) : Prop where
  best : P s.best
  previous : P s.previous
  opposite : P s.opposite

section Points

variable {s : Bracket α} {P : Point α → Prop}

/-- Before a step the best point stays, or it takes the place of both others. -/
theorem arranged_cases (s : Bracket α) :
    s.rebracket.order.best = s.best ∧ s.rebracket.order.previous = s.previous ∧
        (s.rebracket.order.opposite = s.opposite ∨ s.rebracket.order.opposite = s.previous) ∨
      (s.rebracket.order.best = s.opposite ∨ s.rebracket.order.best = s.previous) ∧
        s.rebracket.order.previous = s.best ∧ s.rebracket.order.opposite = s.best := by
  unfold order rebracket
  split
  · split
    · exact .inr ⟨.inr rfl, rfl, rfl⟩
    · exact .inl ⟨rfl, rfl, .inr rfl⟩
  · split
    · exact .inr ⟨.inl rfl, rfl, rfl⟩
    · exact .inl ⟨rfl, rfl, .inl rfl⟩

theorem All.arranged (h : s.All P) : s.rebracket.order.All P := by
  obtain ⟨hbest, hprevious, hopposite⟩ | ⟨hbest, hprevious, hopposite⟩ := arranged_cases s
  · refine ⟨hbest ▸ h.best, hprevious ▸ h.previous, ?_⟩
    rcases hopposite with hopposite | hopposite
    · exact hopposite ▸ h.opposite
    · exact hopposite ▸ h.previous
  · refine ⟨?_, hprevious ▸ h.best, hopposite ▸ h.best⟩
    rcases hbest with hbest | hbest
    · exact hbest ▸ h.opposite
    · exact hbest ▸ h.previous

theorem all_between {first second : Point α} (hfirst : P first) (hsecond : P second) :
    (between first second).All P :=
  ⟨hsecond, hfirst, hsecond⟩

end Points

/-! ### The interval -/

section Interval

variable [IsExact α] {s : Bracket α} {f : α → α} {I : Set ℚ} {t : ℚ}

/-- The place of a point is a rational of the set. -/
def IsIn (I : Set ℚ) (p : Point α) : Prop :=
  ∃ x ∈ I, p.x = ofRat x

theorem All.isIn_advance (h : s.All (IsIn I)) (hI : Convex ℚ I) (ht : 0 ≤ t)
    (hopen : s.isClosed (ofRat t) = false) : (s.advance f (ofRat t)).All (IsIn I) := by
  obtain ⟨⟨b, hb, hbest⟩, ⟨a, -, hprevious⟩, ⟨c, hc, hopposite⟩⟩ := h
  obtain ⟨r, hadvance, hr, hr', -⟩ := IsAt.advance (f := f) ⟨hbest, hprevious, hopposite⟩ ht hopen
  exact ⟨⟨_, hI.add_smul_sub_mem hb hc ⟨hr, by linarith⟩, hadvance.best_eq⟩, ⟨b, hb, hbest⟩,
    ⟨c, hc, hopposite⟩⟩

end Interval

/-! ### Zero -/

section Zero

variable {s : Bracket α} {f : α → α}

/-- The place is not negative, and zero is not the place of a root. -/
def IsAboveZero (p : Point α) : Prop :=
  ∃ x, p.x = ofRat x ∧ 0 ≤ x ∧ (x = 0 → isZero p.y = false)

/-- The best place is positive, and the others are above zero. -/
def IsPositive (s : Bracket α) : Prop :=
  s.All IsAboveZero ∧ ∃ b, s.best.x = ofRat b ∧ 0 < b

theorem isAboveZero_of_pos {p : Point α} {x : ℚ} (hx : p.x = ofRat x) (hpos : 0 < x) :
    IsAboveZero p :=
  ⟨x, hx, hpos.le, fun hzero => absurd hzero hpos.ne'⟩

variable [IsExact α]

/-- Without a tolerance a bracket with zero for its best place is not closed. -/
theorem IsPositive.best_of_isClosed (h : s.IsPositive)
    (hclosed : s.rebracket.order.isClosed (ofRat 0) = true) :
    ∃ x, s.rebracket.order.best.x = ofRat x ∧ 0 < x := by
  obtain ⟨hall, b, hb, hpos⟩ := h
  obtain ⟨x, hx, hnonneg, hroot⟩ := hall.arranged.best
  obtain ⟨a, ha, -⟩ := hall.arranged.previous
  refine ⟨x, hx, hnonneg.lt_of_ne' fun hzero => ?_⟩
  obtain ⟨hbest, -⟩ | ⟨-, -, hopposite⟩ := arranged_cases s
  · rw [hbest, hb] at hx
    exact hpos.ne' ((ofRat_injective hx).trans hzero)
  · subst hzero
    have hat : s.rebracket.order.IsAt 0 a b := ⟨hx, ha, by rw [hopposite, hb]⟩
    rcases hat.isClosed_iff.1 hclosed with hnarrow | hbest
    · have : 0 < |1 / 2 * (b - 0)| := abs_pos.2 (by linarith)
      rw [abs_zero, mul_zero, mul_zero, add_zero] at hnarrow
      linarith
    · exact Bool.false_ne_true ((hroot rfl).symm.trans hbest)

theorem IsPositive.advance (h : s.IsPositive)
    (hopen : s.rebracket.order.isClosed (ofRat 0) = false) :
    (s.rebracket.order.advance f (ofRat 0)).IsPositive := by
  obtain ⟨hall, β, hβ, hpos⟩ := h
  have harranged := hall.arranged
  obtain ⟨b, hb, hbnonneg, -⟩ := harranged.best
  obtain ⟨a, ha, -⟩ := harranged.previous
  obtain ⟨c, hc, hcnonneg, -⟩ := harranged.opposite
  obtain ⟨r, hadvance, hr, hr', hsecant⟩ := IsAt.advance (f := f) ⟨hb, ha, hc⟩ le_rfl hopen
  suffices hnext : 0 < b + r * (c - b) from
    ⟨⟨isAboveZero_of_pos hadvance.best_eq hnext, harranged.best, harranged.opposite⟩,
      _, hadvance.best_eq, hnext⟩
  have hsplit : b + r * (c - b) = (1 - r) * b + r * c := by ring
  rw [hsplit]
  obtain ⟨hbest, -⟩ | ⟨-, hprevious, hopposite⟩ := arranged_cases s
  · -- the step leaves at least a quarter of the best place
    obtain rfl : β = b := ofRat_injective (by rw [← hβ, ← hb, hbest])
    exact add_pos_of_pos_of_nonneg (mul_pos (by linarith) hpos) (mul_nonneg hr hcnonneg)
  · -- the points other than the best one are the same, and the step goes by the secant
    obtain rfl : β = c := ofRat_injective (by rw [← hβ, ← hc, hopposite])
    obtain rfl : β = a := ofRat_injective (by rw [← hβ, ← ha, hprevious])
    exact add_pos_of_nonneg_of_pos (mul_nonneg (by linarith) hbnonneg) (mul_pos (hsecant rfl) hpos)

end Zero

end Bracket

section Places

variable {α : Type} [SearchNumber α] [IsExact α] {f : α → α} {first second : Point α} {a b t : ℚ}

/-- Brent's method stays between the places that it begins with. -/
theorem brent_mem_uIcc (ha : first.x = ofRat a) (hb : second.x = ofRat b) (ht : 0 ≤ t)
    (count : ℕ) :
    (∀ x ∈ (brent f first second (ofRat t) count).visited, ∃ y ∈ Set.uIcc a b, x = ofRat y) ∧
      ∃ y ∈ Set.uIcc a b, (brent f first second (ofRat t) count).place = ofRat y := by
  have hstart : (Bracket.between first second).All (Bracket.IsIn (Set.uIcc a b)) :=
    Bracket.all_between ⟨a, Set.left_mem_uIcc, ha⟩ ⟨b, Set.right_mem_uIcc, hb⟩
  obtain ⟨hvisited, last, hlast, hend⟩ := Bracket.narrow_of_invariant (f := f)
    (fun s hs hopen => hs.arranged.isIn_advance (convex_uIcc a b) ht hopen) count hstart
  refine ⟨fun x hx => ?_, ?_⟩
  · obtain ⟨s, hs, rfl⟩ := hvisited x hx
    exact hs.best
  · rcases hend with ⟨-, hplace⟩ | ⟨-, hplace⟩
    · exact hplace ▸ hlast.best
    · exact hplace ▸ hlast.arranged.best

/-- From zero, where there is no root, and a positive place Brent's method without a tolerance comes
    to a positive place. -/
theorem brent_pos (ha : first.x = ofRat 0) (hroot : isZero first.y = false)
    (hb : second.x = ofRat b) (hpos : 0 < b) (count : ℕ) :
    ∃ x, (brent f first second (ofRat 0) count).place = ofRat x ∧ 0 < x := by
  have hstart : (Bracket.between first second).IsPositive :=
    ⟨Bracket.all_between ⟨0, ha, le_rfl, fun _ => hroot⟩ (Bracket.isAboveZero_of_pos hb hpos),
      b, hb, hpos⟩
  obtain ⟨-, last, hlast, hend⟩ := Bracket.narrow_of_invariant (f := f)
    (fun s hs hopen => hs.advance hopen) count hstart
  rcases hend with ⟨-, hplace⟩ | ⟨hclosed, hplace⟩
  · exact hplace ▸ hlast.2
  · exact hplace ▸ hlast.best_of_isClosed hclosed

end Places

/-! ### Division by zero -/

/-- A quotient, unless the divisor is zero. -/
def divide? {α : Type} [SearchNumber α] (x y : α) : Option α :=
  if isZero y then none else some (x / y)

namespace Bracket

variable {α : Type} [SearchNumber α]

/-- The interpolated step, unless it divides by zero. -/
def interpolated? (s : Bracket α) : Option (α × α) := do
  let m := s.middle
  let ratio ← divide? s.best.y s.previous.y
  if same s.previous.x s.opposite.x then some (ofRat 2 * m * ratio, ofRat 1 - ratio)
  else
    let q ← divide? s.previous.y s.opposite.y
    let r ← divide? s.best.y s.opposite.y
    some (ratio * (ofRat 2 * m * q * (q - r) - (s.best.x - s.previous.x) * (r - ofRat 1)),
      (q - ofRat 1) * (r - ofRat 1) * (ratio - ofRat 1))

def nextSteps? (s : Bracket α) (width : α) : Option (α × α) :=
  if s.mayInterpolate width then do
    let fraction := oriented (← s.interpolated?)
    if s.accepts width fraction then
      let step ← divide? fraction.1 fraction.2
      some (step, s.step)
    else some (s.middle, s.middle)
  else some (s.middle, s.middle)

/-- Brent's method from a bracket on, unless it divides by zero. -/
def narrow? (f : α → α) (tolerance : α) : ℕ → Bracket α → Option (Refined α)
  | 0, s => some ⟨s.best.x, [], false⟩
  | count + 1, s =>
    let s := s.rebracket.order
    if s.isClosed tolerance then some ⟨s.best.x, [], true⟩
    else do
      let width := halfWidth tolerance s.best.x
      let (step, stepBefore) ← s.nextSteps? width
      let x := s.nextPlace width step
      let rest ← narrow? f tolerance count
        { s with best := .of f x, previous := s.best, step, stepBefore }
      some { rest with visited := x :: rest.visited }

end Bracket

/-- Brent's method, unless it divides by zero. -/
def brent? {α : Type} [SearchNumber α] (f : α → α) (first second : Point α) (tolerance : α)
    (count : ℕ) : Option (Refined α) :=
  Bracket.narrow? f tolerance count (.between first second)

theorem divide?_eq_some {x y : ℚ} (hy : y ≠ 0) : divide? x y = some (x / y) :=
  if_neg fun h => hy (of_decide_eq_true h)

namespace Bracket

variable {f : ℚ → ℚ} {I : Set ℚ} {s : Bracket ℚ} {t width : ℚ}

/-- The point is on the graph of the function over the set. -/
def IsOn (f : ℚ → ℚ) (I : Set ℚ) (p : Point ℚ) : Prop :=
  p.x ∈ I ∧ p.y = f p.x

/-- The best point is a root, or its value and that of the point opposite have opposite signs. -/
def IsOpposed (s : Bracket ℚ) : Prop :=
  s.best.y = 0 ∨ s.best.y * s.opposite.y < 0

/-- The points are on the graph.  The best one is opposed, unless its value has the sign of the one
    opposite: then it is opposed to the one before. -/
structure Straddles (f : ℚ → ℚ) (I : Set ℚ) (s : Bracket ℚ) : Prop where
  isOn : s.All (IsOn f I)
  opposed : s.IsOpposed ∨ 0 < s.best.y * s.opposite.y ∧ s.best.y * s.previous.y < 0

/-- The point before takes the place of the one opposite just when their values call for it. -/
theorem rebracket_eq (s : Bracket ℚ) : s.rebracket =
    if 0 < s.best.y * s.opposite.y then
      { s with
        opposite := s.previous
        step := s.best.x - s.previous.x
        stepBefore := s.best.x - s.previous.x }
    else s := by
  have hsign : (SearchNumber.isPositive s.best.y && SearchNumber.isPositive s.opposite.y ||
      isNegative s.best.y && isNegative s.opposite.y) = decide (0 < s.best.y * s.opposite.y) := by
    rw [Bool.eq_iff_iff]
    simp only [SearchNumber.isPositive, isNegative, less, ofRat, Bool.or_eq_true,
      Bool.and_eq_true, decide_eq_true_eq, mul_pos_iff]
  unfold rebracket
  rw [hsign]
  simp only [decide_eq_true_eq]

theorem Straddles.isOpposed_rebracket (h : s.Straddles f I) : s.rebracket.IsOpposed := by
  rw [rebracket_eq]
  split
  case isTrue hsame =>
    rcases h.opposed with (hroot | hopposed) | ⟨-, hprevious⟩
    · rw [hroot, zero_mul] at hsame
      exact absurd hsame (lt_irrefl 0)
    · exact absurd hsame hopposed.not_gt
    · exact .inr hprevious
  case isFalse hother =>
    rcases h.opposed with hopposed | ⟨hsame, -⟩
    · exact hopposed
    · exact absurd hsame hother

theorem IsOpposed.order (h : s.IsOpposed) : s.order.IsOpposed := by
  unfold Bracket.order
  split
  case isTrue hless =>
    rcases h with hroot | hopposed
    · have hnegative : |s.opposite.y| < 0 := by
        rw [hroot] at hless
        simpa [ratAbs_eq, SearchNumber.abs, less] using hless
      exact absurd hnegative (abs_nonneg _).not_gt
    · exact .inr (by rwa [mul_comm] at hopposed)
  case isFalse => exact h

theorem Straddles.isOpposed_arranged (h : s.Straddles f I) : s.rebracket.order.IsOpposed :=
  h.isOpposed_rebracket.order

theorem isAt_self (s : Bracket ℚ) : s.IsAt s.best.x s.previous.x s.opposite.x :=
  ⟨rfl, rfl, rfl⟩

/-- Where the best point is no root, its value and that of the point opposite have opposite
    signs. -/
theorem IsOpposed.of_not_isClosed (h : s.IsOpposed) (hopen : s.isClosed t = false) :
    s.best.y * s.opposite.y < 0 := by
  have hroot := (s.isAt_self.of_not_isClosed hopen).2
  exact h.resolve_left (of_decide_eq_false hroot)

/-- A step between values of opposite sign divides by nothing that is zero. -/
theorem nextSteps?_eq_some (h : s.best.y * s.opposite.y < 0) :
    s.nextSteps? width = some (s.nextSteps width) := by
  unfold nextSteps? nextSteps
  cases hmay : s.mayInterpolate width with
  | false => rfl
  | true =>
    obtain ⟨y, z, hy, hz, hprogress⟩ := of_mayInterpolate hmay
    have hprevious : s.previous.y ≠ 0 := by
      rw [show s.previous.y = z from hz]
      exact abs_pos.1 ((abs_nonneg y).trans_lt hprogress)
    have hinterpolated : s.interpolated? = some s.interpolated := by
      unfold interpolated? interpolated
      simp only [divide?_eq_some hprevious, divide?_eq_some (right_ne_zero_of_mul h.ne),
        Option.bind_eq_bind, Option.bind_some]
      split <;> rfl
    simp only [hinterpolated, if_true, Option.bind_eq_bind, Option.bind_some, Bool.true_and]
    split
    case isFalse => rfl
    case isTrue haccepts =>
      obtain ⟨p, q, hfraction, hinside⟩ := of_accepts s.isAt_self.middle_eq haccepts
      have hp : 0 ≤ p := (oriented_eq (congrArg Prod.fst hfraction)).1
      have hq : q ≠ 0 := by
        rintro rfl
        simp only [mul_zero, abs_zero, sub_zero] at hinside
        linarith
      rw [hfraction]
      simp only [show divide? (ofRat p : ℚ) (ofRat q) = some (p / q) from divide?_eq_some hq,
        Option.bind_some]
      rfl

theorem Straddles.advance (h : s.Straddles f I) (hI : Convex ℚ I) (ht : 0 ≤ t)
    (hopen : s.rebracket.order.isClosed t = false) :
    (s.rebracket.order.advance f t).Straddles f I := by
  have hopposed := h.isOpposed_arranged.of_not_isClosed hopen
  obtain ⟨hbest, hprevious, hopposite⟩ := h.isOn.arranged
  have hplace : ((s.rebracket.order.advance f t).All (IsIn I)) :=
    All.isIn_advance ⟨⟨_, hbest.1, rfl⟩, ⟨_, hprevious.1, rfl⟩, ⟨_, hopposite.1, rfl⟩⟩ hI ht hopen
  obtain ⟨x, hx, heq⟩ := hplace.best
  refine ⟨⟨⟨heq ▸ hx, rfl⟩, hbest, hopposite⟩, ?_⟩
  have hbefore : (s.rebracket.order.advance f t).previous = s.rebracket.order.best := rfl
  have hstays : (s.rebracket.order.advance f t).opposite = s.rebracket.order.opposite := rfl
  unfold IsOpposed
  rw [hbefore, hstays]
  generalize (s.rebracket.order.advance f t).best.y = y
  rcases lt_trichotomy (y * s.rebracket.order.opposite.y) 0 with hneg | hzero | hpos
  · exact .inl (.inr hneg)
  · refine .inl (.inl ?_)
    exact (mul_eq_zero.1 hzero).resolve_right (right_ne_zero_of_mul hopposed.ne)
  · refine .inr ⟨hpos, ?_⟩
    rcases mul_pos_iff.1 hpos with ⟨hy, ho⟩ | ⟨hy, ho⟩
    · exact mul_neg_of_pos_of_neg hy (neg_of_mul_neg_left hopposed ho.le)
    · exact mul_neg_of_neg_of_pos hy (pos_of_mul_neg_left hopposed ho.le)

theorem straddles_between {a b : ℚ} (ha : a ∈ I) (hb : b ∈ I) (h : f a * f b < 0) :
    (between (.of f a) (.of f b)).Straddles f I := by
  refine ⟨all_between ⟨ha, rfl⟩ ⟨hb, rfl⟩, .inr ⟨?_, ?_⟩⟩
  · exact mul_self_pos.2 (right_ne_zero_of_mul h.ne)
  · exact (mul_comm (f b) (f a)).trans_lt h

/-- From points that straddle a change of sign no run divides by zero. -/
theorem narrow?_eq_some (hI : Convex ℚ I) (ht : 0 ≤ t) (count : ℕ) (h : s.Straddles f I) :
    narrow? f t count s = some (narrow f t count s) := by
  induction count generalizing s with
  | zero => rfl
  | succ count ih =>
    rw [narrow_succ]
    unfold narrow?
    dsimp only
    split
    case isTrue => rfl
    case isFalse hopen =>
      have hopen := Bool.eq_false_of_not_eq_true hopen
      rw [nextSteps?_eq_some (h.isOpposed_arranged.of_not_isClosed hopen)]
      simp only [Option.bind_eq_bind, Option.bind_some]
      have hrest := ih (h.advance hI ht hopen)
      unfold Bracket.advance at hrest
      dsimp only at hrest
      rw [hrest]
      rfl

/-- Where a run ends early there is a root, or a narrow bracket with a change of sign. -/
theorem Straddles.of_isClosed (h : s.Straddles f I)
    (hclosed : s.rebracket.order.isClosed t = true) :
    f s.rebracket.order.best.x = 0 ∨ ∃ c ∈ I, f c * f s.rebracket.order.best.x < 0 ∧
      |c - s.rebracket.order.best.x| / 2 ≤
        2 * epsilon * |s.rebracket.order.best.x| + t / 2 := by
  obtain ⟨⟨-, hbest⟩, -, ⟨hopposite, hvalue⟩⟩ := h.isOn.arranged
  rw [← hbest]
  rcases h.isOpposed_arranged with hroot | hopposed
  · exact .inl hroot
  · refine .inr ⟨_, hopposite, by rwa [← hvalue, mul_comm], ?_⟩
    rcases (isAt_self _).isClosed_iff.1 hclosed with hnarrow | hroot
    · have hepsilon : (epsilon : ℚ) = 1 / 4503599627370496 := rfl
      rw [abs_mul, abs_of_pos one_half_pos] at hnarrow
      rw [hepsilon]
      linarith
    · exact absurd (of_decide_eq_true hroot) (left_ne_zero_of_mul hopposed.ne)

end Bracket

/-- Brent's method between two places at which a function has values of opposite sign: it divides by
    nothing that is zero, it evaluates the function only at places between the two and ends at one
    of them, and where it ends early that place is a root, or near it, within the tolerance, the
    function has a value of the opposite sign. -/
theorem brent_brackets {f : ℚ → ℚ} {a b tolerance : ℚ} (hsign : f a * f b < 0)
    (htolerance : 0 ≤ tolerance) (count : ℕ) :
    let found := brent f (.of f a) (.of f b) tolerance count
    brent? f (.of f a) (.of f b) tolerance count = some found ∧
      (∀ x ∈ found.visited, x ∈ Set.uIcc a b) ∧ found.place ∈ Set.uIcc a b ∧
      (found.converged = true → f found.place = 0 ∨
        ∃ c ∈ Set.uIcc a b, f c * f found.place < 0 ∧
          |c - found.place| / 2 ≤ 2 * epsilon * |found.place| + tolerance / 2) := by
  intro found
  have hstart : (Bracket.between (.of f a) (.of f b)).Straddles f (Set.uIcc a b) :=
    Bracket.straddles_between Set.left_mem_uIcc Set.right_mem_uIcc hsign
  obtain ⟨hvisited, hplace⟩ := brent_mem_uIcc (f := f) (show (Point.of f a).x = ofRat a from rfl)
    (show (Point.of f b).x = ofRat b from rfl) htolerance count
  refine ⟨Bracket.narrow?_eq_some (convex_uIcc a b) htolerance count hstart, ?_, ?_, ?_⟩
  · intro x hx
    obtain ⟨y, hy, rfl⟩ := hvisited x hx
    exact hy
  · obtain ⟨y, hy, heq⟩ := hplace
    exact heq ▸ hy
  · intro hconverged
    obtain ⟨-, last, hlast, ⟨hcount, -⟩ | ⟨hclosed, hend⟩⟩ := Bracket.narrow_of_invariant (f := f)
      (fun s hs hopen => hs.advance (convex_uIcc a b) htolerance hopen) count hstart
    · exact absurd (hcount.symm.trans hconverged) Bool.false_ne_true
    · have hplace : found.place = last.rebracket.order.best.x := hend
      rw [hplace]
      exact hlast.of_isClosed hclosed

def squareLessTwo (x : ℚ) : ℚ :=
  x * x - 2

/-- Between 0 and 2 the method comes to a place that is no root, and near it the function changes
    sign. -/
theorem brent_brackets_squareRoot :
    let found := brent squareLessTwo (.of squareLessTwo 0) (.of squareLessTwo 2) (1 / 2) 6
    squareLessTwo 0 * squareLessTwo 2 < 0 ∧ found.converged = true ∧
      ∃ c ∈ Set.uIcc 0 2, squareLessTwo c * squareLessTwo found.place < 0 ∧
        |c - found.place| / 2 ≤ 2 * epsilon * |found.place| + 1 / 2 / 2 := by
  have hsign : squareLessTwo 0 * squareLessTwo 2 < 0 := by norm_num [squareLessTwo]
  have hconverged : (brent squareLessTwo (.of squareLessTwo 0) (.of squareLessTwo 2)
      (1 / 2) 6).converged = true := by decide +kernel
  have hroot : squareLessTwo (brent squareLessTwo (.of squareLessTwo 0) (.of squareLessTwo 2)
      (1 / 2) 6).place ≠ 0 := by decide +kernel
  exact ⟨hsign, hconverged,
    ((brent_brackets hsign (by norm_num) 6).2.2.2 hconverged).resolve_left hroot⟩

end EquationSolver
