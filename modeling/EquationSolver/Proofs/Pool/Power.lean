import EquationSolver.Proofs.Pool.Product
import EquationSolver.Reduction.Function
import EquationSolver.Reduction.Power

/-!
# Powers and functions are grounded

Powers of known terms are grounded in every case, and with them products and powers at every
depth.  The exact values of functions are built from numbers and constants, and from the argument
where they depend on it.
-/

namespace EquationSolver

open Build

namespace Reduction

variable {k : Known}

/-! ### Powers -/

theorem grounds_radical {s : Settings} {base : Rat} {p : Int} {q : Nat} {unreduced : Build Term}
    (h : unreduced.Grounds k) : (radical s base p q unreduced).Grounds k := by
  unfold radical
  dsimp only
  split
  · exact h
  · split
    · exact grounds_make (by simp [Term.children])
    · split
      · exact grounds_number _
      · refine (grounds_number _).bind fun k₁ _ hradicand => ?_
        refine (grounds_number _).bind fun k₂ hle₂ hexponent => ?_
        refine (grounds_make ?_).bind fun k₃ hle₃ hroot => ?_
        · exact List.forall_mem_cons.2 ⟨hle₂ _ hradicand, List.forall_mem_singleton.2 hexponent⟩
        · split
          · exact isGrounded_pure hroot
          · refine (grounds_number _).bind fun k₄ hle₄ hfirst => grounds_product ?_
            exact List.forall_mem_cons.2 ⟨hfirst, List.forall_mem_singleton.2 (hle₄ _ hroot)⟩

theorem grounds_decimalPower {s : Settings} {base exponent : Float} {unreduced : Build Term}
    (h : unreduced.Grounds k) : (decimalPower s base exponent unreduced).Grounds k := by
  unfold decimalPower
  split
  · split
    · exact grounds_ofDouble 0
    · exact grounds_make (by simp [Term.children])
  · split
    · split
      · exact grounds_make (by simp [Term.children])
      · exact h
    · exact grounds_ofDouble _

theorem grounds_negativePower {s : Settings} {pow : Term → Term → Build Term}
    {mul : List Term → Build Term} (hpow : GroundsPowers pow) (hmul : GroundsProducts mul)
    {base : Rat} {p : Int} {q : Nat} {unreduced : Build Term}
    (h : ∀ k', k ≤ k' → unreduced.Grounds k') :
    (negativePower s pow mul base p q unreduced).Grounds k := by
  unfold negativePower
  split
  · split
    · refine (grounds_radical (h k (Known.le_refl k))).bind fun k₁ _ hroot => ?_
      split
      · exact isGrounded_pure hroot
      · refine (grounds_number _).bind fun k₂ hle₂ hminusOne => hmul k₂ _ ?_
        simpa using ⟨hminusOne, hle₂ _ hroot⟩
    · exact h k (Known.le_refl k)
  · split
    · exact grounds_make (by simp [Term.children])
    · split
      · refine (grounds_make (by simp [Term.children])).bind fun k₁ hle₁ hi => ?_
        refine (grounds_number _).bind fun k₂ hle₂ hexponent => ?_
        refine (hpow k₂ _ _ (hle₂ _ hi) hexponent).bind fun k₃ hle₃ hturned => ?_
        have hle := Known.le_trans hle₁ (Known.le_trans hle₂ hle₃)
        refine (grounds_radical (h k₃ hle)).bind fun k₄ hle₄ hroot => hmul k₄ _ ?_
        simpa using ⟨hle₄ _ hturned, hroot⟩
      · exact h k (Known.le_refl k)

theorem grounds_rationalPower {s : Settings} {pow : Term → Term → Build Term}
    {mul : List Term → Build Term} (hpow : GroundsPowers pow) (hmul : GroundsProducts mul)
    {base exponent : Rat} {unreduced : Build Term} (h : ∀ k', k ≤ k' → unreduced.Grounds k') :
    (rationalPower s pow mul base exponent unreduced).Grounds k := by
  have hnow := h k (Known.le_refl k)
  unfold rationalPower
  split
  · split
    · exact grounds_number 0
    · exact grounds_make (by simp [Term.children])
  · split
    · split
      · exact hnow
      · split
        · exact grounds_number _
        · exact hnow
    · split
      · exact hnow
      · split
        · exact hnow
        · split
          · exact grounds_negativePower hpow hmul h
          · exact grounds_radical hnow

theorem grounds_imaginaryPower {mul : List Term → Build Term} (hmul : GroundsProducts mul)
    (n : Int) (h : .constant .i ∈ k) : (imaginaryPower mul n).Grounds k := by
  unfold imaginaryPower
  split
  · exact grounds_number 1
  · split
    · exact isGrounded_pure h
    · split
      · exact grounds_number (-1)
      · refine (grounds_number (-1)).bind fun k' hle hminusOne => hmul k' _ ?_
        simpa using ⟨hminusOne, hle _ h⟩

theorem grounds_multiplyRepeatedly {mul : List Term → Build Term} (hmul : GroundsProducts mul)
    {base : Term} (hbase : base ∈ k) (count : Nat) {found : Term} (hfound : found ∈ k) :
    (multiplyRepeatedly mul base count found).Grounds k := by
  induction count generalizing found k with
  | zero => exact isGrounded_pure hfound
  | succ count ih =>
    refine (groundsAll_pairwise hmul (summands_mem hfound) (summands_mem hbase)).bind
      fun k₁ hle₁ hterms => ?_
    refine (grounds_add hterms).bind fun k₂ hle₂ hlonger => ?_
    exact ih (hle₂ _ (hle₁ _ hbase)) hlonger

/-- A power that is left as it is has known parts. -/
theorem grounds_power {base exponent : Term} (hbase : base ∈ k) (hexponent : exponent ∈ k) :
    (make (.power base exponent)).Grounds k :=
  grounds_make (by simpa [Term.children] using ⟨hbase, hexponent⟩)

theorem grounds_exactPower {s : Settings} {pow : Term → Term → Build Term}
    {mul : List Term → Build Term} (hpow : GroundsPowers pow) (hmul : GroundsProducts mul)
    {base : Term} {exponent : Rat} (hbase : base ∈ k) (hexponent : .number exponent ∈ k) :
    (exactPower s pow mul base exponent).Grounds k := by
  unfold exactPower
  dsimp only
  split
  case h_1 => exact grounds_imaginaryPower hmul _ hbase
  case h_2 inner innerExponent _ _ =>
    have hinner : inner ∈ k := k.child_mem hbase (by simp [Term.children])
    have hinnerExponent : innerExponent ∈ k := k.child_mem hbase (by simp [Term.children])
    refine (hmul k _ (by simpa using ⟨hinnerExponent, hexponent⟩)).bind
      fun k' hle hproduct => ?_
    exact hpow k' _ _ (hle _ hinner) hproduct
  case h_3 factors _ _ =>
    refine (groundsAll_each fun k' hle t ht => ?_).bind fun k' _ hpowers => hmul k' _ hpowers
    exact hpow k' _ _ (hle _ (k.child_mem hbase ht)) (hle _ hexponent)
  case h_4 c rest _ =>
    have hchildren : ∀ t ∈ Term.number c :: rest, t ∈ k := fun t ht => k.child_mem hbase ht
    obtain ⟨hfirst, hrest⟩ := List.forall_mem_cons.1 hchildren
    split
    · refine (grounds_product hrest).bind fun k₁ hle₁ hrestTerm => ?_
      refine (hpow k₁ _ _ (hle₁ _ hfirst) (hle₁ _ hexponent)).bind fun k₂ hle₂ houter => ?_
      refine (hpow k₂ _ _ (hle₂ _ hrestTerm) (hle₂ _ (hle₁ _ hexponent))).bind
        fun k₃ hle₃ hinner => hmul k₃ _ ?_
      simpa using And.intro (hle₃ _ houter) hinner
    · exact grounds_power hbase hexponent
  case h_5 =>
    split
    · exact grounds_multiplyRepeatedly hmul hbase _ hbase
    · exact grounds_power hbase hexponent
  case h_6 => exact grounds_power hbase hexponent

theorem groundsPowers_powWith (s : Settings) {pow : Term → Term → Build Term}
    {mul : List Term → Build Term} (hpow : GroundsPowers pow) (hmul : GroundsProducts mul) :
    GroundsPowers (powWith s pow mul) := by
  intro k base exponent hbase hexponent
  have hleft : ∀ k', k ≤ k' → (make (.power base exponent)).Grounds k' :=
    fun k' hle => grounds_power (hle _ hbase) (hle _ hexponent)
  have hnow := hleft k (Known.le_refl k)
  unfold powWith
  dsimp only
  split
  case h_1 poison hpoison => exact grounds_poison hpoison
  case h_2 =>
    split
    · exact hnow
    · split
      · split
        · exact grounds_make (by simp [Term.children])
        · exact grounds_number 1
      · split
        · exact isGrounded_pure hbase
        · split
          · exact grounds_rationalPower hpow hmul hleft
          · split
            · exact grounds_decimalPower hnow
            · exact grounds_exactPower hpow hmul hbase hexponent
          · split
            · exact grounds_decimalPower hnow
            · exact hnow

theorem groundsPowers_plainPow : GroundsPowers plainPow := by
  intro k base exponent hbase hexponent
  unfold plainPow
  split
  case h_1 poison hpoison => exact grounds_poison hpoison
  case h_2 =>
    split
    · exact grounds_power hbase hexponent
    · split
      · split
        · exact grounds_make (by simp [Term.children])
        · exact grounds_number 1
      · split
        · exact isGrounded_pure hbase
        · exact grounds_power hbase hexponent

/-- Products and powers are grounded at every depth. -/
theorem grounds_mulWithin_powWithin (s : Settings) (depth : Nat) :
    GroundsProducts (mulWithin s depth) ∧ GroundsPowers (powWithin s depth) := by
  induction depth with
  | zero => exact ⟨groundsProducts_plainMul, groundsPowers_plainPow⟩
  | succ depth ih =>
    obtain ⟨hmul, hpow⟩ := ih
    exact ⟨groundsProducts_mulWith s hpow hmul, groundsPowers_powWith s hpow hmul⟩

theorem groundsProducts_mul (s : Settings) : GroundsProducts (mul s) :=
  (grounds_mulWithin_powWithin s maxDepth).1

theorem groundsPowers_pow (s : Settings) : GroundsPowers (pow s) :=
  (grounds_mulWithin_powWithin s maxDepth).2

/-! ### Functions -/

/-- A construction that may be missing is grounded, if it is there, in whatever is known. -/
def GroundsAnywhere (b? : Option (Build Term)) : Prop :=
  ∀ b ∈ b?, ∀ k : Known, b.Grounds k

theorem groundsAnywhere_some {b : Build Term} (h : ∀ k : Known, b.Grounds k) :
    GroundsAnywhere (some b) := by
  rintro b ⟨⟩
  exact h

theorem groundsAnywhere_none : GroundsAnywhere none := by
  rintro b ⟨⟩

theorem groundsAnywhere_number (a : Rat) : GroundsAnywhere (some (number a)) :=
  groundsAnywhere_some fun _ => grounds_number a

theorem groundsAnywhere_atom {t : Term} (h : t.children = []) : GroundsAnywhere (some (make t)) :=
  groundsAnywhere_some fun _ => grounds_make (by simp [h])

theorem GroundsAnywhere.map {α : Type} {a? : Option α} {f : α → Build Term}
    (h : ∀ a, ∀ k : Known, (f a).Grounds k) : GroundsAnywhere (a?.map f) := by
  cases a? with
  | none => exact groundsAnywhere_none
  | some a => exact groundsAnywhere_some (h a)

/-- Minus one times a term that has just been built. -/
theorem grounds_opposite (s : Settings) {t : Term} (h : t ∈ k) :
    (do
      let minusOne ← number (-1)
      mul s [minusOne, t]).Grounds k := by
  refine (grounds_number (-1)).bind fun k' hle hminusOne => groundsProducts_mul s k' _ ?_
  simpa using ⟨hminusOne, hle _ h⟩

theorem groundsAnywhere_firstQuarterSine? (s : Settings) (step : Int) :
    GroundsAnywhere (firstQuarterSine? s step) := by
  have hroot : ∀ (radicand : Rat) (k : Known), (do
      let radicandTerm ← number radicand
      let exponent ← number (1 / 2)
      let root ← pow s radicandTerm exponent
      let half ← number (1 / 2)
      mul s [half, root]).Grounds k := by
    intro radicand k
    refine (grounds_number _).bind fun k₁ _ hradicand => ?_
    refine (grounds_number _).bind fun k₂ hle₂ hexponent => ?_
    refine (groundsPowers_pow s k₂ _ _ (hle₂ _ hradicand) hexponent).bind
      fun k₃ _ hroot => ?_
    refine (grounds_number _).bind fun k₄ hle₄ hhalf => groundsProducts_mul s k₄ _ ?_
    simpa using And.intro hhalf (hle₄ _ hroot)
  unfold firstQuarterSine?
  dsimp only
  split
  · exact groundsAnywhere_number 0
  · split
    · exact groundsAnywhere_number _
    · split
      · exact groundsAnywhere_some (hroot 2)
      · split
        · exact groundsAnywhere_some (hroot 3)
        · split
          · exact groundsAnywhere_number 1
          · exact groundsAnywhere_none

theorem groundsAnywhere_exactSine? (s : Settings) (step : Int) :
    GroundsAnywhere (exactSine? s step) := by
  unfold exactSine?
  dsimp only
  intro b hb k
  obtain ⟨sine, hsine, rfl⟩ := Option.map_eq_some_iff.1 hb
  refine (groundsAnywhere_firstQuarterSine? s _ sine hsine k).bind fun k' _ hvalue => ?_
  split
  · exact grounds_opposite s hvalue
  · exact isGrounded_pure hvalue

theorem groundsAnywhere_exactTangent? (s : Settings) (step : Int) :
    GroundsAnywhere (exactTangent? s step) := by
  unfold exactTangent?
  split
  case h_1 sine cosine hsine hcosine =>
    refine groundsAnywhere_some fun k => ?_
    refine (groundsAnywhere_exactSine? s _ sine hsine k).bind fun k₁ _ hsine => ?_
    refine (groundsAnywhere_exactSine? s _ cosine hcosine k₁).bind fun k₂ hle₂ hcosine => ?_
    split
    · exact grounds_make (by simp [Term.children])
    · refine (grounds_number (-1)).bind fun k₃ hle₃ hminusOne => ?_
      refine (groundsPowers_pow s k₃ _ _ (hle₃ _ hcosine) hminusOne).bind
        fun k₄ hle₄ hinverse => groundsProducts_mul s k₄ _ ?_
      simpa using And.intro (hle₄ _ (hle₃ _ (hle₂ _ hsine))) hinverse
  case h_2 => exact groundsAnywhere_none

theorem grounds_angle (s : Settings) (halfTurns : Rat) (k : Known) :
    (angle s halfTurns).Grounds k := by
  unfold angle
  split
  · refine (grounds_number _).bind fun k₁ _ hcoefficient => ?_
    refine (grounds_make (by simp [Term.children])).bind fun k₂ hle₂ hpi =>
      groundsProducts_mul s k₂ _ ?_
    simpa using And.intro (hle₂ _ hcoefficient) hpi
  · exact grounds_number _
  · exact grounds_number _

theorem groundsAnywhere_exactInverse? (s : Settings) (f : Function) (argument : Term) :
    GroundsAnywhere (exactInverse? s f argument) := by
  unfold exactInverse?
  split
  · split
    · split
      · exact groundsAnywhere_atom rfl
      · exact groundsAnywhere_none
    · exact GroundsAnywhere.map (grounds_angle s)
  · exact groundsAnywhere_none

theorem groundsAnywhere_exactLogarithm? (s : Settings) (isDecimal : Bool) (argument : Term) :
    GroundsAnywhere (exactLogarithm? s isDecimal argument) := by
  unfold exactLogarithm?
  split
  · split
    · exact groundsAnywhere_none
    · exact groundsAnywhere_number 1
  · split
    · exact groundsAnywhere_atom rfl
    · split
      · split
        · exact groundsAnywhere_atom rfl
        · exact groundsAnywhere_none
      · split
        · exact groundsAnywhere_number 0
        · split
          · exact GroundsAnywhere.map fun _ _ => grounds_number _
          · exact groundsAnywhere_none
  · exact groundsAnywhere_none

theorem grounds_exactAbsoluteValue? {argument : Term} (h : argument ∈ k) :
    ∀ b ∈ exactAbsoluteValue? argument, b.Grounds k := by
  unfold exactAbsoluteValue?
  split
  · intro b hb
    exact groundsAnywhere_number _ b hb k
  · intro b hb
    exact groundsAnywhere_number 1 b hb k
  · rintro b ⟨⟩
    exact isGrounded_pure h
  · rintro b ⟨⟩

theorem groundsAnywhere_exactCubeRoot? (s : Settings) (argument : Term) :
    GroundsAnywhere (exactCubeRoot? s argument) := by
  unfold exactCubeRoot?
  split
  · refine groundsAnywhere_some fun k => ?_
    refine (grounds_number _).bind fun k₁ _ hmagnitude => ?_
    refine (grounds_number _).bind fun k₂ hle₂ hthird => ?_
    refine (groundsPowers_pow s k₂ _ _ (hle₂ _ hmagnitude) hthird).bind fun k₃ _ hroot => ?_
    split
    · exact grounds_opposite s hroot
    · exact isGrounded_pure hroot
  · exact groundsAnywhere_none

theorem grounds_exactValue? (s : Settings) (f : Function) {argument : Term}
    (h : argument ∈ k) : ∀ b ∈ exactValue? s f argument, b.Grounds k := by
  intro b hb
  unfold exactValue? at hb
  cases f with
  | sin =>
    obtain ⟨step, -, hb⟩ := Option.bind_eq_some_iff.1 hb
    exact groundsAnywhere_exactSine? s step b hb k
  | cos =>
    obtain ⟨step, -, hb⟩ := Option.bind_eq_some_iff.1 hb
    exact groundsAnywhere_exactSine? s _ b hb k
  | tan =>
    obtain ⟨step, -, hb⟩ := Option.bind_eq_some_iff.1 hb
    exact groundsAnywhere_exactTangent? s step b hb k
  | asin | acos | atan => exact groundsAnywhere_exactInverse? s _ argument b hb k
  | ln => exact groundsAnywhere_exactLogarithm? s false argument b hb k
  | log => exact groundsAnywhere_exactLogarithm? s true argument b hb k
  | abs => exact grounds_exactAbsoluteValue? h b hb
  | cbrt => exact groundsAnywhere_exactCubeRoot? s argument b hb k

theorem grounds_apply (s : Settings) (f : Function) {argument : Term} (h : argument ∈ k) :
    (apply s f argument).Grounds k := by
  have hleft : (make (.apply f argument)).Grounds k :=
    grounds_make (by simpa [Term.children] using h)
  unfold apply
  split
  case h_1 poison hpoison => exact grounds_poison hpoison
  case h_2 =>
    split
    case h_1 => exact hleft
    case h_2 bits =>
      unfold decimalValue
      dsimp only
      split
      · exact grounds_make (by simp [Term.children])
      · split
        · exact grounds_ofDouble _
        · split
          · exact grounds_make (by simp [Term.children])
          · exact hleft
    case h_3 =>
      cases hvalue : exactValue? s f argument with
      | none => exact hleft
      | some b => exact grounds_exactValue? s f h b hvalue

end Reduction

end EquationSolver
