import EquationSolver.Interned.Reduce
import EquationSolver.Proofs.Interned.Power

/-!
# Functions of handles

Applying a function to a handle performs its application to the term that the handle denotes.  An
exact value is found for a node just when it is found for the term, and then by the same
constructions.
-/

namespace EquationSolver

namespace Interned

open PoolProgram
open Reduction (Settings)

variable {pool : Pool} {s : Settings}

/-- A program and a construction of the same term in every reachable pool that another leads to. -/
def linkedValue : Linked (PoolProgram Handle) (Build Term) where
  Holds pool program b := ∀ pool' : Pool, pool.LeadsTo pool' → Performs pool' program b .handle
  mono hleads _ _ hperforms pool' hleads' := hperforms pool' (hleads.trans hleads')

/-- A value that is built without operands. -/
theorem holds_some {program : PoolProgram Handle} {b : Build Term}
    (h : ∀ pool : Pool, pool.Reachable → Performs pool program b .handle) :
    linkedValue.option.Holds pool (some program) (some b) :=
  .some fun pool' hleads => h pool' hleads.reachable

/-! ### Angles -/

theorem performs_halfTurns? (unit : AngleUnit) (h : pool.Reachable) {n : Node} {t : Term}
    (hn : pool.StandsFor n t) :
    Performs pool (halfTurns? unit n) (pure (Reduction.halfTurns? unit t)) (.same (Option Rat)) := by
  cases unit with
  | degree => cases hn <;> exact performs_pure h rfl
  | gradian => cases hn <;> exact performs_pure h rfl
  | radian =>
    cases hn with
    | constant c => cases c <;> exact performs_pure h rfl
    | @product hs ts hts =>
      match hs, ts, hts with
      | [], [], _ => exact performs_pure h rfl
      | [a], [x], _ => cases x <;> exact performs_pure h rfl
      | a :: b :: c :: hs, x :: y :: z :: ts, _ =>
        have hnone : Reduction.halfTurns? .radian (.product (x :: y :: z :: ts)) = none := by
          simp [Reduction.halfTurns?]
        rw [hnone]
        exact performs_pure h rfl
      | [a, b], [x, y], .cons hx (.cons hy .nil) =>
        refine (performs_node h hx).read fun m hm => (performs_node h hy).read fun k hk => ?_
        cases hm with
        | number a =>
          cases hk with
          | constant c => cases c <;> exact performs_pure h rfl
          | _ => exact performs_pure h rfl
        | _ => cases hk <;> exact performs_pure h rfl
    | _ => exact performs_pure h rfl

theorem performs_circleStep? (unit : AngleUnit) (h : pool.Reachable) {n : Node} {t : Term}
    (hn : pool.StandsFor n t) :
    Performs pool (circleStep? unit n) (pure (Reduction.circleStep? unit t)) (.same (Option Int)) := by
  refine (performs_halfTurns? unit h hn).read fun turns hturns => performs_pure h ?_
  cases hturns
  rfl

/-- The opposite of a handle. -/
theorem performs_opposite (h : pool.Reachable) {handle : Handle} {t : Term}
    (ht : pool.Denotes handle t) :
    Performs pool (do let minusOne ← construct (.number (-1)); mul s [minusOne, handle])
      (do let minusOne ← Build.number (-1); Reduction.mul s [minusOne, t]) .handle :=
  (performs_number h (-1)).bind fun _ _ hleads hminusOne =>
    (performs_mul s).two hleads.reachable hminusOne (hleads.grows _ _ ht)

/-- The quotient of two handles. -/
theorem performs_quotient (h : pool.Reachable) {a b : Handle} {x y : Term} (hx : pool.Denotes a x)
    (hy : pool.Denotes b y) :
    Performs pool
      (do let minusOne ← construct (.number (-1))
          let inverse ← pow s b minusOne
          mul s [a, inverse])
      (do let minusOne ← Build.number (-1)
          let inverse ← Reduction.pow s y minusOne
          Reduction.mul s [x, inverse]) .handle := by
  refine (performs_number h _).bind fun pool' minusOne hleads hminusOne => ?_
  refine (performs_pow s _ hleads.reachable _ _ _ _ (hleads.grows _ _ hy) hminusOne).bind
    fun pool'' inverse hleads' hinverse => ?_
  exact (performs_mul s).two hleads'.reachable ((hleads.trans hleads').grows _ _ hx) hinverse

theorem holds_firstQuarterSine? (step : Int) :
    linkedValue.option.Holds pool (firstQuarterSine? s step) (Reduction.firstQuarterSine? s step) := by
  have hroot (radicand : Rat) : linkedValue.option.Holds pool
      (some do
        let radicand ← construct (.number radicand)
        let exponent ← construct (.number (1 / 2))
        let root ← pow s radicand exponent
        let half ← construct (.number (1 / 2))
        mul s [half, root])
      (some do
        let radicandTerm ← Build.number radicand
        let exponent ← Build.number (1 / 2)
        let root ← Reduction.pow s radicandTerm exponent
        let half ← Build.number (1 / 2)
        Reduction.mul s [half, root]) := by
    refine holds_some fun pool h => ?_
    refine (performs_number h radicand).bind fun pool a hleads ha => ?_
    refine (performs_number hleads.reachable _).bind fun pool b hleads hb => ?_
    refine (performs_pow s _ hleads.reachable _ _ _ _ (hleads.grows _ _ ha) hb).bind
      fun pool root hleads hroot => ?_
    refine (performs_number hleads.reachable _).bind fun pool half hleads hhalf => ?_
    exact (performs_mul s).two hleads.reachable hhalf (hleads.grows _ _ hroot)
  unfold firstQuarterSine? Reduction.firstQuarterSine?
  split_ifs
  · exact holds_some fun pool h => performs_number h 0
  · exact holds_some fun pool h => performs_number h (1 / 2)
  · exact hroot 2
  · exact hroot 3
  · exact holds_some fun pool h => performs_number h 1
  · exact .none

theorem holds_exactSine? (step : Int) :
    linkedValue.option.Holds pool (exactSine? s step) (Reduction.exactSine? s step) := by
  unfold exactSine? Reduction.exactSine?
  extract_lets isNegative upper folded
  have hquarter : linkedValue.option.Holds pool _ _ := holds_firstQuarterSine? (s := s) folded
  revert hquarter
  generalize firstQuarterSine? s folded = sine
  generalize Reduction.firstQuarterSine? s folded = sine'
  rintro (hsine | _)
  · refine .some fun pool' hleads => (hsine pool' hleads).bind fun pool value hleads hvalue => ?_
    exact performs_ite (fun _ => performs_opposite hleads.reachable hvalue)
      fun _ => performs_pure hleads.reachable hvalue
  · exact .none

theorem holds_exactTangent? (step : Int) :
    linkedValue.option.Holds pool (exactTangent? s step) (Reduction.exactTangent? s step) := by
  have hsine : linkedValue.option.Holds pool _ _ := holds_exactSine? (s := s) step
  have hcosine : linkedValue.option.Holds pool _ _ := holds_exactSine? (s := s) ((step + 6) % 24)
  unfold exactTangent? Reduction.exactTangent? exactCosine? Reduction.exactCosine?
  revert hsine hcosine
  generalize exactSine? s step = sine
  generalize Reduction.exactSine? s step = sine'
  generalize exactSine? s ((step + 6) % 24) = cosine
  generalize Reduction.exactSine? s ((step + 6) % 24) = cosine'
  rintro (hsine | _) (hcosine | _)
  · refine .some fun pool₁ hleads₁ => (hsine pool₁ hleads₁).bind fun pool₂ a hleads₂ ha => ?_
    refine (hcosine pool₂ (hleads₁.trans hleads₂)).bind fun pool₃ b hleads₃ hb => ?_
    have h := hleads₃.reachable
    refine (performs_node h hb).read fun n hn => ?_
    rw [hn.isZero_eq]
    exact performs_ite (fun _ => performs_undefined h) fun _ =>
      performs_quotient h (hleads₃.grows _ _ ha) hb
  all_goals exact .none

theorem performs_angle (s : Settings) (halfTurns : Rat) (h : pool.Reachable) :
    Performs pool (angle s halfTurns) (Reduction.angle s halfTurns) .handle := by
  unfold angle Reduction.angle
  cases s.angleUnit with
  | radian =>
    refine (performs_number h halfTurns).bind fun pool a hleads ha => ?_
    have hpi : Performs pool (construct (.constant .pi)) (Build.make (.constant .pi)) .handle :=
      performs_construct hleads.reachable rfl
    refine hpi.bind fun pool pi hleads hpi => ?_
    exact (performs_mul s).two hleads.reachable (hleads.grows _ _ ha) hpi
  | degree => exact performs_number h _
  | gradian => exact performs_number h _

theorem holds_map_some {α : Type} {f : α → PoolProgram Handle} {g : α → Build Term}
    (h : ∀ a, ∀ pool : Pool, pool.Reachable → Performs pool (f a) (g a) .handle) (a? : Option α) :
    linkedValue.option.Holds pool (a?.map f) (a?.map g) := by
  cases a? with
  | none => exact .none
  | some a => exact holds_some (h a)

theorem holds_exactInverse? (f : Function) {n : Node} {t : Term} (hn : pool.StandsFor n t) :
    linkedValue.option.Holds pool (exactInverse? s f n) (Reduction.exactInverse? s f t) := by
  cases hn with
  | number x =>
    unfold exactInverse? Reduction.exactInverse?
    dsimp only
    split_ifs
    · exact holds_some fun pool h => performs_nonreal h
    · exact .none
    · exact holds_map_some (fun turns pool h => performs_angle s turns h) _
  | _ => exact .none

/-! ### Logarithms, absolute values and roots -/

theorem holds_exactLogarithm? (isDecimal : Bool) {n : Node} {t : Term} (hn : pool.StandsFor n t) :
    linkedValue.option.Holds pool (exactLogarithm? s isDecimal n)
      (Reduction.exactLogarithm? s isDecimal t) := by
  cases hn with
  | constant c =>
    cases c with
    | e =>
      unfold exactLogarithm? Reduction.exactLogarithm?
      dsimp only
      split_ifs
      · exact .none
      · exact holds_some fun pool h => performs_number h 1
    | pi | i => exact .none
  | number x =>
    unfold exactLogarithm? Reduction.exactLogarithm?
    dsimp only
    split_ifs
    · exact holds_some fun pool h => performs_undefined h
    · exact holds_some fun pool h => performs_nonreal h
    · exact .none
    · exact holds_some fun pool h => performs_number h 0
    · exact holds_map_some (fun k pool h => performs_number h _) _
    · exact .none
  | _ => exact .none

theorem holds_exactAbsoluteValue? {handle : Handle} {n : Node} {t : Term}
    (ht : pool.Denotes handle t) (hn : pool.StandsFor n t) :
    linkedValue.option.Holds pool (exactAbsoluteValue? n handle)
      (Reduction.exactAbsoluteValue? t) := by
  cases hn with
  | number x => exact holds_some fun pool h => performs_number h _
  | constant c =>
    have hself : linkedValue.option.Holds pool (some (pure handle)) (some (pure (.constant c))) :=
      .some fun pool' hleads => performs_pure hleads.reachable (hleads.grows _ _ ht)
    cases c with
    | i => exact holds_some fun pool h => performs_number h 1
    | pi | e => exact hself
  | _ => exact .none

theorem holds_exactCubeRoot? {n : Node} {t : Term} (hn : pool.StandsFor n t) :
    linkedValue.option.Holds pool (exactCubeRoot? s n) (Reduction.exactCubeRoot? s t) := by
  cases hn with
  | number x =>
    refine holds_some fun pool h => ?_
    refine (performs_number h _).bind fun pool magnitude hleads hmagnitude => ?_
    refine (performs_number hleads.reachable _).bind fun pool third hleads hthird => ?_
    refine (performs_pow s _ hleads.reachable _ _ _ _ (hleads.grows _ _ hmagnitude) hthird).bind
      fun pool root hleads hroot => ?_
    exact performs_ite (fun _ => performs_opposite hleads.reachable hroot)
      fun _ => performs_pure hleads.reachable hroot
  | _ => exact .none

/-! ### Functions -/

/-- A step of the circle is followed alike, if it is found. -/
theorem performs_atStep (h : pool.Reachable) {n : Node} {t : Term} (hn : pool.StandsFor n t)
    {f : Int → Option (PoolProgram Handle)} {g : Int → Option (Build Term)}
    (hfg : ∀ step, linkedValue.option.Holds pool (f step) (g step)) :
    Performs pool (do return (← circleStep? s.angleUnit n).bind f)
      (pure ((Reduction.circleStep? s.angleUnit t).bind g)) linkedValue.option := by
  refine (performs_circleStep? _ h hn).read fun step hstep => performs_pure h ?_
  cases hstep
  cases Reduction.circleStep? s.angleUnit t with
  | none => exact .none
  | some step => exact hfg step

theorem performs_exactValue? (f : Function) (h : pool.Reachable) {handle : Handle} {n : Node}
    {t : Term} (ht : pool.Denotes handle t) (hn : pool.StandsFor n t) :
    Performs pool (exactValue? s f n handle) (pure (Reduction.exactValue? s f t))
      linkedValue.option := by
  cases f with
  | sin => exact performs_atStep h hn holds_exactSine?
  | cos => exact performs_atStep h hn fun step => holds_exactSine? _
  | tan => exact performs_atStep h hn holds_exactTangent?
  | asin => exact performs_pure h (holds_exactInverse? .asin hn)
  | acos => exact performs_pure h (holds_exactInverse? .acos hn)
  | atan => exact performs_pure h (holds_exactInverse? .atan hn)
  | ln => exact performs_pure h (holds_exactLogarithm? false hn)
  | log => exact performs_pure h (holds_exactLogarithm? true hn)
  | abs => exact performs_pure h (holds_exactAbsoluteValue? ht hn)
  | cbrt => exact performs_pure h (holds_exactCubeRoot? hn)

theorem performs_decimalValue (f : Function) (h : pool.Reachable) {handle : Handle} {bits : UInt64}
    (ht : pool.Denotes handle (.decimal bits)) :
    Performs pool (decimalValue s f bits handle) (Reduction.decimalValue s f bits) .handle :=
  performs_ite (fun _ => performs_undefined h) fun _ =>
    performs_ite (fun _ => performs_decimal h _) fun _ =>
      performs_ite (fun _ => performs_nonreal h) fun _ => performs_apply h f ht

/-- The exact value of a function at an argument, if it has one, or else its application. -/
theorem performs_exactValue (s : Settings) (f : Function) (h : pool.Reachable) {handle : Handle}
    {t : Term} {n : Node} (ht : pool.Denotes handle t) (hn : pool.StandsFor n t) :
    Performs pool
      (do match ← exactValue? s f n handle with
        | some value => value
        | none => construct (.apply f handle))
      ((Reduction.exactValue? s f t).getD (Build.make (.apply f t))) .handle := by
  refine (performs_exactValue? f h ht hn).read fun value hvalue => ?_
  revert hvalue
  generalize Reduction.exactValue? s f t = value'
  rintro (hvalue | _)
  · exact hvalue pool h.leadsTo
  · exact performs_apply h f ht

/-- Applying a function to a handle performs its application to the term of the handle. -/
theorem performs_applyFunction (s : Settings) (f : Function) (h : pool.Reachable) {handle : Handle}
    {t : Term} (ht : pool.Denotes handle t) :
    Performs pool (apply s f handle) (Reduction.apply s f t) .handle := by
  refine performs_unlessPoison h (.cons ht .nil) ?_
  refine (performs_node h ht).read fun n hn => ?_
  have hexact := performs_exactValue s f h ht hn
  cases hn with
  | matrix rows columns hts => exact performs_apply h f ht
  | decimal bits => exact performs_decimalValue f h ht
  | _ => exact hexact

end Interned

end EquationSolver
