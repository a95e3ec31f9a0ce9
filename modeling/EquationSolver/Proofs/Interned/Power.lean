import EquationSolver.Proofs.Interned.Product

/-!
# Powers of handles

Raising a handle to the power of another performs the power of the terms that they denote.  Products
and powers call each other, so that they are followed together, down to any depth.
-/

namespace EquationSolver

namespace Interned

open PoolProgram
open Reduction (Settings)

variable {pool : Pool} {s : Settings} {hs : List Handle} {ts : List Term}

/-! ### Powers of numbers -/

section Numbers

variable {unreduced : PoolProgram Handle} {unreduced' : Build Term}

theorem performs_radical (h : pool.Reachable) (base : Rat) (p : Int) (q : Nat)
    (hunreduced : Performs pool unreduced unreduced' .handle) :
    Performs pool (radical s base p q unreduced) (Reduction.radical s base p q unreduced')
      .handle := by
  refine performs_ite (fun _ => hunreduced) fun _ => ?_
  cases Rational.integerPower? base (p / (q : Int)) with
  | none => exact performs_undefined h
  | some wholePower =>
    refine performs_ite (fun _ => performs_number h _) fun _ => ?_
    refine (performs_number h _).bind fun pool radicand hleads hradicand => ?_
    refine (performs_number hleads.reachable _).bind fun pool exponent hleads' hexponent => ?_
    have hpower := performs_power hleads'.reachable (hleads'.grows _ _ hradicand) hexponent
    refine hpower.bind fun pool root hleads'' hroot => ?_
    refine performs_ite (fun _ => performs_pure hleads''.reachable hroot) fun _ => ?_
    refine (performs_number hleads''.reachable _).bind fun pool first hleads₃ hfirst => ?_
    exact performs_product hleads₃.reachable
      (.cons hfirst (.cons (hleads₃.grows _ _ hroot) .nil))

theorem performs_decimalPower (h : pool.Reachable) (base exponent : Float)
    (hunreduced : Performs pool unreduced unreduced' .handle) :
    Performs pool (decimalPower s base exponent unreduced)
      (Reduction.decimalPower s base exponent unreduced') .handle := by
  refine performs_ite (fun _ => ?_) fun _ => performs_ite (fun _ => ?_) fun _ => ?_
  · exact performs_ite (fun _ => performs_decimal h 0) fun _ => performs_undefined h
  · exact performs_ite (fun _ => performs_nonreal h) fun _ => hunreduced
  · exact performs_decimal h _

variable {pow : Handle → Handle → PoolProgram Handle} {pow' : Term → Term → Build Term}
  {mul : List Handle → PoolProgram Handle} {mul' : List Term → Build Term}

theorem performs_negativePower (hpow : PerformsPow pow pow') (hmul : PerformsMul mul mul')
    (base : Rat) (p : Int) (q : Nat) {a b : Handle} {x e : Term} (h : pool.Reachable)
    (hx : pool.Denotes a x) (he : pool.Denotes b e) :
    Performs pool (negativePower s pow mul base p q (construct (.power a b)))
      (Reduction.negativePower s pow' mul' base p q (Build.make (.power x e))) .handle := by
  have hunreduced := performs_power h hx he
  refine performs_ite (fun _ => ?_) fun _ => performs_ite (fun _ => performs_nonreal h) fun _ =>
    performs_ite (fun _ => ?_) fun _ => hunreduced
  · refine performs_ite (fun _ => ?_) fun _ => hunreduced
    refine (performs_radical h _ p q hunreduced).bind fun pool root hleads hroot => ?_
    refine performs_ite (fun _ => performs_pure hleads.reachable hroot) fun _ => ?_
    refine (performs_number hleads.reachable _).bind fun pool minusOne hleads' hminusOne => ?_
    exact hmul.two hleads'.reachable hminusOne (hleads'.grows _ _ hroot)
  · have hi : Performs pool (construct (.constant .i)) (Build.make (.constant .i)) .handle :=
      performs_construct h rfl
    refine hi.bind fun pool i hleads hi => ?_
    refine (performs_number hleads.reachable _).bind fun pool exponent hleads' hexponent => ?_
    have hturn := hpow _ hleads'.reachable _ _ _ _ (hleads'.grows _ _ hi) hexponent
    refine hturn.bind fun pool turned hleads'' hturned => ?_
    have hall := (hleads.trans hleads').trans hleads''
    have hradical := performs_radical (s := s) hleads''.reachable base.abs p q
      (performs_power hleads''.reachable (hall.grows _ _ hx) (hall.grows _ _ he))
    refine hradical.bind fun pool root hleads₃ hroot => ?_
    exact hmul.two hleads₃.reachable (hleads₃.grows _ _ hturned) hroot

theorem performs_rationalPower (hpow : PerformsPow pow pow') (hmul : PerformsMul mul mul')
    (base exponent : Rat) {a b : Handle} {x e : Term} (h : pool.Reachable)
    (hx : pool.Denotes a x) (he : pool.Denotes b e) :
    Performs pool (rationalPower s pow mul base exponent (construct (.power a b)))
      (Reduction.rationalPower s pow' mul' base exponent (Build.make (.power x e))) .handle := by
  have hunreduced := performs_power h hx he
  unfold rationalPower Reduction.rationalPower
  refine performs_ite (fun _ => performs_ite (fun _ => performs_number h 0) fun _ =>
    performs_undefined h) fun _ => ?_
  cases Rational.toInt64Range? exponent with
  | some n =>
    refine performs_ite (fun _ => hunreduced) fun _ => ?_
    cases Rational.integerPower? base n with
    | some value => exact performs_number h value
    | none => exact hunreduced
  | none =>
    cases Integer.toInt64Range? exponent.num with
    | none => exact hunreduced
    | some p =>
      refine performs_ite (fun _ => hunreduced) fun _ => performs_ite (fun _ => ?_) fun _ => ?_
      · exact performs_negativePower hpow hmul base p exponent.den h hx he
      · exact performs_radical h base p exponent.den hunreduced

end Numbers

/-! ### Powers of other terms -/

section Terms

variable {pow : Handle → Handle → PoolProgram Handle} {pow' : Term → Term → Build Term}
  {mul : List Handle → PoolProgram Handle} {mul' : List Term → Build Term}

theorem performs_imaginaryPower (hmul : PerformsMul mul mul') (h : pool.Reachable) {i : Handle}
    (hi : pool.Denotes i (.constant .i)) (n : Int) :
    Performs pool (imaginaryPower mul i n) (Reduction.imaginaryPower mul' n) .handle := by
  refine performs_ite (fun _ => performs_number h 1) fun _ =>
    performs_ite (fun _ => performs_pure h hi) fun _ =>
      performs_ite (fun _ => performs_number h _) fun _ => ?_
  refine (performs_number h _).bind fun pool minusOne hleads hminusOne => ?_
  exact hmul.two hleads.reachable hminusOne (hleads.grows _ _ hi)

theorem performs_multiplyRepeatedly (hmul : PerformsMul mul mul') (h : pool.Reachable)
    {base found : Handle} {base' found' : Term} (hbase : pool.Denotes base base')
    (hfound : pool.Denotes found found') (count : Nat) :
    Performs pool (multiplyRepeatedly mul base count found)
      (Reduction.multiplyRepeatedly mul' base' count found') .handle := by
  induction count generalizing pool found found' with
  | zero => exact performs_pure h hfound
  | succ count ih =>
    refine (performs_summands h hfound).read fun left hleft => ?_
    refine (performs_summands h hbase).read fun right hright => ?_
    refine (performs_pairwise hmul h hleft hright).bind fun pool terms hleads hterms => ?_
    refine (performs_add hleads.reachable hterms).bind fun pool longer hleads' hlonger => ?_
    exact ih hleads'.reachable ((hleads.trans hleads').grows _ _ hbase) hlonger

/-- A power with an exact exponent is taken by the kind of the base, which its node shows. -/
theorem performs_exactPower (hpow : PerformsPow pow pow') (hmul : PerformsMul mul mul')
    (h : pool.Reachable) {base exponent : Handle} {n : Node} {t : Term} {e : Rat}
    (ht : pool.Denotes base t) (hn : pool.StandsFor n t)
    (he : pool.Denotes exponent (.number e)) :
    Performs pool (exactPower s pow mul base n exponent e) (Reduction.exactPower s pow' mul' t e)
      .handle := by
  have hunreduced := performs_power h ht he
  unfold exactPower Reduction.exactPower
  generalize Rational.toInt? e = whole
  cases hn with
  | constant c =>
    cases c with
    | i =>
      cases whole with
      | some k => exact performs_imaginaryPower hmul h ht k
      | none => exact hunreduced
    | pi | e => exact hunreduced
  | power hinner hexponent =>
    cases whole with
    | some k =>
      refine (hmul.two h hexponent he).bind fun pool product hleads hproduct => ?_
      exact hpow _ hleads.reachable _ _ _ _ (hleads.grows _ _ hinner) hproduct
    | none => exact hunreduced
  | @product hs ts hts =>
    cases whole with
    | some k =>
      have hpowers := performs_mapM (R := .handle) (S := .handle) (f := fun f => pow f exponent)
        (g := fun f => pow' f (.number e)) h (fun pool' hleads _ _ _ hf =>
          hpow pool' hleads.reachable _ _ _ _ hf (hleads.grows _ _ he)) hts
      exact hpowers.bind fun pool powers hleads hpowers => hmul _ hleads.reachable _ _ hpowers
    | none =>
      cases hts with
      | nil => exact hunreduced
      | @cons first x rest rest' hfirst hrest =>
        refine (performs_node h hfirst).read fun m hm => ?_
        cases hm with
        | number c =>
          refine performs_ite (fun _ => ?_) fun _ => hunreduced
          refine (performs_product h hrest).bind fun pool rest hleads hrest => ?_
          have houter := hpow _ hleads.reachable _ _ _ _ (hleads.grows _ _ hfirst)
            (hleads.grows _ _ he)
          refine houter.bind fun pool outer hleads' houter => ?_
          have hinner := hpow _ hleads'.reachable _ _ _ _ (hleads'.grows _ _ hrest)
            ((hleads.trans hleads').grows _ _ he)
          refine hinner.bind fun pool inner hleads'' hinner => ?_
          exact hmul.two hleads''.reachable (hleads''.grows _ _ houter) hinner
        | _ => exact hunreduced
  | @sum hs ts hts =>
    cases whole with
    | some k =>
      have hexpandable : Reduction.isExpandable s hs k = Reduction.isExpandable s ts k := by
        unfold Reduction.isExpandable
        rw [List.Forall₂.length_eq hts]
      refine performs_ite_of_iff (Bool.eq_iff_iff.1 hexpandable) (fun _ => ?_) fun _ => hunreduced
      exact performs_multiplyRepeatedly hmul h ht ht _
    | none => exact hunreduced
  | _ => exact hunreduced

/-- A power performs the power of the terms, if smaller powers and products do. -/
theorem performs_powWith (s : Settings) (hpow : PerformsPow pow pow') (hmul : PerformsMul mul mul') :
    PerformsPow (powWith s pow mul) (Reduction.powWith s pow' mul') := by
  intro pool h a x b e hx he
  have hpair : Linked.handle.list.Holds pool [a, b] [x, e] := .cons hx (.cons he .nil)
  have hunreduced := performs_power h hx he
  refine performs_unlessPoison h hpair (performs_ifMatrix h hpair hunreduced ?_)
  refine (performs_node h hx).read fun m hm => (performs_node h he).read fun n hn => ?_
  rw [hn.isZero_eq, hm.isZero_eq, hn.isOne_eq, hm.isOne_eq]
  refine performs_ite (fun _ => performs_ite (fun _ => performs_undefined h) fun _ =>
    performs_number h 1) fun _ => performs_ite (fun _ => performs_pure h hx) fun _ => ?_
  have hdecimal : Performs pool
      (if m.isNumeric && n.isNumeric then
        decimalPower s m.numericDouble n.numericDouble (construct (.power a b))
      else construct (.power a b))
      (if x.isNumeric && e.isNumeric then
        Reduction.decimalPower s (Reduction.numericDouble x) (Reduction.numericDouble e)
          (Build.make (.power x e))
      else Build.make (.power x e)) .handle := by
    rw [hm.isNumeric_eq, hn.isNumeric_eq, hm.numericDouble_eq, hn.numericDouble_eq]
    exact performs_ite (fun _ => performs_decimalPower h _ _ hunreduced) fun _ => hunreduced
  cases hn with
  | number c =>
    have hexact : Performs pool
        (if m.isNumeric then
          decimalPower s m.numericDouble (Binary64.nearest c) (construct (.power a b))
        else exactPower s pow mul a m b c)
        (if x.isNumeric then
          Reduction.decimalPower s (Reduction.numericDouble x) (Binary64.nearest c)
            (Build.make (.power x (.number c)))
        else Reduction.exactPower s pow' mul' x c) .handle := by
      rw [hm.isNumeric_eq, hm.numericDouble_eq]
      exact performs_ite (fun _ => performs_decimalPower h _ _ hunreduced)
        fun _ => performs_exactPower hpow hmul h hx hm he
    cases hm with
    | number d => exact performs_rationalPower hpow hmul d c h hx he
    | _ => exact hexact
  | _ => cases hm <;> exact hdecimal

theorem performs_plainPow : PerformsPow plainPow Reduction.plainPow := by
  intro pool h a x b e hx he
  have hpair : Linked.handle.list.Holds pool [a, b] [x, e] := .cons hx (.cons he .nil)
  have hunreduced := performs_power h hx he
  refine performs_unlessPoison h hpair (performs_ifMatrix h hpair hunreduced ?_)
  refine (performs_node h hx).read fun m hm => (performs_node h he).read fun n hn => ?_
  rw [hn.isZero_eq, hm.isZero_eq, hn.isOne_eq, hm.isOne_eq]
  exact performs_ite (fun _ => performs_ite (fun _ => performs_undefined h) fun _ =>
    performs_number h 1) fun _ => performs_ite (fun _ => performs_pure h hx) fun _ => hunreduced

end Terms

/-! ### Products and powers together -/

theorem performs_within (s : Settings) (depth : Nat) :
    PerformsMul (mulWithin s depth) (Reduction.mulWithin s depth) ∧
      PerformsPow (powWithin s depth) (Reduction.powWithin s depth) := by
  induction depth with
  | zero => exact ⟨performs_plainMul, performs_plainPow⟩
  | succ depth ih => exact ⟨performs_mulWith s ih.2 ih.1, performs_powWith s ih.2 ih.1⟩

/-- Multiplying handles performs the product of their terms. -/
theorem performs_mul (s : Settings) : PerformsMul (mul s) (Reduction.mul s) :=
  (performs_within s Reduction.maxDepth).1

/-- A power of handles performs the power of their terms. -/
theorem performs_pow (s : Settings) : PerformsPow (pow s) (Reduction.pow s) :=
  (performs_within s Reduction.maxDepth).2

end Interned

end EquationSolver
