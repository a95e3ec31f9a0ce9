import EquationSolver.Context
import EquationSolver.Solver.Attempt
import Mathlib.Data.List.Forall2

/-!
# Checked constructions without faults

Most of what solving asks for has a meaning because of what was found out before.  A checked
construction yields a value with a property when it comes to no fault and its value has the
property; steps in sequence hand on what they yield.
-/

namespace EquationSolver

variable {α β : Type}

namespace CheckedBuild

/-- The construction comes to no fault, and its value has the property. -/
def Yields (b : CheckedBuild α) (post : α → Prop) : Prop :=
  ∃ a, b.run.value = .ok a ∧ post a

variable {b : CheckedBuild α} {f : α → CheckedBuild β} {P : α → Prop} {Q : β → Prop}

theorem yields_pure {a : α} (h : P a) : Yields (pure a) P :=
  ⟨a, rfl, h⟩

theorem Yields.bind (h : Yields b P) (hf : ∀ a, b.run.value = .ok a → P a → Yields (f a) Q) :
    Yields (b >>= f) Q := by
  obtain ⟨a, ha, hpost⟩ := h
  obtain ⟨c, hc, hresult⟩ := hf a ha hpost
  refine ⟨c, ?_, hresult⟩
  show (ExceptT.bindCont f b.run.value).value = _
  rw [ha]
  exact hc

theorem Yields.mono {P' : α → Prop} (h : Yields b P) (hle : ∀ a, P a → P' a) : Yields b P' := by
  obtain ⟨a, ha, hpost⟩ := h
  exact ⟨a, ha, hle a hpost⟩

/-- An unchecked construction comes to no fault. -/
theorem yields_build_bind {x : Build α} (h : Yields (f x.value) Q) :
    Yields ((liftM x : CheckedBuild α) >>= f) Q := by
  refine Yields.bind (P := fun a => a = x.value) ⟨x.value, rfl, rfl⟩ ?_
  rintro a - rfl
  exact h

/-- A computation that builds nothing is there for its value. -/
theorem yields_except {x : Except Fault α} {a : α} (hx : x = .ok a) (h : P a) :
    Yields (liftM x : CheckedBuild α) P := by
  subst hx
  exact ⟨a, rfl, h⟩

theorem yields_except_bind {x : Except Fault α} {a : α} (hx : x = .ok a) (h : Yields (f a) Q) :
    Yields ((liftM x : CheckedBuild α) >>= f) Q := by
  refine Yields.bind (yields_except (P := fun a' => a' = a) hx rfl) ?_
  rintro a' - rfl
  exact h

/-- What comes after a construction without a fault starts from its value. -/
theorem value_bind_of_ok {a : α} (h : b.run.value = .ok a) (f : α → CheckedBuild β) :
    (b >>= f).run.value = (f a).run.value := by
  show (ExceptT.bindCont f b.run.value).value = _
  rw [h]
  rfl

theorem value_build_bind (x : Build α) (f : α → CheckedBuild β) :
    ((liftM x : CheckedBuild α) >>= f).run.value = (f x.value).run.value :=
  rfl

theorem value_except_bind {x : Except Fault α} {a : α} (h : x = .ok a)
    (f : α → CheckedBuild β) :
    ((liftM x : CheckedBuild α) >>= f).run.value = (f a).run.value := by
  subst h
  rfl

/-- The value has the property, unless the construction comes to a fault. -/
def Ensures (b : CheckedBuild α) (post : α → Prop) : Prop :=
  ∀ a, b.run.value = .ok a → post a

theorem ensures_pure {a : α} (h : P a) : Ensures (pure a) P := by
  rintro _ ⟨⟩
  exact h

theorem Ensures.bind (h : Ensures b P) (hf : ∀ a, P a → Ensures (f a) Q) :
    Ensures (b >>= f) Q := by
  intro c hc
  replace hc : (ExceptT.bindCont f b.run.value).value = .ok c := hc
  cases hb : b.run.value with
  | error e => rw [hb] at hc; cases hc
  | ok a =>
    rw [hb] at hc
    exact hf a (h a hb) c hc

theorem Ensures.mono {P' : α → Prop} (h : Ensures b P) (hle : ∀ a, P a → P' a) : Ensures b P' :=
  fun a ha => hle a (h a ha)

theorem ensures_build_bind {x : Build α} (h : Ensures (f x.value) Q) :
    Ensures ((liftM x : CheckedBuild α) >>= f) Q := by
  refine Ensures.bind (P := fun a => a = x.value) ?_ ?_
  · rintro a ha
    exact (Except.ok.inj ha).symm
  · rintro a rfl
    exact h

theorem ensures_except_bind {x : Except Fault α} (h : ∀ a, x = .ok a → Ensures (f a) Q) :
    Ensures ((liftM x : CheckedBuild α) >>= f) Q :=
  Ensures.bind (P := fun a => x = .ok a) (fun _ ha => ha) h

end CheckedBuild

/-! ### Computations that may come to no end -/

namespace Unbounded

variable {f : α → Unbounded β} {a : α} {b : β}

/-- A computation that comes to a value has come to one in each of its steps. -/
theorem exists_of_bind {x : Unbounded α} (h : (x >>= f).run = some (.ok b)) :
    ∃ a, x.run = some (.ok a) ∧ (f a).run = some (.ok b) := by
  obtain ⟨answer, hanswer, h⟩ := Option.bind_eq_some_iff.1 h
  cases answer with
  | error e => cases h
  | ok a => exact ⟨a, hanswer, h⟩

theorem exists_of_except_bind {x : Except Fault α}
    (h : ((liftM x : Unbounded α) >>= f).run = some (.ok b)) :
    ∃ a, x = .ok a ∧ (f a).run = some (.ok b) := by
  obtain ⟨a, ha, h⟩ := exists_of_bind h
  exact ⟨a, Option.some.inj ha, h⟩

theorem exists_of_option_bind {x : Option α}
    (h : ((liftM x : Unbounded α) >>= f).run = some (.ok b)) :
    ∃ a, x = some a ∧ (f a).run = some (.ok b) := by
  obtain ⟨a, ha, h⟩ := exists_of_bind h
  cases x with
  | none => cases ha
  | some a' =>
    cases ha
    exact ⟨a, rfl, h⟩

theorem run_bind_of_ok {x : Unbounded α} (h : x.run = some (.ok a)) (f : α → Unbounded β) :
    (x >>= f).run = (f a).run := by
  show x.run.bind (ExceptT.bindCont f) = _
  rw [h]
  rfl

theorem run_except_bind {x : Except Fault α} (h : x = .ok a) (f : α → Unbounded β) :
    ((liftM x : Unbounded α) >>= f).run = (f a).run :=
  run_bind_of_ok (congrArg some h) f

theorem run_except_bind_of_error {x : Except Fault α} {e : Fault} (h : x = .error e)
    (f : α → Unbounded β) : ((liftM x : Unbounded α) >>= f).run = some (.error e) := by
  subst h
  rfl

theorem run_option_bind (x : Option α) (f : α → Unbounded β) :
    ((liftM x : Unbounded α) >>= f).run = x.bind fun a => (f a).run := by
  cases x <;> rfl

end Unbounded

theorem exists_of_bind_eq_ok {x : Except Fault α} {f : α → Except Fault β} {b : β}
    (h : x >>= f = .ok b) : ∃ a, x = .ok a ∧ f a = .ok b := by
  cases x with
  | error e => cases h
  | ok a => exact ⟨a, rfl, h⟩

theorem exists_of_mem_forall₂ {R : α → β → Prop} {items : List α} {found : List β}
    (h : List.Forall₂ R items found) {b : β} (hb : b ∈ found) : ∃ a ∈ items, R a b := by
  obtain ⟨i, hi, rfl⟩ := List.getElem_of_mem hb
  have hlength := h.length_eq
  exact ⟨items[i], List.getElem_mem _, h.get (by omega) hi⟩

theorem forall₂_of_mapM {f : α → Option β} {items : List α} {found : List β}
    (h : items.mapM f = some found) : List.Forall₂ (fun a b => f a = some b) items found := by
  induction items generalizing found with
  | nil =>
    cases h
    exact .nil
  | cons a rest ih =>
    rw [List.mapM_cons] at h
    obtain ⟨b, hb, h⟩ := Option.bind_eq_some_iff.1 h
    obtain ⟨others, hothers, h⟩ := Option.bind_eq_some_iff.1 h
    cases h
    exact .cons hb (ih hothers)

theorem forall₂_of_mapM_eq_ok {f : α → Except Fault β} {items : List α} {found : List β}
    (h : items.mapM f = .ok found) : List.Forall₂ (fun a b => f a = .ok b) items found := by
  induction items generalizing found with
  | nil =>
    cases h
    exact .nil
  | cons a rest ih =>
    rw [List.mapM_cons] at h
    obtain ⟨b, hb, h⟩ := exists_of_bind_eq_ok h
    obtain ⟨others, hothers, h⟩ := exists_of_bind_eq_ok h
    cases h
    exact .cons hb (ih hothers)

theorem exists_bind {x : Except Fault α} {f : α → Except Fault β} {P : α → Prop}
    {Q : β → Prop} (h : ∃ a, x = .ok a ∧ P a) (hf : ∀ a, P a → ∃ b, f a = .ok b ∧ Q b) :
    ∃ b, x >>= f = .ok b ∧ Q b := by
  obtain ⟨a, rfl, ha⟩ := h
  exact hf a ha

/-- What is kept of a checked construction that yields a value. -/
theorem Context.exists_recordChecked {b : CheckedBuild α} {P : α → Prop} (h : b.Yields P)
    (context : Context) :
    ∃ kept, context.recordChecked b = .ok kept ∧ kept.2 = (context.record b.run).2 := by
  obtain ⟨a, ha, -⟩ := h
  refine ⟨(a, (context.record b.run).2), ?_, rfl⟩
  show Except.map _ b.run.value = _
  rw [ha]
  rfl

theorem Context.of_recordChecked_eq_ok {b : CheckedBuild α} {context context' : Context} {a : α}
    (h : context.recordChecked b = .ok (a, context')) :
    b.run.value = .ok a ∧ context' = (context.record b.run).2 := by
  change Except.map _ b.run.value = _ at h
  cases hb : b.run.value with
  | error e => rw [hb] at h; cases h
  | ok a' =>
    rw [hb] at h
    cases h
    exact ⟨rfl, rfl⟩

end EquationSolver
