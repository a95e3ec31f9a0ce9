import EquationSolver.Proofs.Pool.Parsing
import EquationSolver.Proofs.Pool.Reduction
import EquationSolver.StandardForm

/-!
# What constructions start from

A construction starts from given terms when it is grounded wherever they are known, and the
terms that its value holds are known then.  In a sequence of steps each may use what the given
terms and the values of the steps before it hold, so that a computation made of many steps is
followed step by step, without a word on what is known in between.
-/

namespace EquationSolver

/-- The terms that a value holds. -/
class HoldsTerms (α : Type) where
  terms : α → List Term

export HoldsTerms (terms)

section Instances

variable {α β : Type} [HoldsTerms α] [HoldsTerms β]

instance : HoldsTerms Term := ⟨fun t => [t]⟩

instance : HoldsTerms String := ⟨fun _ => []⟩

instance : HoldsTerms Nat := ⟨fun _ => []⟩

instance : HoldsTerms Bool := ⟨fun _ => []⟩

instance : HoldsTerms (List α) := ⟨fun items => items.flatMap terms⟩

instance : HoldsTerms (Option α) := ⟨fun a? => a?.toList.flatMap terms⟩

instance : HoldsTerms (α × β) := ⟨fun p => terms p.1 ++ terms p.2⟩

instance {ε : Type} : HoldsTerms (Except ε α) := ⟨fun result => terms result.toOption⟩

@[simp] theorem terms_term (t : Term) : terms t = [t] := rfl

@[simp] theorem terms_string (name : String) : terms name = [] := rfl

@[simp] theorem terms_nat (n : Nat) : terms n = [] := rfl

@[simp] theorem terms_bool (b : Bool) : terms b = [] := rfl

@[simp] theorem mem_terms_list {items : List α} {t : Term} :
    t ∈ terms items ↔ ∃ a ∈ items, t ∈ terms a :=
  List.mem_flatMap

@[simp] theorem terms_terms (ts : List Term) : terms ts = ts :=
  List.flatMap_singleton' ts

@[simp] theorem terms_nil : terms ([] : List α) = [] := rfl

@[simp] theorem terms_cons (a : α) (items : List α) : terms (a :: items) = terms a ++ terms items :=
  rfl

@[simp] theorem terms_append (items items' : List α) :
    terms (items ++ items') = terms items ++ terms items' :=
  List.flatMap_append

@[simp] theorem terms_none : terms (none : Option α) = [] := rfl

@[simp] theorem terms_some (a : α) : terms (some a) = terms a :=
  List.append_nil _

@[simp] theorem terms_pair (p : α × β) : terms p = terms p.1 ++ terms p.2 := rfl

@[simp] theorem terms_ok {ε : Type} (a : α) : terms (Except.ok a : Except ε α) = terms a :=
  terms_some a

@[simp] theorem terms_error {ε : Type} (e : ε) : terms (Except.error e : Except ε α) = [] := rfl

end Instances

namespace Build

variable {α β : Type} [HoldsTerms α] [HoldsTerms β] {parts parts' : List Term}

/-- The construction is grounded wherever the given terms are known, and then so is what its
    value holds. -/
def StartsFrom (parts : List Term) (b : Build α) : Prop :=
  ∀ k : Known, (∀ t ∈ parts, t ∈ k) → b.IsGrounded k fun k' a => ∀ t ∈ terms a, t ∈ k'

theorem startsFrom_pure {a : α} (h : terms a ⊆ parts) : (pure a : Build α).StartsFrom parts :=
  fun _ hparts => isGrounded_pure fun t ht => hparts t (h ht)

/-- The next step may use what the value before it holds. -/
theorem StartsFrom.bind_value {x : Build α} {f : α → Build β} (hx : x.StartsFrom parts)
    (hf : (f x.value).StartsFrom (terms x.value ++ parts)) : (x >>= f).StartsFrom parts :=
  fun k hparts => (hx k hparts).bind fun k' hle hvalue => hf k' fun t ht =>
    (List.mem_append.1 ht).elim (hvalue t) fun ht => hle t (hparts t ht)

theorem StartsFrom.bind {x : Build α} {f : α → Build β} (hx : x.StartsFrom parts)
    (hf : ∀ a, (f a).StartsFrom (terms a ++ parts)) : (x >>= f).StartsFrom parts :=
  hx.bind_value (hf x.value)

theorem startsFrom_each {γ : Type} {f : γ → Build β} {items : List γ}
    (h : ∀ a ∈ items, (f a).StartsFrom parts) : (each f items).StartsFrom parts := by
  intro k hparts
  have hmono : ∀ k k' : Known, k ≤ k' → ∀ b : β, (∀ t ∈ terms b, t ∈ k) → ∀ t ∈ terms b, t ∈ k' :=
    fun k k' hle b hb t ht => hle t (hb t ht)
  refine (isGrounded_each hmono fun k' hle a ha =>
    h a ha k' fun t ht => hle t (hparts t ht)).mono fun k' _ hvalues t ht => ?_
  obtain ⟨b, hb, ht⟩ := mem_terms_list.1 ht
  exact hvalues b hb t ht

/-! ### Terms -/

theorem StartsFrom.of_grounds {b : Build Term}
    (h : ∀ k : Known, (∀ t ∈ parts, t ∈ k) → b.Grounds k) : b.StartsFrom parts :=
  fun k hparts => (h k hparts).mono fun _ _ hvalue _ ht => List.mem_singleton.1 ht ▸ hvalue

theorem startsFrom_make {t : Term} (h : t.children ⊆ parts) : (make t).StartsFrom parts :=
  .of_grounds fun _ hparts => grounds_make fun u hu => hparts u (h hu)

theorem startsFrom_number (a : Rat) : (number a).StartsFrom parts :=
  .of_grounds fun _ _ => grounds_number a

theorem startsFrom_double (x : Float) : (make (Term.ofDouble x)).StartsFrom parts :=
  .of_grounds fun _ _ => Reduction.grounds_ofDouble x

theorem startsFrom_sum {ts : List Term} (h : ts ⊆ parts) : (sum ts).StartsFrom parts :=
  .of_grounds fun _ hparts => grounds_sum fun t ht => hparts t (h ht)

theorem startsFrom_product {ts : List Term} (h : ts ⊆ parts) : (product ts).StartsFrom parts :=
  .of_grounds fun _ hparts => grounds_product fun t ht => hparts t (h ht)

theorem startsFrom_difference {a b : Term} (ha : a ∈ parts) (hb : b ∈ parts) :
    (difference a b).StartsFrom parts := by
  unfold difference
  refine (startsFrom_make (by simpa [Term.children] using hb)).bind fun opposite => ?_
  exact startsFrom_sum (by simp [ha])

end Build

open Build

/-! ### Reduction -/

namespace Reduction

variable {parts : List Term} {s : Settings} {definitions : Definitions}

theorem startsFrom_add {ts : List Term} (h : ts ⊆ parts) : (add ts).StartsFrom parts :=
  .of_grounds fun _ hparts => grounds_add fun t ht => hparts t (h ht)

theorem startsFrom_mul {ts : List Term} (h : ts ⊆ parts) : (mul s ts).StartsFrom parts :=
  .of_grounds fun k hparts => groundsProducts_mul s k ts fun t ht => hparts t (h ht)

theorem startsFrom_pow {a b : Term} (ha : a ∈ parts) (hb : b ∈ parts) :
    (pow s a b).StartsFrom parts :=
  .of_grounds fun k hparts => groundsPowers_pow s k a b (hparts a ha) (hparts b hb)

theorem startsFrom_apply (f : Function) {a : Term} (ha : a ∈ parts) :
    (apply s f a).StartsFrom parts :=
  .of_grounds fun _ hparts => grounds_apply s f (hparts a ha)

theorem startsFrom_reduce {t : Term} (hdefinitions : terms definitions ⊆ parts) (ht : t ∈ parts) :
    (reduce s definitions t).StartsFrom parts :=
  .of_grounds fun _ hparts => grounds_reduce s
    (fun d hd => hparts d.2 (hdefinitions (mem_terms_list.2 ⟨d, hd, by simp⟩))) (hparts t ht)

theorem startsFrom_reduceAll {ts : List Term} (hdefinitions : terms definitions ⊆ parts)
    (hts : ts ⊆ parts) : (reduceAll s definitions ts).StartsFrom parts := by
  intro k hparts
  have hdefined : ∀ d ∈ definitions, d.2 ∈ k := fun d hd =>
    hparts d.2 (hdefinitions (mem_terms_list.2 ⟨d, hd, by simp⟩))
  have hstep : GroundsTerms k (reduceTerms s (reduceSymbol s definitions definitions.length [])
      ts) := groundsTerms_reduceTerms (fun k' name hle hname =>
    groundsTerm_reduceSymbol hdefined _ _ k' name hle hname) ts k (Known.le_refl k)
      fun t ht => hparts t (hts ht)
  exact (hstep k {} (Known.le_refl k) (remembers_empty k)).bind
    fun k' _ hfound => isGrounded_pure fun t ht => hfound.1 t (by simpa using ht)

end Reduction

theorem startsFrom_standardForm {parts : List Term} {s : Reduction.Settings}
    {definitions : Definitions} {left right : Term} (hdefinitions : terms definitions ⊆ parts)
    (hleft : left ∈ parts) (hright : right ∈ parts) :
    (standardForm s definitions left right).StartsFrom parts := by
  unfold standardForm
  refine (startsFrom_difference hleft hright).bind fun difference => ?_
  exact Reduction.startsFrom_reduce (List.subset_append_of_subset_right _ hdefinitions) (by simp)

/-! ### Texts -/

/-- The term that a text is read as is built of nothing else. -/
theorem startsFrom_parseExpression {parts : List Term} (text : String) :
    (parseExpression text).StartsFrom parts := by
  intro k _
  have hrule (budget : Nat) : Parser.GroundsTerm k (Parser.wholeExpression budget) := by
    refine ((Parser.groundsRules budget).expression k).bind fun k₁ t _ ht => ?_
    refine Parser.grounds_finish.bind fun k₂ _ hle₂ _ => Parser.grounds_pure fun k₃ hle₃ => ?_
    exact hle₃ _ (hle₂ _ ht)
  refine (Parser.grounds_run hrule text.toList).mono fun k' _ hvalue t ht => ?_
  revert hvalue ht
  cases (Parser.run Parser.wholeExpression text.toList).value with
  | error e => exact fun _ ht => absurd ht List.not_mem_nil
  | ok read => exact fun hvalue ht => List.mem_singleton.1 ht ▸ hvalue read rfl

theorem startsFrom_parseEquation {parts : List Term} (text : String) :
    (parseEquation text).StartsFrom parts := by
  intro k _
  refine (grounds_parseEquation text).mono fun k' _ hsides t ht => ?_
  revert hsides ht
  cases (parseEquation text).value with
  | error e => exact fun _ ht => absurd ht List.not_mem_nil
  | ok sides =>
    intro hsides ht
    obtain ⟨hleft, hright⟩ := hsides sides rfl
    rcases (show t = sides.1 ∨ t = sides.2 by simpa using ht) with rfl | rfl
    · exact hleft
    · exact hright

/-! ### Approximate values -/

namespace Approximation

variable {parts : List Term}

theorem startsFrom_imaginaryTerm (h : .constant .i ∈ parts) (im : Float) :
    (imaginaryTerm im).StartsFrom parts := by
  unfold imaginaryTerm
  split
  · exact startsFrom_pure (by simpa using h)
  · dsimp only
    split
    · exact (startsFrom_number _).bind fun coefficient => startsFrom_product (by simp [h])
    · exact (startsFrom_double im).bind fun coefficient => startsFrom_product (by simp [h])

theorem startsFrom_polarTerm (h : .constant .i ∈ parts) (z : ComplexFloat) :
    (polarTerm z).StartsFrom parts := by
  unfold polarTerm
  refine (startsFrom_double z.argument).bind fun argument => ?_
  refine (startsFrom_product (by simp [h])).bind fun exponent => ?_
  refine (startsFrom_make (by simp [Term.children])).bind fun e => ?_
  refine (startsFrom_make (by simp [Term.children])).bind fun rotation => ?_
  split
  · exact startsFrom_pure (by simp)
  · exact (startsFrom_double z.modulus).bind fun modulus => startsFrom_product (by simp)

theorem startsFrom_cartesianTerm (h : .constant .i ∈ parts) (z : ComplexFloat) :
    (cartesianTerm z).StartsFrom parts := by
  unfold cartesianTerm
  refine (startsFrom_imaginaryTerm h z.im).bind fun imaginary => ?_
  split
  · exact startsFrom_pure (by simp)
  · exact (startsFrom_double z.re).bind fun real => startsFrom_sum (by simp)

/-- The term of an approximate value is built of nothing else. -/
theorem startsFrom_toTerm (a : Approximation) (format : ComplexFormat) :
    (a.toTerm format).StartsFrom parts := by
  unfold toTerm
  split
  · exact startsFrom_make (by simp [Term.children])
  · exact startsFrom_make (by simp [Term.children])
  case h_3 z =>
    split
    · exact startsFrom_double z.re
    · refine (startsFrom_make (t := .constant .i) (by simp [Term.children])).bind_value ?_
      split
      · exact startsFrom_polarTerm (by simp) z
      · exact startsFrom_cartesianTerm (by simp) z

end Approximation

end EquationSolver
