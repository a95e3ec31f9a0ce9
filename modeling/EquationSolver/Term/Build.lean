import EquationSolver.Fault
import EquationSolver.Term.Basic

/-!
# Recorded constructions

A computation on terms has a value, and it leaves behind every term that it built on the
way, whether or not that term is part of the value: a pool keeps them all.  `Build` pairs
the two.  The value never depends on what was built before, so each computation can be
read, and reasoned about, as a plain function of its arguments.
-/

namespace EquationSolver

/-- A value and the terms built on the way to it, in order. -/
structure Build (α : Type) where
  value : α
  trace : List Term

namespace Build

instance : Monad Build where
  pure a := ⟨a, []⟩
  bind x f :=
    let y := f x.value
    ⟨y.value, x.trace ++ y.trace⟩

variable {α β : Type}

@[simp] theorem value_pure (a : α) : (pure a : Build α).value = a := rfl

@[simp] theorem trace_pure (a : α) : (pure a : Build α).trace = [] := rfl

@[simp] theorem value_bind (x : Build α) (f : α → Build β) :
    (x >>= f).value = (f x.value).value := rfl

@[simp] theorem trace_bind (x : Build α) (f : α → Build β) :
    (x >>= f).trace = x.trace ++ (f x.value).trace := rfl

/-- Run a computation for each item of a list, from left to right. -/
def each (f : α → Build β) : List α → Build (List β)
  | [] => pure []
  | a :: rest => do
    let b ← f a
    let bs ← each f rest
    pure (b :: bs)

@[simp] theorem value_each (f : α → Build β) (items : List α) :
    (each f items).value = items.map fun a => (f a).value := by
  induction items with
  | nil => rfl
  | cons a rest ih => simp [each, ih]

def make (t : Term) : Build Term := ⟨t, [t]⟩

/-- Build the sum of a list; a single term is the sum already. -/
def sum (terms : List Term) : Build Term :=
  match terms with
  | [t] => pure t
  | terms => make (Term.sumOf terms)

/-- Build the product of a list; a single factor is the product already. -/
def product (factors : List Term) : Build Term :=
  match factors with
  | [t] => pure t
  | factors => make (Term.productOf factors)

def number (a : Rat) : Build Term := make (.number a)

/-- Build the difference of two terms: a sum with a negation. -/
def difference (a b : Term) : Build Term := do
  let opposite ← make (.negation b)
  sum [a, opposite]

def squareRoot (a : Term) : Build Term := do
  let half ← number (1 / 2)
  make (.power a half)

/-- Build a matrix, whose entries have to fill its rows and columns. -/
def matrix (rows columns : Nat) (entries : List Term) : Except Fault (Build Term) :=
  if entries.length = rows * columns then .ok (make (.matrix rows columns entries))
  else .error .sizeMismatch

@[simp] theorem value_make (t : Term) : (make t).value = t := rfl

@[simp] theorem trace_make (t : Term) : (make t).trace = [t] := rfl

@[simp] theorem value_number (a : Rat) : (number a).value = .number a := rfl

@[simp] theorem trace_number (a : Rat) : (number a).trace = [.number a] := rfl

@[simp] theorem value_sum (terms : List Term) : (sum terms).value = Term.sumOf terms := by
  unfold sum; split <;> rfl

@[simp] theorem value_product (factors : List Term) :
    (product factors).value = Term.productOf factors := by
  unfold product; split <;> rfl

end Build

/-- A computation on terms that may be asked for something without a meaning. -/
abbrev CheckedBuild := ExceptT Fault Build

end EquationSolver
