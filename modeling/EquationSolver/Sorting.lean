/-!
# Sorting

Sorting that keeps the places of items that the order does not tell apart: short lists by
insertion from the end, longer ones by merging.  An item may be sorted together with a key
that is computed only once, which gives the same result.
-/

namespace EquationSolver

variable {α κ : Type}

/-- Insert an item into a list in descending order, before the items that it does not
    precede. -/
def insertDescending (order : α → α → Ordering) (x : α) : List α → List α
  | [] => [x]
  | y :: ys => if order x y = .lt then y :: insertDescending order x ys else x :: y :: ys

def insertAll (order : α → α → Ordering) (sorted items : List α) : List α :=
  items.foldl (fun sorted x => insertDescending order x sorted) sorted

def maxInsertionLength : Nat := 20

/-- Sort a list in ascending order; items that the order does not tell apart keep their
    places. -/
def sortBy (order : α → α → Ordering) (items : List α) : List α :=
  if items.length ≤ maxInsertionLength then (insertAll order [] items).reverse
  else items.mergeSort fun x y => order x y ≠ .gt

def sortWith (key : α → κ) (order : κ × α → κ × α → Ordering) (items : List α) : List α :=
  (sortBy order (items.map fun x => (key x, x))).map Prod.snd

/-! ### Keys make no difference -/

def withKey (key : α → κ) (x : α) : κ × α := (key x, x)

theorem insertDescending_map (key : α → κ) (order : κ × α → κ × α → Ordering) (x : α)
    (items : List α) :
    insertDescending order (withKey key x) (items.map (withKey key)) =
      (insertDescending (fun x y => order (withKey key x) (withKey key y)) x items).map
        (withKey key) := by
  induction items with
  | nil => rfl
  | cons y ys ih =>
    simp only [List.map_cons, insertDescending]
    split <;> simp [ih]

theorem insertAll_map (key : α → κ) (order : κ × α → κ × α → Ordering)
    (sorted items : List α) :
    insertAll order (sorted.map (withKey key)) (items.map (withKey key)) =
      (insertAll (fun x y => order (withKey key x) (withKey key y)) sorted items).map
        (withKey key) := by
  induction items generalizing sorted with
  | nil => rfl
  | cons x xs ih =>
    simp only [insertAll, List.map_cons, List.foldl_cons] at ih ⊢
    rw [insertDescending_map, ih]

/-- Sorting with keys is sorting by what the order says of items with their keys. -/
theorem sortWith_eq (key : α → κ) (order : κ × α → κ × α → Ordering) (items : List α) :
    sortWith key order items =
      sortBy (fun x y => order (withKey key x) (withKey key y)) items := by
  have untag (found : List α) : (found.map (withKey key)).map Prod.snd = found := by
    simp [withKey, Function.comp_def]
  unfold sortWith sortBy
  change List.map Prod.snd (if (items.map (withKey key)).length ≤ _ then
    (insertAll order ([].map (withKey key)) (items.map (withKey key))).reverse
    else (items.map (withKey key)).mergeSort _) = _
  rw [List.length_map, insertAll_map, ← List.map_reverse]
  split
  · rw [untag]
  · rw [← List.map_mergeSort (r := fun x y => order (withKey key x) (withKey key y) ≠ .gt)
      (by simp), untag]

end EquationSolver
