import EquationSolver.Sorting
import Mathlib.Data.List.Chain
import Mathlib.Data.List.Perm.Basic

/-!
# What sorting does

Whatever the order says, `sortBy` only moves items around: nothing is lost and nothing is
added.  With a total order the result is ascending.  Only what the order says of the items
matters, so that sorting can be followed on what the items stand for.
-/

namespace EquationSolver

variable {α β κ : Type}

theorem insertDescending_perm (order : α → α → Ordering) (x : α) (items : List α) :
    (insertDescending order x items).Perm (x :: items) := by
  induction items with
  | nil => exact .refl _
  | cons y ys ih =>
    simp only [insertDescending]
    split
    · exact (ih.cons y).trans (.swap x y ys)
    · exact .refl _

theorem insertAll_perm (order : α → α → Ordering) (sorted items : List α) :
    (insertAll order sorted items).Perm (sorted ++ items) := by
  induction items generalizing sorted with
  | nil => simp [insertAll]
  | cons x xs ih =>
    have step := ih (insertDescending order x sorted)
    refine step.trans (((insertDescending_perm order x sorted).append_right xs).trans ?_)
    exact List.perm_middle.symm

theorem sortBy_perm (order : α → α → Ordering) (items : List α) :
    (sortBy order items).Perm items := by
  unfold sortBy
  split
  · exact (List.reverse_perm _).trans (by simpa using insertAll_perm order [] items)
  · exact List.mergeSort_perm items _

theorem sortWith_perm (key : α → κ) (order : κ × α → κ × α → Ordering) (items : List α) :
    (sortWith key order items).Perm items := by
  rw [sortWith_eq]
  exact sortBy_perm _ items

/-! ### Ascending lists -/

theorem pairwise_insertDescending {order : α → α → Ordering} [Std.TransCmp order] (x : α)
    {items : List α} (h : items.Pairwise fun a b => (order b a).isLE) :
    (insertDescending order x items).Pairwise fun a b => (order b a).isLE := by
  induction items with
  | nil => simp [insertDescending]
  | cons y ys ih =>
    obtain ⟨hy, hys⟩ := List.pairwise_cons.1 h
    rw [insertDescending]
    split
    case isTrue hlt =>
      refine List.pairwise_cons.2 ⟨fun z hz => ?_, ih hys⟩
      rcases List.mem_cons.1 ((insertDescending_perm order x ys).mem_iff.1 hz) with rfl | hz
      · exact Ordering.isLE_of_eq_lt hlt
      · exact hy z hz
    case isFalse hlt =>
      have hyx : (order y x).isLE := by
        rw [← Std.OrientedCmp.isGE_eq_isLE]
        cases h : order x y <;> simp_all
      refine List.pairwise_cons.2 ⟨fun z hz => ?_, h⟩
      rcases List.mem_cons.1 hz with rfl | hz
      · exact hyx
      · exact Std.TransCmp.isLE_trans (hy z hz) hyx

theorem pairwise_insertAll {order : α → α → Ordering} [Std.TransCmp order] (items : List α)
    {sorted : List α} (h : sorted.Pairwise fun a b => (order b a).isLE) :
    (insertAll order sorted items).Pairwise fun a b => (order b a).isLE := by
  induction items generalizing sorted with
  | nil => exact h
  | cons x xs ih => exact ih (pairwise_insertDescending x h)

/-- A total order sorts into ascending order. -/
theorem pairwise_sortBy {order : α → α → Ordering} [Std.TransCmp order] (items : List α) :
    (sortBy order items).Pairwise fun a b => (order a b).isLE := by
  unfold sortBy
  split
  case isTrue =>
    exact List.pairwise_reverse.2 (pairwise_insertAll items List.Pairwise.nil)
  case isFalse =>
    have hle : ∀ a b, (decide (order a b ≠ .gt)) = (order a b).isLE := by
      intro a b
      cases order a b <;> rfl
    simp only [hle]
    refine List.pairwise_mergeSort (fun a b c => Std.TransCmp.isLE_trans) (fun a b => ?_) items
    rw [← Std.OrientedCmp.isGE_eq_isLE (a := a)]
    cases order a b <;> rfl

/-- Strictly ascending lists with the same items are equal. -/
theorem eq_of_ascending {precedes : α → α → Prop} (hasymm : ∀ a b, precedes a b → ¬ precedes b a)
    {items items' : List α} (h : items.Pairwise precedes) (h' : items'.Pairwise precedes)
    (hmem : ∀ x, x ∈ items ↔ x ∈ items') : items = items' := by
  have hne : ∀ a b, precedes a b → a ≠ b := by
    rintro a b hab rfl
    exact hasymm a a hab hab
  have hperm : items.Perm items' :=
    (List.perm_ext_iff_of_nodup (h.imp @hne) (h'.imp @hne)).2 hmem
  exact hperm.eq_of_pairwise (fun a b _ _ hab hba => (hasymm a b hab hba).elim) h h'

/-- What is in strictly ascending order stays as it is. -/
theorem sortBy_of_ascending {order : α → α → Ordering} [Std.TransCmp order] {items : List α}
    (h : items.Pairwise fun a b => order a b = .lt) : sortBy order items = items := by
  have hperm := sortBy_perm order items
  have hdiffer : (sortBy order items).Pairwise fun a b => order a b ≠ .eq := by
    refine (hperm.pairwise_iff fun hne heq => hne (Std.OrientedCmp.eq_symm heq)).2 ?_
    exact h.imp fun hlt heq => by rw [hlt] at heq; cases heq
  have hascending : (sortBy order items).Pairwise fun a b => order a b = .lt :=
    hdiffer.imp₂ (fun _ _ hne hle => (Ordering.isLE_iff_eq_lt_or_eq_eq.1 hle).resolve_right hne)
      (pairwise_sortBy items)
  exact eq_of_ascending (fun _ _ => Std.OrientedCmp.not_lt_of_lt) hascending h
    fun _ => hperm.mem_iff

/-! ### Neighbours in order -/

/-- No item comes behind the next one in the order. -/
def IsAscending (order : α → α → Ordering) (items : List α) : Prop :=
  items.IsChain fun a b => order a b ≠ .gt

section Neighbours

variable {order : α → α → Ordering} {items : List α}

theorem head?_insertDescending (x : α) (items : List α) :
    (insertDescending order x items).head? = some x ∨
      (insertDescending order x items).head? = items.head? := by
  cases items with
  | nil => exact .inl rfl
  | cons y ys =>
    rw [insertDescending]
    split
    · exact .inr rfl
    · exact .inl rfl

theorem isChain_insertDescending (hswap : ∀ a b, order b a = (order a b).swap) (x : α)
    (h : items.IsChain fun a b => order b a ≠ .gt) :
    (insertDescending order x items).IsChain fun a b => order b a ≠ .gt := by
  induction items with
  | nil => exact .singleton x
  | cons y ys ih =>
    obtain ⟨hy, hys⟩ := List.isChain_cons.1 h
    rw [insertDescending]
    split
    case isTrue hlt =>
      refine (ih hys).cons fun z hz => ?_
      rcases head?_insertDescending x ys with hhead | hhead
      · obtain rfl : x = z := Option.some.inj (hhead.symm.trans hz)
        rw [hlt]
        exact Ordering.noConfusion
      · exact hy z (hhead ▸ hz)
    case isFalse hlt =>
      refine List.isChain_cons_cons.2 ⟨fun hgt => hlt ?_, h⟩
      rw [hswap, hgt]
      rfl

theorem isChain_insertAll (hswap : ∀ a b, order b a = (order a b).swap) {sorted : List α}
    (h : sorted.IsChain fun a b => order b a ≠ .gt) :
    (insertAll order sorted items).IsChain fun a b => order b a ≠ .gt := by
  induction items generalizing sorted with
  | nil => exact h
  | cons x xs ih => exact ih (isChain_insertDescending hswap x h)

theorem head?_merge (le : α → α → Bool) : ∀ l r : List α,
    (l.merge r le).head? = l.head? ∨ (l.merge r le).head? = r.head?
  | [], r => .inr (congrArg _ (List.nil_merge r))
  | a :: l, [] => .inl (congrArg _ (List.merge_right (a :: l)))
  | a :: l, b :: r => by
    rw [List.cons_merge_cons]
    split
    · exact .inl rfl
    · exact .inr rfl

theorem isChain_merge {le : α → α → Bool} (htotal : ∀ a b, le a b = false → le b a = true) :
    ∀ l r : List α, l.IsChain (le · · = true) → r.IsChain (le · · = true) →
      (l.merge r le).IsChain (le · · = true)
  | [], r, _, hr => by rwa [List.nil_merge]
  | a :: l, [], hl, _ => by rwa [List.merge_right]
  | a :: l, b :: r, hl, hr => by
    obtain ⟨ha, hl'⟩ := List.isChain_cons.1 hl
    obtain ⟨hb, hr'⟩ := List.isChain_cons.1 hr
    rw [List.cons_merge_cons]
    split
    case isTrue hab =>
      refine (isChain_merge htotal l (b :: r) hl' hr).cons fun y hy => ?_
      rcases head?_merge le l (b :: r) with hhead | hhead
      · exact ha y (hhead ▸ hy)
      · obtain rfl : b = y := Option.some.inj (hhead.symm.trans hy)
        exact hab
    case isFalse hab =>
      refine (isChain_merge htotal (a :: l) r hl hr').cons fun y hy => ?_
      rcases head?_merge le (a :: l) r with hhead | hhead
      · obtain rfl : a = y := Option.some.inj (hhead.symm.trans hy)
        exact htotal a b (Bool.eq_false_iff.2 hab)
      · exact hb y (hhead ▸ hy)

theorem isChain_mergeSort {le : α → α → Bool} (htotal : ∀ a b, le a b = false → le b a = true)
    (items : List α) : (items.mergeSort le).IsChain (le · · = true) := by
  fun_induction List.mergeSort items le with
  | case1 => exact .nil
  | case2 le a => exact .singleton a
  | case3 a b xs le lr _ _ ihl ihr =>
    exact isChain_merge htotal _ _ (ihl htotal) (ihr htotal)

/-- Whatever the order is, as long as it reverses with its arguments, neighbours in a sorted list
    are in order. -/
theorem isAscending_sortBy (hswap : ∀ a b, order b a = (order a b).swap) (items : List α) :
    IsAscending order (sortBy order items) := by
  unfold sortBy
  split
  case isTrue => exact List.isChain_reverse.2 (isChain_insertAll hswap .nil)
  case isFalse =>
    refine (isChain_mergeSort (fun a b hab => ?_) items).imp fun a b hab => of_decide_eq_true hab
    have hgt : order a b = .gt := by simpa using hab
    refine decide_eq_true ?_
    rw [hswap, hgt]
    exact Ordering.noConfusion

theorem insertAll_of_isAscending (hswap : ∀ a b, order b a = (order a b).swap) {sorted : List α}
    (h : IsAscending order items)
    (hbetween : ∀ y ∈ sorted.head?, ∀ x ∈ items.head?, order y x ≠ .gt) :
    insertAll order sorted items = items.reverse ++ sorted := by
  induction items generalizing sorted with
  | nil => rfl
  | cons x xs ih =>
    obtain ⟨hx, hxs⟩ := List.isChain_cons.1 h
    have hinsert : insertDescending order x sorted = x :: sorted := by
      cases sorted with
      | nil => rfl
      | cons y ys =>
        rw [insertDescending, if_neg]
        intro hlt
        refine hbetween y rfl x rfl ?_
        rw [hswap, hlt]
        rfl
    rw [insertAll, List.foldl_cons, hinsert]
    refine (ih hxs fun y hy z hz => ?_).trans (by simp)
    obtain rfl : x = y := Option.some.inj hy
    exact hx z hz

theorem IsAscending.pairwise (h : IsAscending order items)
    (htrans : ∀ a ∈ items, ∀ b ∈ items, ∀ c ∈ items, order a b ≠ .gt → order b c ≠ .gt →
      order a c ≠ .gt) : items.Pairwise fun a b => order a b ≠ .gt := by
  induction items with
  | nil => exact .nil
  | cons x xs ih =>
    obtain ⟨hx, hxs⟩ := List.isChain_cons.1 h
    have hpairwise := ih hxs fun a ha b hb c hc => htrans a (List.mem_cons_of_mem _ ha) b
      (List.mem_cons_of_mem _ hb) c (List.mem_cons_of_mem _ hc)
    refine List.pairwise_cons.2 ⟨fun z hz => ?_, hpairwise⟩
    cases xs with
    | nil => cases hz
    | cons y ys =>
      rcases List.mem_cons.1 hz with rfl | hz'
      · exact hx z rfl
      · exact htrans x List.mem_cons_self y (List.mem_cons_of_mem _ List.mem_cons_self) z
          (List.mem_cons_of_mem _ hz) (hx y rfl) ((List.pairwise_cons.1 hpairwise).1 z hz')

/-- Lists with the same items are sorted to the same list, if the order is transitive on the items
    and tells them apart. -/
theorem sortBy_eq_of_perm {items' : List α} (hswap : ∀ a b, order b a = (order a b).swap)
    (hdiffer : ∀ a ∈ items, ∀ b ∈ items, order a b = .eq → a = b)
    (htrans : ∀ a ∈ items, ∀ b ∈ items, ∀ c ∈ items, order a b ≠ .gt → order b c ≠ .gt →
      order a c ≠ .gt) (hperm : items.Perm items') : sortBy order items = sortBy order items' := by
  have hsorted := sortBy_perm order items
  have hsorted' := (sortBy_perm order items').trans hperm.symm
  have hpairwise {sorted : List α} (hsame : sorted.Perm items) (h : IsAscending order sorted) :
      sorted.Pairwise fun a b => order a b ≠ .gt :=
    h.pairwise fun a ha b hb c hc =>
      htrans a (hsame.mem_iff.1 ha) b (hsame.mem_iff.1 hb) c (hsame.mem_iff.1 hc)
  refine (hsorted.trans hsorted'.symm).eq_of_pairwise (fun a b ha hb hab hba => ?_)
    (hpairwise hsorted (isAscending_sortBy hswap items))
    (hpairwise hsorted' (isAscending_sortBy hswap items'))
  refine hdiffer a (hsorted.mem_iff.1 ha) b (hsorted'.mem_iff.1 hb) ?_
  rw [hswap a b] at hba
  cases hcompare : order a b with
  | eq => rfl
  | lt => exact absurd (congrArg Ordering.swap hcompare) hba
  | gt => exact absurd hcompare hab

/-- Items stay where they are if neighbours are in order.  Merging long lists compares items that
    are no neighbours, so that it takes a transitive order. -/
theorem sortBy_of_isAscending (hswap : ∀ a b, order b a = (order a b).swap)
    (h : IsAscending order items)
    (htrans : maxInsertionLength < items.length → ∀ a ∈ items, ∀ b ∈ items, ∀ c ∈ items,
      order a b ≠ .gt → order b c ≠ .gt → order a c ≠ .gt) : sortBy order items = items := by
  unfold sortBy
  split
  case isTrue =>
    have hinsert : insertAll order [] items = items.reverse ++ [] :=
      insertAll_of_isAscending hswap h fun y hy => nomatch hy
    rw [hinsert, List.append_nil, List.reverse_reverse]
  case isFalse hlong =>
    refine List.mergeSort_of_pairwise ((h.pairwise (htrans (not_le.1 hlong))).imp ?_)
    exact fun hab => decide_eq_true hab

end Neighbours

/-! ### Sorting what items stand for -/

theorem insertDescending_map_of_agree {f : α → β} {order : α → α → Ordering}
    {order' : β → β → Ordering} (x : α) {items : List α}
    (h : ∀ y ∈ items, order' (f x) (f y) = order x y) :
    insertDescending order' (f x) (items.map f) = (insertDescending order x items).map f := by
  induction items with
  | nil => rfl
  | cons y ys ih =>
    obtain ⟨hy, hys⟩ := List.forall_mem_cons.1 h
    simp only [List.map_cons, insertDescending, hy]
    split
    · rw [ih hys, List.map_cons]
    · rw [List.map_cons, List.map_cons]

theorem insertAll_map_of_agree {f : α → β} {order : α → α → Ordering}
    {order' : β → β → Ordering} {sorted items : List α}
    (h : ∀ x ∈ sorted ++ items, ∀ y ∈ sorted ++ items, order' (f x) (f y) = order x y) :
    insertAll order' (sorted.map f) (items.map f) = (insertAll order sorted items).map f := by
  induction items generalizing sorted with
  | nil => rfl
  | cons x xs ih =>
    have hinsert : insertDescending order' (f x) (sorted.map f) =
        (insertDescending order x sorted).map f :=
      insertDescending_map_of_agree x fun y hy => h x (by simp) y (by simp [hy])
    have hmem : ∀ y ∈ insertDescending order x sorted ++ xs, y ∈ sorted ++ x :: xs := by
      intro y hy
      rcases List.mem_append.1 hy with hy | hy
      · rcases List.mem_cons.1 ((insertDescending_perm order x sorted).mem_iff.1 hy) with rfl | hy
        · simp
        · simp [hy]
      · simp [hy]
    have step := ih fun y hy z hz => h y (hmem y hy) z (hmem z hz)
    rw [← hinsert] at step
    exact step

/-- Orders that agree on the items sort them in the same way. -/
theorem sortBy_map {f : α → β} {order : α → α → Ordering} {order' : β → β → Ordering}
    {items : List α} (h : ∀ x ∈ items, ∀ y ∈ items, order' (f x) (f y) = order x y) :
    sortBy order' (items.map f) = (sortBy order items).map f := by
  unfold sortBy
  rw [List.length_map]
  split
  case isTrue =>
    have hinsert : insertAll order' ([].map f) (items.map f) = (insertAll order [] items).map f :=
      insertAll_map_of_agree (by simpa using h)
    rw [List.map_nil] at hinsert
    rw [hinsert, List.map_reverse]
  case isFalse =>
    rw [List.map_mergeSort]
    intro x hx y hy
    rw [h x hx y hy]

end EquationSolver
