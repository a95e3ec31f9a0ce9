import EquationSolver.Proofs.Matrix.Numbers
import EquationSolver.Proofs.Matrix.Staggered
import EquationSolver.Proofs.Solver.Consistency
import EquationSolver.Proofs.Solver.Linear

/-!
# Systems of exact numbers

A free unknown is pinned to a parameter by a row that leads in its column.  Where the rows of the
echelon form are staggered no other row leads there, so the rank grows by one, and the rows of
the next echelon form are staggered again: pinning succeeds until each unknown has a pivot.

A linear system whose coefficients and constants are exact numbers therefore has an answer that is
solved: its matrix has a rank, and its free unknowns can be pinned.  Only the values of a unique
solution can be refused, and they are exact numbers.
-/

namespace EquationSolver

open Reduction (Settings DrawsRoots)
open SymbolicMatrix

/-! ### Pins of free unknowns -/

namespace Linear

variable {s : Settings} {count place : Nat} {name : String} {m : SymbolicMatrix}
  {rows : List (List Term)}

/-- The row that pins an unknown to a parameter. -/
def pinRow (count place : Nat) (name : String) : List Term :=
  (List.replicate count Term.zero).set place .one ++ [.symbol name]

theorem length_pinRow : (pinRow count place name).length = count + 1 := by
  simp [pinRow]

/-- The matrix with that row behind the others. -/
def pinMatrix (count place : Nat) (name : String) (m : SymbolicMatrix) : SymbolicMatrix :=
  { m with rows := m.rows ++ [pinRow count place name] }

theorem value_pinned (h : m.columns = count + 1) :
    (pinned count place name m).run.value = .ok (pinMatrix count place name m) := by
  have hpush : m.pushRow (pinRow count place name) = .ok (pinMatrix count place name m) :=
    if_pos (length_pinRow.trans h.symm)
  unfold pinned
  rw [CheckedBuild.value_build_bind, CheckedBuild.value_build_bind, CheckedBuild.value_build_bind]
  exact congrArg (fun x : Except Fault SymbolicMatrix => (liftM x : CheckedBuild _).run.value) hpush

/-- The row of a pin leads in the column of its unknown. -/
theorem leadColumn?_pinRow (h : place < count) (name : String) :
    leadColumn? (pinRow count place name) = some place ∧
      (pinRow count place name)[place]? = some .one := by
  have hone : (pinRow count place name)[place]? = some .one := by
    unfold pinRow
    rw [List.getElem?_append_left (by simpa using h), List.getElem?_set_self (by simpa using h)]
  refine ⟨leadColumn?_eq_some_iff.2 ⟨⟨.one, hone, one_ne_zero_term⟩, fun k hk => ?_⟩, hone⟩
  unfold pinRow
  rw [List.getElem?_append_left (by simp; omega), List.getElem?_set_ne (by omega),
    List.getElem?_replicate_of_lt (by omega)]

theorem isStaggered_pin (h : IsStaggered rows) (hplace : place < count)
    (hfree : place ∉ leadColumns rows) (name : String) :
    IsStaggered (rows ++ [pinRow count place name]) ∧
      leadColumns (rows ++ [pinRow count place name]) = leadColumns rows ++ [place] := by
  obtain ⟨hlead, hone⟩ := leadColumn?_pinRow hplace name
  have hcolumns : leadColumns (rows ++ [pinRow count place name]) =
      leadColumns rows ++ [place] := by
    unfold leadColumns
    rw [List.filterMap_append, List.filterMap_cons_some hlead, List.filterMap_nil]
  refine ⟨⟨fun row hrow j hj => ?_, ?_⟩, hcolumns⟩
  · rcases List.mem_append.1 hrow with hold | hnew
    · exact h.one row hold j hj
    · obtain rfl := List.mem_singleton.1 hnew
      obtain rfl : place = j := Option.some.inj (hlead.symm.trans hj)
      exact hone
  · rw [hcolumns]
    exact List.nodup_append.2 ⟨h.nodup, List.nodup_singleton place, fun a ha b hb heq =>
      hfree (List.mem_singleton.1 hb ▸ heq ▸ ha)⟩

/-- With fewer pivots than unknowns some unknown is free. -/
theorem exists_freeUnknown? (h : IsStaggered m.rows) (hlt : (leadColumns m.rows).length < count)
    (s : Settings) :
    ∃ place < count, freeUnknown? s count m = some place ∧ place ∉ leadColumns m.rows := by
  have hpivots : m.pivotColumns s = leadColumns m.rows := h.pivotColumns_eq s m.columns
  unfold freeUnknown?
  rw [hpivots]
  cases hfound : (List.range count).reverse.find? fun column => column ∉ leadColumns m.rows with
  | some place =>
    have hmem := List.mem_of_find?_eq_some hfound
    exact ⟨place, by simpa using hmem, rfl, by simpa using List.find?_some hfound⟩
  | none =>
    have hsubset : List.range count ⊆ leadColumns m.rows := by
      intro column hcolumn
      simpa using List.find?_eq_none.1 hfound column (List.mem_reverse.2 hcolumn)
    have hle := (List.nodup_range.subperm hsubset).length_le
    rw [List.length_range] at hle
    omega

section Values

variable {K : Type*} [Field K] {V : Valuation K}

theorem rowHasValues_pinRow : RowHasValues V (pinRow count place name) := by
  intro t ht
  rcases List.mem_append.1 ht with ht | ht
  · rcases List.mem_or_eq_of_mem_set ht with ht | rfl
    · rw [List.eq_of_mem_replicate ht]
      exact Valuation.hasValue_number 0
    · exact Valuation.hasValue_number 1
  · rw [List.mem_singleton.1 ht]
    simp [Valuation.HasValue]

/-- An augmented matrix whose free unknowns can be pinned. -/
structure IsPinnable (V : Valuation K) (count : Nat) (m : SymbolicMatrix) : Prop where
  rectangular : m.IsRectangular
  columns : m.columns = count + 1
  staggered : IsStaggered m.rows
  hasValues : ∀ row ∈ m.rows, RowHasValues V row

/-- With a free unknown pinned its column is one more in which a row leads. -/
theorem IsPinnable.pinned (h : IsPinnable V count m) (name : String) (hplace : place < count)
    (hfree : place ∉ leadColumns m.rows) :
    IsPinnable V count (pinMatrix count place name m) ∧
      leadColumns (pinMatrix count place name m).rows = leadColumns m.rows ++ [place] := by
  obtain ⟨hpinned, hleads⟩ := isStaggered_pin h.staggered hplace hfree name
  refine ⟨?_, hleads⟩
  constructor
  case rectangular =>
    exact List.forall_mem_append.2
      ⟨h.rectangular, List.forall_mem_singleton.2 (length_pinRow.trans h.columns.symm)⟩
  case columns => exact h.columns
  case staggered => exact hpinned
  case hasValues =>
    exact List.forall_mem_append.2 ⟨h.hasValues, List.forall_mem_singleton.2 rowHasValues_pinRow⟩

variable [CharZero K]

/-- The rank of a matrix that can be pinned is the number of its rows that are not zero, and its
    echelon form can be pinned in the same columns. -/
theorem IsPinnable.exists_rank (h : IsPinnable V count m) (hroots : DrawsRoots V s) :
    ∃ next, (m.rank s []).value = (next, some (leadColumns m.rows).length) ∧
      IsPinnable V count next ∧ (leadColumns next.rows).Perm (leadColumns m.rows) := by
  obtain ⟨next, hrank, hnext, hperm, hvalues⟩ :=
    h.staggered.exists_rank hroots h.rectangular h.hasValues
  refine ⟨next, hrank, ⟨isRectangular_of_rank h.rectangular hrank, ?_, hnext, hvalues⟩, hperm⟩
  exact (finished_of_rank hrank).1.trans h.columns

/-- A pin of a free unknown adds one to the rank. -/
theorem IsPinnable.pin (h : IsPinnable V count m) (hroots : DrawsRoots V s) (name : String)
    (hplace : place < count) (hfree : place ∉ leadColumns m.rows) :
    ∃ next, ((pinMatrix count place name m).rank s []).value =
          (next, some ((leadColumns m.rows).length + 1)) ∧
      IsPinnable V count next ∧
      (leadColumns next.rows).length = (leadColumns m.rows).length + 1 := by
  obtain ⟨hpinned, hleads⟩ := h.pinned name hplace hfree
  have hlength : (leadColumns (pinMatrix count place name m).rows).length =
      (leadColumns m.rows).length + 1 := by
    rw [hleads, List.length_append, List.length_singleton]
  obtain ⟨next, hrank, hnext, hperm⟩ := hpinned.exists_rank hroots
  exact ⟨next, hlength ▸ hrank, hnext, hperm.length_eq.trans hlength⟩

/-- Pinning free unknowns succeeds. -/
theorem IsPinnable.yields_pinFree (hroots : DrawsRoots V s) (parameters missing : Nat) :
    ∀ (pins : Nat) {m : SymbolicMatrix}, IsPinnable V count m →
      (pinFree s [] count parameters missing pins (leadColumns m.rows).length m).Yields
        fun found => found ≠ none := by
  induction missing with
  | zero => exact fun _ _ _ => CheckedBuild.yields_pure (Option.some_ne_none _)
  | succ missing ih =>
    intro pins m h
    unfold pinFree
    by_cases henough : count ≤ (leadColumns m.rows).length
    · rw [if_pos henough]
      exact CheckedBuild.yields_pure (Option.some_ne_none _)
    · rw [if_neg henough]
      obtain ⟨place, hplace, hfree, hnotMem⟩ :=
        exists_freeUnknown? h.staggered (Nat.lt_of_not_le henough) s
      obtain ⟨next, hrank, hnext, hlength⟩ :=
        h.pin hroots (parameterName (pins + 1) parameters) hplace hnotMem
      rw [hfree]
      dsimp only
      refine CheckedBuild.Yields.bind (P := fun _ => True) ⟨_, value_pinned h.columns, trivial⟩ ?_
      intro pinned hpinned _
      obtain rfl := Except.ok.inj ((value_pinned h.columns).symm.trans hpinned)
      apply CheckedBuild.yields_build_bind
      rw [hrank]
      dsimp only
      rw [if_neg (Nat.not_succ_le_self _), ← hlength]
      exact ih (pins + 1) hnext

end Values

end Linear

/-! ### Exact forms -/

/-- Of the factors of each term of a sum one at most contains symbols, and that is a symbol. -/
def Term.HasAffineTerms (t : Term) : Prop :=
  ∀ u ∈ Reduction.summands t,
    (Coefficients.factors u).filter Term.containsSymbol = [] ∨
      ∃ name, (Coefficients.factors u).filter Term.containsSymbol = [.symbol name]

/-- An affine function of the symbols whose coefficients and constant are exact numbers. -/
structure Term.IsExactAffine (t : Term) : Prop where
  isAffine : t.IsAffine
  exact : ∀ u ∈ Reduction.summands t, ∀ f ∈ Coefficients.factors u,
    f.containsSymbol = false → f.IsExact

/-- A sum of symbols and exact numbers is an exact form. -/
theorem Term.isExactAffine_sum {terms : List Term}
    (h : ∀ t ∈ terms, (∃ name, t = .symbol name) ∨ t.IsExact) : (Term.sum terms).IsExactAffine := by
  constructor
  case isAffine =>
    constructor
    case hasValue =>
      refine fun ρ => Valuation.hasValue_sum.2 fun t ht => ?_
      rcases h t ht with ⟨name, rfl⟩ | ⟨a, rfl⟩
      · exact (Valuation.denotes_symbol ρ name).hasValue
      · exact Valuation.hasValue_number a
    case factors =>
      intro u hu
      rcases h u hu with ⟨name, rfl⟩ | ⟨a, rfl⟩
      · exact .inr ⟨name, rfl⟩
      · exact .inl rfl
  case exact =>
    intro u hu f hf hconstant
    rcases h u hu with ⟨name, rfl⟩ | ⟨a, rfl⟩
    · rw [List.mem_singleton.1 hf] at hconstant
      cases hconstant
    · exact ⟨a, List.mem_singleton.1 hf⟩

namespace Coefficients

variable {s : Settings} {names : List String} {t : Term}

/-- What is read as an affine term has one factor with symbols at most. -/
theorem filter_of_foldlM_addFactor {fs : List Term} {start part : AffineTerm}
    (hnames : ∀ f ∈ fs, ∀ name, f.Mentions name → name ∈ names)
    (h : fs.foldlM (AffineTerm.addFactor names) start = some part) :
    fs.filter Term.containsSymbol = [] ∨
      start.unknown = none ∧ ∃ name, fs.filter Term.containsSymbol = [.symbol name] := by
  induction fs generalizing start with
  | nil => exact .inl rfl
  | cons f rest ih =>
    obtain ⟨hf, hrest⟩ := List.forall_mem_cons.1 hnames
    rw [List.foldlM_cons] at h
    obtain ⟨next, hnext, h⟩ := Option.bind_eq_some_iff.1 h
    unfold AffineTerm.addFactor at hnext
    cases hsymbol : f.containsSymbol with
    | false =>
      rw [Term.dependsOn_eq_false hsymbol] at hnext
      cases hnext
      rw [List.filter_cons_of_neg (by simp [hsymbol])]
      have hfound := ih hrest h
      exact hfound
    | true =>
      obtain ⟨name, hname⟩ := Term.exists_mentions hsymbol
      rw [hname.dependsOn (hf name hname), Bool.not_true, if_neg Bool.false_ne_true] at hnext
      rw [List.filter_cons_of_pos hsymbol]
      split at hnext
      case h_2 => cases hnext
      case h_1 other hunknown =>
        cases hnext
        have hmem : other ∈ names := hf other (Term.mentions_symbol.2 rfl)
        rcases ih hrest h with hnil | ⟨hnone, -⟩
        · exact .inr ⟨hunknown, other, by rw [hnil]⟩
        · exact absurd hmem (List.idxOf?_eq_none_iff.1 hnone)

theorem hasAffineTerms_of_linear? (hnames : ∀ name, t.Mentions name → name ∈ names)
    {build : Build (List Term × Term)} (h : linear? s names t = some build) :
    t.HasAffineTerms := by
  obtain ⟨parts, hread, -⟩ := Option.map_eq_some_iff.1 h
  intro u hu
  obtain ⟨part, -, hpart⟩ := exists_of_mem_forall₂ (forall₂_of_mapM hread).flip hu
  refine (filter_of_foldlM_addFactor (fun f hf name hname => ?_) hpart).imp_right And.right
  exact hnames name (mentions_of_mem_summands hu (mentions_of_mem_factors hf hname))

/-- The coefficients of an exact form are exact numbers. -/
theorem isExact_linear? (ht : t.IsExactAffine) (hnames : ∀ name, t.Mentions name → name ∈ names)
    {build : Build (List Term × Term)} (h : linear? s names t = some build) :
    (∀ c ∈ build.value.1, c.IsExact) ∧ build.value.2.IsExact := by
  obtain ⟨parts, hread, rfl⟩ := Option.map_eq_some_iff.1 h
  have hparts : ∀ part ∈ parts, (Reduction.mul s part.coefficient).value.IsExact := by
    intro part hpart
    obtain ⟨u, hu, hpart⟩ := exists_of_mem_forall₂ (forall₂_of_mapM hread) hpart
    refine Reduction.isExact_mul fun f hf => ?_
    obtain ⟨hfactor, hconstant⟩ :=
      (isAffineTerm_of_affineTerm? (.real fun _ => 0) hpart).mem_factors f hf
    refine ht.exact u hu f hfactor (Term.containsSymbol_eq_false (fun name hname => ?_) hconstant)
    exact hnames name (mentions_of_mem_summands hu (mentions_of_mem_factors hfactor hname))
  have hselected (selects : Option Nat → Bool) : (sumSelected selects (multiplyEach s
      (parts.map fun part => (part.unknown, part.coefficient))).value).value.IsExact := by
    refine Reduction.isExact_add fun c hc => ?_
    obtain ⟨product, hproduct, rfl⟩ := List.mem_map.1 hc
    have hmem := List.mem_of_mem_filter hproduct
    simp only [multiplyEach, Build.value_each, Build.value_bind, Build.value_pure,
      List.map_map] at hmem
    obtain ⟨part, hpart, rfl⟩ := List.mem_map.1 hmem
    exact hparts part hpart
  simp only [Build.value_bind, Build.value_pure, Build.value_each]
  refine ⟨fun c hc => ?_, hselected _⟩
  obtain ⟨place, -, rfl⟩ := List.mem_map.1 hc
  exact hselected _

end Coefficients

namespace Linear

variable {s s' : Settings} {names : List String} {forms : List Term} {rows : List (List Term)}

theorem hasAffineTerms_of_augmentedRows
    (hnames : ∀ form ∈ forms, ∀ name, form.Mentions name → name ∈ names)
    (hrows : (augmentedRows s names forms).value = some rows) :
    ∀ form ∈ forms, form.HasAffineTerms := by
  induction forms generalizing rows with
  | nil => exact fun form hform => absurd hform List.not_mem_nil
  | cons form rest ih =>
    obtain ⟨hname, hothers⟩ := List.forall_mem_cons.1 hnames
    unfold augmentedRows at hrows
    split at hrows
    case h_1 => exact absurd hrows (by simp)
    case h_2 build hbuild =>
      simp only [Build.value_bind, Build.value_pure] at hrows
      obtain ⟨others, hvalue, -⟩ := Option.map_eq_some_iff.1 hrows
      exact List.forall_mem_cons.2
        ⟨Coefficients.hasAffineTerms_of_linear? hname hbuild, ih hothers hvalue⟩

/-- The rows of exact forms hold exact numbers, and the opposite of one in the last column. -/
theorem isExact_augmentedRows (hforms : ∀ form ∈ forms, form.IsExactAffine)
    (hnames : ∀ form ∈ forms, ∀ name, form.Mentions name → name ∈ names)
    (hrows : (augmentedRows s names forms).value = some rows) :
    ∀ row ∈ rows, ∀ t ∈ row, t.IsExact ∨ ∃ c : Rat, t = .negation (.number c) := by
  induction forms generalizing rows with
  | nil =>
    obtain rfl : [] = rows := Option.some.inj hrows
    exact fun row hrow => absurd hrow List.not_mem_nil
  | cons form rest ih =>
    obtain ⟨hform, hrest⟩ := List.forall_mem_cons.1 hforms
    obtain ⟨hname, hothers⟩ := List.forall_mem_cons.1 hnames
    unfold augmentedRows at hrows
    split at hrows
    case h_1 => exact absurd hrows (by simp)
    case h_2 build hbuild =>
      simp only [Build.value_bind, Build.value_pure] at hrows
      obtain ⟨others, hvalue, rfl⟩ := Option.map_eq_some_iff.1 hrows
      obtain ⟨hcoefficients, c, hconstant⟩ := Coefficients.isExact_linear? hform hname hbuild
      refine List.forall_mem_cons.2 ⟨fun t ht => ?_, ih hrest hothers hvalue⟩
      rcases List.mem_append.1 ht with ht | ht
      · exact .inl (hcoefficients t ht)
      · rw [List.mem_singleton.1 ht, hconstant]
        exact .inr ⟨c, rfl⟩

/-- Reducing them leaves exact numbers. -/
theorem hasExactEntries_of_forms (hforms : ∀ form ∈ forms, form.IsExactAffine)
    (hnames : ∀ form ∈ forms, ∀ name, form.Mentions name → name ∈ names)
    (hrows : (augmentedRows s names forms).value = some rows) :
    (Elimination.start
      (SymbolicMatrix.reduce s' [] ⟨rows, names.length + 1⟩).value.rows).HasExactEntries := by
  have hwidth := (hasWidth_augmentedRows hrows).1
  intro row' hrow' t ht
  change row' ∈ (SymbolicMatrix.reduce s' [] ⟨rows, names.length + 1⟩).value.rows at hrow'
  rw [rows_reduce_nil s' (m := ⟨rows, names.length + 1⟩) hwidth] at hrow'
  obtain ⟨row, hrow, rfl⟩ := List.mem_map.1 hrow'
  obtain ⟨u, hu, rfl⟩ := List.mem_map.1 ht
  rcases isExact_augmentedRows hforms hnames hrows row hrow u hu with ⟨a, rfl⟩ | ⟨c, rfl⟩
  · exact ⟨a, by simp⟩
  · simp only [Reduction.reduceKept, Build.value_bind, Build.value_pure]
    exact Reduction.isExact_mul_pair ⟨-1, rfl⟩ ⟨c, rfl⟩

end Linear

/-! ### Exact matrices -/

namespace Linear

variable {settings : ReductionTarget → Settings} {s : Settings} {count : Nat}
  {rows : List (List Term)}

/-- The entries of an augmented matrix reduce to exact numbers, and the pivots among them can be
    inverted. -/
structure IsExactSystem (s : Settings) (count : Nat) (rows : List (List Term)) : Prop where
  width : HasWidth (count + 1) rows
  rows_ne_nil : rows ≠ []
  exact : (Elimination.start
    (SymbolicMatrix.reduce s [] ⟨rows, count + 1⟩).value.rows).HasExactEntries
  inverts : (Elimination.start
    (SymbolicMatrix.reduce s [] ⟨rows, count + 1⟩).value.rows).InvertsPivots s (count + 1)

section Rank

variable {K : Type*} [Field K] [CharZero K] {V : Valuation K}

/-- The matrix has a rank, and its echelon form holds exact numbers and can be pinned. -/
theorem IsExactSystem.exists_rank (h : IsExactSystem s count rows) (hroots : DrawsRoots V s)
    (hvalues : ∀ row ∈ rows, RowHasValues V row) :
    ∃ echelon, (SymbolicMatrix.rank s [] ⟨rows, count + 1⟩).value =
        (echelon, some (leadColumns echelon.rows).length) ∧
      (∀ row ∈ echelon.rows, ∀ t ∈ row, t.IsExact) ∧ IsPinnable V count echelon := by
  have hm : (⟨rows, count + 1⟩ : SymbolicMatrix).IsRectangular := h.width
  have hnonzero := h.exact.takesNonzeroPivots V h.inverts
  obtain ⟨echelon, rank, hrank, hechelon⟩ := SymbolicMatrix.exists_rank hroots hm hvalues hnonzero
  obtain ⟨column, pivots, hreduced, hend, -, -⟩ := exists_reduced hroots hm hvalues hrank hnonzero
  obtain ⟨hcolumns, _, hrun⟩ := run_of_rank hrank
  have hexact : ∀ row ∈ echelon.rows, ∀ t ∈ row, t.IsExact := h.exact.run hrun h.inverts
  have hrectangular := isRectangular_of_rank hm hrank
  have hwidth : HasWidth (count + 1) echelon.rows := fun row hrow =>
    (hrectangular row hrow).trans hcolumns
  obtain ⟨hstaggered, hleads⟩ := Elimination.HasExactEntries.isStaggered
    (e := ⟨echelon.rows, rank, column⟩) hexact hwidth hreduced hend
  have hlength : (leadColumns echelon.rows).length = rank :=
    (congrArg List.length hleads).trans hreduced.hasPivots.length_eq
  exact ⟨echelon, hlength ▸ hrank, hexact, hrectangular, hcolumns, hstaggered, hechelon⟩

end Rank

/-- An answer that is not refused out of hand, with exact values if there is one solution. -/
structure IsSettled (answer : LinearAnswer) : Prop where
  ne_undefined : answer ≠ .undefined
  ne_unresolved : answer ≠ .unresolved
  exact : ∀ values, answer = .unique values → ∀ t ∈ values, t.IsExact

theorem IsExactSystem.ensures_isSettled (h : IsExactSystem (settings .approximation) count rows)
    (hlimit : ∀ target, (settings target).limits.maxExponentBits = 4096) (ρ : String → ℝ)
    (hvalues : ∀ row ∈ rows, RowHasValues (.real ρ) row) :
    (solve settings [] count rows).Ensures IsSettled := by
  obtain ⟨echelon, hrank, hexact, hpinnable⟩ :=
    h.exists_rank (Reduction.drawsRoots_real (hlimit .approximation) ρ) hvalues
  unfold solve
  refine CheckedBuild.ensures_except_bind fun m hm => ?_
  obtain rfl : (⟨rows, count + 1⟩ : SymbolicMatrix) = m :=
    Except.ok.inj ((ofRows_eq h.width h.rows_ne_nil).symm.trans hm)
  apply CheckedBuild.ensures_build_bind
  rw [hrank]
  dsimp only
  split
  · exact CheckedBuild.ensures_pure ⟨nofun, nofun, nofun⟩
  split
  · refine CheckedBuild.ensures_except_bind fun found hfound => ?_
    refine CheckedBuild.ensures_pure ⟨nofun, nofun, ?_⟩
    rintro values ⟨⟩ t ht
    obtain ⟨hlength, hentry⟩ := of_values_eq_ok hfound
    obtain ⟨i, hi⟩ := List.getElem?_of_mem ht
    obtain ⟨u, hu, hentry⟩ := hentry i (hlength ▸ (List.getElem?_eq_some_iff.1 hi).1)
    obtain rfl : u = t := Option.some.inj (hu.symm.trans hi)
    obtain ⟨row, hrow, hget⟩ := Option.bind_eq_some_iff.1 hentry
    exact hexact row (List.mem_of_getElem? hrow) u (List.mem_of_getElem? hget)
  · refine CheckedBuild.Ensures.bind (P := fun found => found ≠ none) ?_ fun found hfound => ?_
    · intro found hfound
      obtain ⟨found', hvalue, hsome⟩ := hpinnable.yields_pinFree
        (s := { settings .analysis with symbols := .keepAll })
        (Reduction.drawsRoots_real (hlimit .analysis) ρ)
        (count - (leadColumns echelon.rows).length) (count - (leadColumns echelon.rows).length) 0
      obtain rfl := Except.ok.inj (hvalue.symm.trans hfound)
      exact hsome
    · cases found with
      | none => exact absurd rfl hfound
      | some pinned =>
        refine CheckedBuild.ensures_except_bind fun found _ => ?_
        exact CheckedBuild.ensures_pure ⟨nofun, nofun, nofun⟩

/-! ### Exact systems -/

/-- A settled answer that says of the solutions what is so.  Only unknowns have values. -/
structure IsSettledFor (names : List String) (forms : List Term) (answer : LinearAnswer) : Prop
    extends IsSettled answer where
  isRight : names ≠ [] → IsRight (solutionSet names forms) answer
  names_ne_nil : ∀ values, answer = .unique values → names ≠ []

/-- A system of exact forms has a settled answer, which is right. -/
theorem yields_isSettledFor {names : List String} {forms : List Term}
    (hlimit : ∀ target, (settings target).limits.maxExponentBits = 4096)
    (hlimit' : s.limits.maxExponentBits = 4096) (hnodup : names.Nodup) (hne : forms ≠ [])
    (hforms : ∀ form ∈ forms, form.IsExactAffine)
    (hnames : ∀ form ∈ forms, ∀ name, form.Mentions name → name ∈ names)
    (hrows : (augmentedRows s names forms).value = some rows)
    (hinverts : (Elimination.start (SymbolicMatrix.reduce (settings .approximation) []
      ⟨rows, names.length + 1⟩).value.rows).InvertsPivots (settings .approximation)
        (names.length + 1)) :
    (solve settings [] names.length rows).Yields (IsSettledFor names forms) := by
  have haffine : ∀ form ∈ forms, form.IsAffine := fun form hform => (hforms form hform).isAffine
  obtain ⟨hwidth, hlength⟩ := hasWidth_augmentedRows hrows
  have hnonempty : rows ≠ [] := by
    rintro rfl
    exact hne (List.eq_nil_of_length_eq_zero hlength.symm)
  have hentries : (Elimination.start (SymbolicMatrix.reduce (settings .approximation) []
      ⟨rows, names.length + 1⟩).value.rows).HasExactEntries :=
    hasExactEntries_of_forms hforms hnames hrows
  have hsystem : IsExactSystem (settings .approximation) names.length rows :=
    ⟨hwidth, hnonempty, hentries, hinverts⟩
  have hsettled := hsystem.ensures_isSettled hlimit (fun _ => 0)
    (rows_values hlimit' haffine hnames hrows (fun _ => 0) fun _ => 0).1
  have hyields : (solve settings [] names.length rows).Yields fun answer =>
      (LinearAnswer.terms answer).length ≤ names.length :=
    yields_solve hwidth fun hnil => absurd hnil hnonempty
  obtain ⟨answer, hvalue, -⟩ := hyields
  have hanswers := ensures_solve answer hvalue
  refine ⟨answer, hvalue, hsettled answer hvalue, fun hnamesNonempty => ?_, ?_⟩
  · refine hanswers.isRight (s := s) ?_
    constructor
    case limit => exact hlimit'
    case limit' => exact hlimit .approximation
    case names_ne_nil => exact hnamesNonempty
    case rows_ne_nil => exact hnonempty
    case nodup => exact hnodup
    case affine => exact haffine
    case mentions => exact hnames
    case rows_eq => exact hrows
    case isDecided =>
      exact fun ρ => isDecided_of_numbers hwidth rfl fun e hrun => hentries.run hrun hinverts
  · rintro values rfl rfl
    cases hanswers with
    | unique _ _ _ hcount _ => exact Nat.lt_irrefl 0 hcount

end Linear

end EquationSolver
