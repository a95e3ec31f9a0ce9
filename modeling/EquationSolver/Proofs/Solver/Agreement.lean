import EquationSolver.Proofs.Number.Approximation
import EquationSolver.Proofs.Reduction.Idempotence
import EquationSolver.Proofs.Solver.Registration
import EquationSolver.Proofs.Value.Difference

/-!
# Forms that agree

A solution that shows a value exactly and approximately has a flag: the approximate text, its
decimals read as exact numbers, denotes the exact value.  The flag is set if the difference of the
exact form and what the text is read as reduces to zero.  Where the exact form is built from numbers
and the imaginary unit, a flag that is set tells the truth, in whatever format complex values are
shown; and where it is a number, so does one that is not set.  The exact form has a value at all if
it is left as it is when it is reduced again: a part of it that has none cannot cancel.
-/

namespace EquationSolver

open Reduction (Settings reduce reduceKept)

/-- The text spells an expression whose principal value is `v`. -/
def TextDenotes (text : String) (v : ℂ) : Prop :=
  ∃ t, Spells text.toList t ∧ Term.Principal.Denotes t v

/-- The flag of a solution tells whether its forms denote the same value.  It is set only if the
    exact form is shown, in another text than the approximate one, and the approximate text denotes
    the value of the exact form.  A form that divides by a sum that is zero has no value, although
    no reduction may notice; but one that is left as it is when it is reduced again has the value
    that the text denotes.  If the exact form is a number and is shown, the flag is set exactly if
    the approximate text denotes that number. -/
structure Solution.TellsTruth {ν : Type} (s : Settings) (definitions : Definitions) (exact : Term)
    (digits : Nat) (refer : Term → ν) (solution : Solution ν) : Prop where
  of_formsAgree : solution.formsAgree = true → ∃ approximate w,
    solution.exact = some ⟨refer exact, exact.text digits⟩ ∧
    solution.approximate = some approximate ∧ exact.text digits ≠ approximate.text ∧
    TextDenotes approximate.text w ∧ (∀ v, Term.Principal.Denotes exact v → v = w) ∧
    ((reduce s definitions exact).value = exact → Term.Principal.Denotes exact w)
  of_number : ∀ q, exact = .number q → solution.exact.isSome →
    ∃ approximate, solution.approximate = some approximate ∧
      (solution.formsAgree = true ↔ TextDenotes approximate.text q)

variable {s : Settings} {definitions : Definitions} {policy : DisplayPolicy} {t : Term}

/-! ### The comparison of an exact form and a text -/

theorem Term.isZero_iff {t : Term} : t.isZero = true ↔ t = .number 0 := by
  cases t <;> simp [Term.isZero]

theorem exactEqualsText_iff {exact : Term} {text : String} :
    (exactEqualsText s definitions exact text).value = true ↔
      ∃ read, (parseExpression text).value = .ok read ∧
        (reduce s.forDisplay definitions (.sum [exact, .negation read])).value = .number 0 := by
  unfold exactEqualsText
  rw [Build.value_bind]
  cases hread : (parseExpression text).value with
  | error e => simp
  | ok read =>
    simp only [Except.ok.injEq, exists_eq_left']
    exact Term.isZero_iff

theorem Term.IsGaussian.mentionsOnly {names : String → Prop} {t : Term} (h : t.IsGaussian) :
    t.MentionsOnly names := by
  induction h with
  | number | i => exact mentionsOnly_of_atom rfl (by simp)
  | sum _ ih => exact mentionsOnly_sum.2 ih
  | product _ ih => exact mentionsOnly_product.2 ih
  | power _ _ ih => exact mentionsOnly_power.2 ⟨ih, mentionsOnly_of_atom rfl (by simp)⟩

/-- Neither the exact form nor what is read from an approximate text holds symbols, so definitions
    do not matter to their difference. -/
theorem reduce_difference {exact approximate read : Term} {digits : Nat} (hexact : exact.IsGaussian)
    (happroximate : approximate.IsNumeric)
    (hread : (parseExpression (approximate.text digits)).value = .ok read) :
    (reduce s definitions (.sum [exact, .negation read])).value =
      (reduceKept s (.sum [exact, .negation read])).value := by
  have hopposite : (Term.negation read).MentionsOnly (Reduction.Leaves s definitions) :=
    Term.mentionsOnly_negation.2 (mentionsOnly_of_parseExpression_text happroximate hread)
  rw [Reduction.reduce_of_leaves (Term.mentionsOnly_sum.2 (List.forall_mem_cons.2
    ⟨hexact.mentionsOnly, List.forall_mem_singleton.2 hopposite⟩)), Reduction.reduce_nil]

/-! ### The forms of a value -/

section Forms

variable {exact : Term} {z : ComplexFloat} {format : ComplexFormat} {digits : Nat}

/-- Reducing a Gaussian form has nothing to do with definitions. -/
theorem reduce_of_isGaussian (hexact : exact.IsGaussian) :
    (reduce s definitions exact).value = (reduceKept s exact).value := by
  rw [Reduction.reduce_of_leaves hexact.mentionsOnly, Reduction.reduce_nil]

/-- A text that passes the comparison denotes the exact value. -/
theorem textDenotes_of_exactEqualsText (hexact : exact.IsGaussian)
    (hshaped : exact.Everywhere Reduction.IsShaped)
    (hunlike : exact.Everywhere Reduction.HasUnlikeTerms)
    (hagree : (exactEqualsText s definitions exact
      (((Approximation.value z).toTerm format).value.text digits)).value = true) :
    ∃ w, TextDenotes (((Approximation.value z).toTerm format).value.text digits) w ∧
      (∀ v, Term.Principal.Denotes exact v → v = w) ∧
      ((reduce s.forDisplay definitions exact).value = exact →
        Term.Principal.Denotes exact w) := by
  obtain ⟨read, hread, hzero⟩ := exactEqualsText_iff.1 hagree
  rw [reduce_difference hexact (Approximation.isNumeric_toTerm_value z format) hread] at hzero
  have hsettles : Reduction.Settles s.forDisplay read := by
    rcases Approximation.isCartesian_or_isPolar_of_parse hread with hcartesian | hpolar
    · exact Reduction.settles_of_isCartesian hcartesian
    · exact Reduction.settles_of_isPolar hpolar
  obtain ⟨w, hw, hsame⟩ := hsettles.eq_of_difference hzero
  refine ⟨w, ⟨read, parseExpression_eq_ok_iff.1 hread, hw⟩,
    fun v hv => hsame v (hexact.principal_denotes_iff.1 hv), fun hkept => ?_⟩
  have hvalue : exact.HasValue .complex := hsettles.hasValue_of_difference hexact hshaped hunlike
    ((reduce_of_isGaussian hexact).symm.trans hkept) hzero
  have hdenotes := Term.Denotes.of_hasValue hvalue
  rw [hexact.principal_denotes_iff, ← hsame _ hdenotes]
  exact hdenotes

/-- A decimal that denotes a number passes the comparison with it. -/
theorem exactEqualsText_of_textDenotes {q : Rat} {x : Float}
    (h : TextDenotes ((Term.ofDouble x).text digits) q) :
    (exactEqualsText s definitions (.number q) ((Term.ofDouble x).text digits)).value = true := by
  obtain ⟨read, hspells, hdenotes⟩ := h
  have hread := parseExpression_eq_ok_iff.2 hspells
  refine exactEqualsText_iff.2 ⟨read, hread, ?_⟩
  rw [reduce_difference (.number q) (Term.isNumeric_ofDouble x) hread]
  exact Reduction.difference_of_denotes (Approximation.isSignedMagnitude_of_parse hread) hdenotes

/-- Numbers are approximated by real values, which are decimals in every format. -/
theorem toTerm_of_number {q : Rat} (h : (Term.number q).approximate s [] = .value z) :
    ((Approximation.value z).toTerm format).value = Term.ofDouble (Binary64.nearest q) := by
  rw [approximate_number] at h
  split_ifs at h
  cases h
  have hzero : ((0 : Float) == 0) = true := rfl
  simp [Approximation.toTerm, hzero]

end Forms

/-! ### Registered solutions -/

namespace Solution

/-- An exact form is shown beside the approximate value in `solution`. -/
structure ShowsBoth (s : Settings) (definitions : Definitions) (policy : DisplayPolicy)
    (exact approximate : Term) (solution : Solution Term) : Prop where
  exact_eq : solution.exact = some (layout policy exact)
  text_ne : (layout policy exact).text ≠ (layout policy approximate).text
  formsAgree_eq : solution.formsAgree =
    (exactEqualsText s definitions exact (layout policy approximate).text).value

/-- An exact form is left out that holds decimals, is too long or reads the same as the
    approximate value. -/
def LeavesOut (policy : DisplayPolicy) (exact approximate : Term) : Prop :=
  exactLayout? policy exact = none ∨
    (layout policy exact).text = (layout policy approximate).text

theorem value_compareLayouts (exact approximate : Layout Term) :
    (compareLayouts s definitions .exact (some exact) (some approximate)).value =
      if exact.text = approximate.text then (none, false)
      else (some exact, (exactEqualsText s definitions exact.node approximate.text).value) := by
  unfold compareLayouts
  dsimp only
  split_ifs <;> rfl

theorem eq_layout_of_exactLayout? {shown : Layout Term}
    (h : exactLayout? policy t = some shown) : shown = layout policy t := by
  unfold exactLayout? at h
  dsimp only at h
  split_ifs at h
  exact (Option.some.inj h).symm

/-- An exact solution shows the approximate value, and with it the exact form unless this is left
    out; then its flag is not set. -/
theorem shows_of_ofForms {exact approximate : Term} {solution : Solution Term}
    (h : (ofForms s definitions policy .exact (some exact) approximate).value = solution) :
    solution.approximate = some (layout policy approximate) ∧
      (LeavesOut policy exact approximate ∧ solution.exact = none ∧ solution.formsAgree = false ∨
        ShowsBoth s definitions policy exact approximate solution) := by
  subst h
  unfold ofForms
  have hkept : (if SolutionType.exact = .formal then none
      else some (layout policy approximate)) = some (layout policy approximate) :=
    if_neg (by decide)
  rw [hkept]
  refine ⟨rfl, ?_⟩
  simp only [Build.value_bind, Build.value_pure, Option.bind_some]
  cases hlayout : exactLayout? policy exact with
  | none => exact .inl ⟨.inl hlayout, rfl, rfl⟩
  | some shown =>
    obtain rfl := eq_layout_of_exactLayout? hlayout
    rw [value_compareLayouts]
    by_cases hsame : (layout policy exact).text = (layout policy approximate).text
    · rw [if_pos hsame]
      exact .inl ⟨.inr hsame, rfl, rfl⟩
    · rw [if_neg hsame]
      exact .inr ⟨rfl, hsame, rfl⟩

/-- An exact solution is put together from the reduced term and its approximate value. -/
theorem exists_value_of_ofTerm? {solution : Solution Term}
    (h : (ofTerm? s definitions policy .exact t).value = .ok (some solution)) :
    ∃ z, (reduce s.forDisplay definitions t).value.approximate s.forDisplay [] = .value z ∧
      (ofForms s definitions policy .exact (some (reduce s.forDisplay definitions t).value)
        ((Approximation.value z).toTerm s.complexFormat).value).value = solution := by
  unfold ofTerm? at h
  rw [Build.value_bind, value_forms (by decide)] at h
  have happroximate : (simplifyAndApproximate s definitions t).value.2 =
      (((reduce s.forDisplay definitions t).value.approximate s.forDisplay []).toTerm
        s.complexFormat).value := rfl
  rw [happroximate] at h
  cases hvalue : (reduce s.forDisplay definitions t).value.approximate s.forDisplay [] with
  | nonreal =>
    rw [hvalue] at h
    cases h
  | undefined =>
    rw [hvalue] at h
    cases h
  | value z =>
    refine ⟨z, rfl, ?_⟩
    rw [hvalue] at h
    dsimp only at h
    split at h
    · cases h
    · split_ifs at h
      exact Option.some.inj (Except.ok.inj h)

/-- A number whose text is short enough and not that of its decimal is shown in both forms. -/
theorem showsBoth_of_number {q : Rat} {solution : Solution Term}
    (h : (ofTerm? s definitions policy .exact t).value = .ok (some solution))
    (hnumber : (reduce s.forDisplay definitions t).value = .number q)
    (hlength : (layout policy (.number q)).text.length ≤ policy.maxExactLength)
    (hne : (layout policy (.number q)).text ≠
      (layout policy (Term.ofDouble (Binary64.nearest q))).text) :
    solution.approximate = some (layout policy (Term.ofDouble (Binary64.nearest q))) ∧
      ShowsBoth s definitions policy (.number q) (Term.ofDouble (Binary64.nearest q)) solution := by
  obtain ⟨z, hvalue, hforms⟩ := exists_value_of_ofTerm? h
  obtain ⟨happroximate, hshown⟩ := shows_of_ofForms hforms
  rw [hnumber] at hvalue hshown
  rw [toTerm_of_number hvalue] at happroximate hshown
  refine ⟨happroximate, hshown.resolve_left fun hleft => ?_⟩
  have hkept : exactLayout? policy (.number q) = some (layout policy (.number q)) :=
    if_neg (by simpa [Term.containsDecimal, Term.contains] using hlength)
  rcases hleft.1 with hnone | hsame
  · rw [hkept] at hnone
    cases hnone
  · exact hne hsame

/-- The flag of an exact solution tells the truth. -/
theorem tellsTruth_of_ofTerm? {solution : Solution Term}
    (h : (ofTerm? s definitions policy .exact t).value = .ok (some solution))
    (hexact : (reduce s.forDisplay definitions t).value.IsGaussian) :
    solution.TellsTruth s.forDisplay definitions (reduce s.forDisplay definitions t).value
      policy.significantDigits id := by
  have hshaped := Reduction.everywhere_isShaped_reduce s.forDisplay definitions t
  have hunlike := Reduction.everywhere_hasUnlikeTerms_reduce s.forDisplay definitions t
  obtain ⟨z, hvalue, hforms⟩ := exists_value_of_ofTerm? h
  obtain ⟨happroximate, hshown⟩ := shows_of_ofForms hforms
  generalize (reduce s.forDisplay definitions t).value = exact
    at hvalue hexact hshaped hunlike hforms hshown ⊢
  rcases hshown with ⟨-, hnone, hfalse⟩ | ⟨hsome, hne, hagree⟩
  · refine ⟨fun hflag => ?_, fun q _ hsome => ?_⟩
    · rw [hfalse] at hflag
      cases hflag
    · rw [hnone] at hsome
      cases hsome
  · constructor
    · intro hflag
      rw [hagree] at hflag
      obtain ⟨w, htruth⟩ := textDenotes_of_exactEqualsText hexact hshaped hunlike hflag
      exact ⟨_, w, hsome, happroximate, hne, htruth⟩
    · rintro q rfl -
      refine ⟨_, happroximate, fun hflag => ?_, fun hdenotes => ?_⟩
      · rw [hagree] at hflag
        obtain ⟨w, hdenotes, hsame, -⟩ :=
          textDenotes_of_exactEqualsText hexact hshaped hunlike hflag
        rwa [hsame q (Term.Principal.denotes_number q)]
      · rw [hagree]
        rw [toTerm_of_number hvalue] at hdenotes ⊢
        exact exactEqualsText_of_textDenotes hdenotes

variable {ν μ : Type}

/-- Referring to the forms in another way does not touch the flag. -/
theorem TellsTruth.map {exact : Term} {digits : Nat} {refer : Term → ν} {solution : Solution ν}
    (h : solution.TellsTruth s definitions exact digits refer) (f : ν → μ) :
    (solution.map f).TellsTruth s definitions exact digits (f ∘ refer) := by
  constructor
  · intro hflag
    obtain ⟨approximate, w, hexact, happroximate, hrest⟩ := h.of_formsAgree hflag
    refine ⟨approximate.map f, w, ?_, ?_, hrest⟩
    · simp [Solution.map, hexact, Layout.map]
    · simp [Solution.map, happroximate]
  · intro q hq hshown
    obtain ⟨approximate, happroximate, hiff⟩ :=
      h.of_number q hq (by simpa [Solution.map] using hshown)
    exact ⟨approximate.map f, by simp [Solution.map, happroximate], hiff⟩

end Solution

namespace SolutionRegistry

section Registered

variable {registry registry' : SolutionRegistry Handle} {context context' : Context}
  {solution : Solution Handle}

/-- A value that is a solution is added, if there is room. -/
theorem exists_register {type : SolutionType} {shown : Solution Term}
    (hshown : (Solution.ofTerm? s context.definedTerms policy type t).value = .ok (some shown))
    (hroom : registry.solutions.length < maxSolutions - 1) :
    ∃ registry' context', registry.register context s policy type t =
        .ok (.ok registry', context') ∧
      registry'.solutions = registry.solutions ++ [shown.map context'.pool.handleOf] := by
  unfold register Context.record Pool.record
  simp only [hshown, Option.map_some, add, if_pos hroom]
  exact ⟨_, _, rfl, rfl⟩

/-- A solution that is added refers to the terms of the solution that the value is. -/
theorem exists_ofTerm?_of_register {type : SolutionType}
    (hregister : registry.register context s policy type t = .ok (.ok registry', context'))
    (hsolution : solution ∈ registry'.solutions.drop registry.solutions.length) :
    ∃ shown, (Solution.ofTerm? s context.definedTerms policy type t).value = .ok (some shown) ∧
      solution = shown.map context'.pool.handleOf := by
  unfold register at hregister
  rcases hrecord : context.record
    (Solution.ofTerm? s context.definedTerms policy type t) with ⟨result, context₁⟩
  have hresult : (Solution.ofTerm? s context.definedTerms policy type t).value = result :=
    congrArg Prod.fst hrecord
  rw [hrecord] at hregister
  cases result with
  | error e => cases hregister
  | ok result =>
    obtain ⟨added, hadded, hregister⟩ := exists_of_bind_eq_ok hregister
    cases hregister
    cases result with
    | none =>
      cases hadded
      simp at hsolution
    | some shown =>
      have happended : registry'.solutions =
          registry.solutions ++ [shown.map context'.pool.handleOf] := by
        dsimp only [Option.map_some, add] at hadded
        split_ifs at hadded
        cases hadded
        rfl
      rw [happended, List.drop_left, List.mem_singleton] at hsolution
      exact ⟨shown, hresult, hsolution⟩

/-- Registering a value as exact adds a solution whose flag tells the truth, if the reduced form is
    built from numbers and the imaginary unit. -/
theorem register_tellsTruth
    (hregister : registry.register context s policy .exact t = .ok (.ok registry', context'))
    (hsolution : solution ∈ registry'.solutions.drop registry.solutions.length)
    (hexact : (reduce s.forDisplay context.definedTerms t).value.IsGaussian) :
    solution.TellsTruth s.forDisplay context.definedTerms
      (reduce s.forDisplay context.definedTerms t).value policy.significantDigits
      context'.pool.handleOf := by
  obtain ⟨shown, hshown, rfl⟩ := exists_ofTerm?_of_register hregister hsolution
  exact (Solution.tellsTruth_of_ofTerm? hshown hexact).map context'.pool.handleOf

end Registered

/-- One half is shown as a fraction and as a decimal, and the two are said to agree. -/
theorem register_tellsTruth_half :
    ∃ registry context solution,
      ({} : SolutionRegistry Handle).register {} {} ⟨10, 120⟩ .exact (.number (1 / 2)) =
        .ok (.ok registry, context) ∧
      registry.solutions = [solution] ∧
      solution.TellsTruth ({} : Settings).forDisplay ({} : Context).definedTerms (.number (1 / 2)) 10
        context.pool.handleOf ∧
      (reduce ({} : Settings).forDisplay ({} : Context).definedTerms (.number (1 / 2))).value =
        .number (1 / 2) ∧
      solution.layouts.map Layout.text = ["1/2", "0.5"] ∧ solution.formsAgree = true := by
  have hreduced : (reduce ({} : Settings).forDisplay ({} : Context).definedTerms
      (.number (1 / 2))).value = .number (1 / 2) := rfl
  have hexact : (Term.number (1 / 2)).text 10 = "1/2" := by
    rw [Term.text, Term.write]
    decide +kernel
  have happroximate : (Term.ofDouble (Binary64.nearest (1 / 2))).text 10 = "0.5" := by
    rw [show Term.ofDouble (Binary64.nearest (1 / 2)) = .decimal 0x3fe0000000000000 by
      decide +kernel, Term.text, Term.write]
    rfl
  have hsome : (Solution.listed? {} ({} : Context).definedTerms ⟨10, 120⟩ .exact
      (.number (1 / 2))).isSome = true := by decide +kernel
  obtain ⟨shown, hlisted⟩ := Option.isSome_iff_exists.1 hsome
  have hshown := Solution.ofTerm?_of_listed? hlisted
  obtain ⟨registry, context, hregister, hsolution⟩ :=
    ({} : SolutionRegistry Handle).exists_register hshown (by decide)
  have hadded : shown.map context.pool.handleOf ∈ registry.solutions := by
    rw [hsolution]
    exact List.mem_singleton_self _
  have htruth := register_tellsTruth hregister hadded (hreduced ▸ .number _)
  rw [hreduced] at htruth
  obtain ⟨hdecimal, hboth⟩ := Solution.showsBoth_of_number hshown hreduced
    (by rw [Solution.layout, hexact]; decide)
    (by rw [Solution.layout, Solution.layout, hexact, happroximate]; decide)
  refine ⟨registry, context, _, hregister, hsolution, htruth, hreduced, ?_, ?_⟩
  · rw [← hexact, ← happroximate]
    simp [Solution.map, Solution.layouts, hboth.exact_eq, hdecimal, Layout.map, Solution.layout]
  · obtain ⟨approximate, hsame, hiff⟩ := htruth.of_number (1 / 2) rfl (by
      simp [Solution.map, hboth.exact_eq])
    obtain rfl : (Solution.layout ⟨10, 120⟩ (Term.ofDouble (Binary64.nearest (1 / 2)))).map
        context.pool.handleOf = approximate := by
      simpa [Solution.map, hdecimal] using hsame
    refine hiff.2 ⟨.number (1 / 2), parseExpression_eq_ok_iff.1 ?_,
      Term.Principal.denotes_number _⟩
    show (parseExpression ((Term.ofDouble (Binary64.nearest (1 / 2))).text 10)).value = _
    rw [happroximate]
    decide +kernel

end SolutionRegistry

end EquationSolver
