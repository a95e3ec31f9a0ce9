import EquationSolver.Proofs.Solver.Symbols
import EquationSolver.Proofs.Value.Reduction

/-!
# Affine coefficients are exact

The coefficients that are read off a term mention no variable, and the term is the sum of the
variables times their coefficients and of the constant, wherever it has a value.  Nothing is read
off exactly if a factor depends on a variable without being one, or two factors of a term do.
-/

namespace EquationSolver

open Reduction (Settings)

namespace Coefficients

variable {s : Settings} {names : List String} {t u : Term} {fs : List Term}

/-! ### Terms that are not linear -/

theorem mapM_eq_none_iff {α β : Type} {f : α → Option β} {items : List α} :
    items.mapM f = none ↔ ∃ a ∈ items, f a = none := by
  constructor
  · intro h
    by_contra hall
    push Not at hall
    obtain ⟨found, hfound⟩ :=
      exists_mapM_eq_some fun a ha => Option.ne_none_iff_exists'.1 (hall a ha)
    rw [h] at hfound
    cases hfound
  · rintro ⟨a, ha, hnone⟩
    cases hfound : items.mapM f with
    | none => rfl
    | some found =>
      have hall := List.forall₂_iff_get.1 (forall₂_of_mapM hfound)
      obtain ⟨i, hi, rfl⟩ := List.mem_iff_getElem.1 ha
      have hsome := hall.2 i hi (hall.1 ▸ hi)
      rw [List.get_eq_getElem, hnone] at hsome
      cases hsome

/-- A factor depends on a variable without being one, or two factors depend on variables. -/
def IsNonlinear (names : List String) (u : Term) : Prop :=
  (∃ f ∈ factors u, f.dependsOn names = true ∧ ∀ name, f ≠ .symbol name) ∨
    2 ≤ ((factors u).filter fun f => f.dependsOn names).length

section Factors

variable {part : AffineTerm} {f : Term}

theorem addFactor_of_constant (h : f.dependsOn names = false) :
    part.addFactor names f = some { part with coefficient := part.coefficient ++ [f] } :=
  if_pos (by rw [h]; rfl)

/-- The first variable is noted. -/
theorem addFactor_of_symbol {name : String} (hunknown : part.unknown = none)
    (h : (Term.symbol name).dependsOn names = true) :
    ∃ i, part.addFactor names (.symbol name) = some { part with unknown := some i } := by
  have hmem : name ∈ names := by simpa [Term.dependsOn, Term.contains] using h
  obtain ⟨i, hi⟩ := Option.isSome_iff_exists.1 (List.isSome_idxOf?.2 hmem)
  refine ⟨i, ?_⟩
  unfold AffineTerm.addFactor
  simp [h, hunknown, hi]

/-- No other factor may depend on variables. -/
theorem addFactor_eq_none (h : f.dependsOn names = true)
    (hother : part.unknown ≠ none ∨ ∀ name, f ≠ .symbol name) : part.addFactor names f = none := by
  unfold AffineTerm.addFactor
  rw [if_neg (by rw [h]; decide)]
  split
  case h_1 name hunknown => exact absurd rfl (hother.resolve_left (not_not.2 hunknown) name)
  case h_2 => rfl

/-- Behind a variable, factors are taken in as long as none depends on variables. -/
theorem foldlM_eq_none_of_unknown (hunknown : part.unknown ≠ none) :
    fs.foldlM (AffineTerm.addFactor names) part = none ↔ ∃ f ∈ fs, f.dependsOn names = true := by
  induction fs generalizing part with
  | nil => simp
  | cons f rest ih =>
    rw [List.foldlM_cons, List.exists_mem_cons_iff]
    cases hdepends : f.dependsOn names with
    | false =>
      rw [addFactor_of_constant hdepends]
      simpa using @ih { part with coefficient := part.coefficient ++ [f] } hunknown
    | true =>
      rw [addFactor_eq_none hdepends (.inl hunknown)]
      simp

theorem foldlM_eq_none_iff (hunknown : part.unknown = none) :
    fs.foldlM (AffineTerm.addFactor names) part = none ↔
      (∃ f ∈ fs, f.dependsOn names = true ∧ ∀ name, f ≠ .symbol name) ∨
        2 ≤ (fs.filter fun f => f.dependsOn names).length := by
  induction fs generalizing part with
  | nil => simp
  | cons f rest ih =>
    rw [List.foldlM_cons, List.exists_mem_cons_iff]
    cases hdepends : f.dependsOn names with
    | false =>
      rw [addFactor_of_constant hdepends, List.filter_cons_of_neg (by simp [hdepends])]
      simpa using @ih { part with coefficient := part.coefficient ++ [f] } hunknown
    | true =>
      rw [List.filter_cons_of_pos (by exact hdepends), List.length_cons]
      by_cases hsymbol : ∃ name, f = .symbol name
      · obtain ⟨name, rfl⟩ := hsymbol
        obtain ⟨i, hi⟩ := addFactor_of_symbol hunknown hdepends
        rw [hi]
        refine (foldlM_eq_none_of_unknown (Option.some_ne_none i)).trans ?_
        have hcount : (∃ f ∈ rest, f.dependsOn names = true) ↔
            1 ≤ (rest.filter fun f => f.dependsOn names).length := by
          rw [Nat.one_le_iff_ne_zero, Ne, List.length_eq_zero_iff, List.filter_eq_nil_iff]
          simp
        refine ⟨fun h => .inr (Nat.succ_le_succ (hcount.1 h)), ?_⟩
        rintro ((⟨-, hother⟩ | ⟨f, hf, hdepends, -⟩) | h)
        · exact absurd rfl (hother name)
        · exact ⟨f, hf, hdepends⟩
        · exact hcount.2 (Nat.le_of_succ_le_succ h)
      · rw [addFactor_eq_none hdepends (.inr fun name hname => hsymbol ⟨name, hname⟩)]
        push Not at hsymbol
        simp [hsymbol]

end Factors

theorem affineTerm?_eq_none_iff : affineTerm? names u = none ↔ IsNonlinear names u :=
  foldlM_eq_none_iff rfl

/-! ### Coefficients -/

section Coefficients

variable {build : Build (List Term × Term)} {parts : List AffineTerm}

/-- Coefficients are made of factors that mention no variable. -/
theorem mentionsOnly_coefficients {τ : Type} {read : Term → Option τ}
    {coefficient : τ → List Term} (hconstant : ∀ u part, read u = some part →
      ∀ f ∈ coefficient part, f.dependsOn names = false) {found : List τ}
    (hread : (Reduction.summands t).mapM read = some found) :
    ∀ f ∈ found.flatMap coefficient, f.MentionsOnly fun name => name ∉ names := by
  intro f hf name hmentions hname
  obtain ⟨part, hpart, hf⟩ := List.mem_flatMap.1 hf
  obtain ⟨u, -, hu⟩ := exists_of_mem_forall₂ (forall₂_of_mapM hread) hpart
  have hindependent := hconstant u part hu f hf
  rw [hmentions.dependsOn hname] at hindependent
  cases hindependent

theorem not_mentions_of_linear?
    (hread : (Reduction.summands t).mapM (affineTerm? names) = some parts)
    (h : linear? s names t = some build) :
    ∀ c ∈ build.value.2 :: build.value.1, ∀ name ∈ names, ¬ c.Mentions name := by
  have hfactors := mentionsOnly_coefficients (fun u part hu f hf =>
    ((isAffineTerm_of_affineTerm? (.real fun _ => 0) hu).mem_factors f hf).2) hread
  have honly := (startsFrom_affineTerms hread h).mentionsOnly (addsNoSymbol_linear? h) hfactors
  intro c hc name hname hmentions
  refine honly c ?_ name hmentions hname
  rcases List.mem_cons.1 hc with rfl | hc
  · simp
  · simp [hc]

/-- A sum over two lists in step is one over their places. -/
theorem sum_zipWith {K : Type*} [Field K] (f : Term → String → K) :
    ∀ {coefficients : List Term} {names : List String}, coefficients.length = names.length →
      (List.zipWith f coefficients names).sum =
        ∑ j ∈ Finset.range names.length, f (coefficients.getD j .zero) (names.getD j "")
  | [], [], _ => rfl
  | c :: rest, name :: others, h => by
    have hrest := sum_zipWith f (Nat.succ.inj h)
    rw [List.zipWith_cons_cons, List.sum_cons, hrest, List.length_cons, Finset.sum_range_succ',
      add_comm]
    simp

variable {K : Type*} [Field K] [CharZero K]

/-- Wherever the term has a value, it is the affine function of the variables. -/
theorem value_eq_of_linear? {V : Valuation K} (hroots : Reduction.DrawsRoots V s)
    (h : linear? s names t = some build) (ht : V.HasValue t) :
    (∀ c ∈ build.value.2 :: build.value.1, V.HasValue c) ∧
      V.value t = (List.zipWith (fun c name => V.value c * V.symbol name) build.value.1 names).sum +
        V.value build.value.2 := by
  obtain ⟨parts, hread, -⟩ := Option.map_eq_some_iff.1 h
  obtain ⟨hcoefficients, hconstant⟩ := linear?_denotes hroots hread h ht
  have hlength := length_linear? h
  have hdenotes : ∀ j < names.length,
      V.Denotes (build.value.1.getD j .zero) (coefficientOf V parts (some j)) := by
    intro j hj
    obtain ⟨c, hc, hdenotes⟩ := hcoefficients j hj
    rw [List.getD_eq_getElem?_getD, hc]
    exact hdenotes
  constructor
  · intro c hc
    rcases List.mem_cons.1 hc with rfl | hc
    · exact hconstant.hasValue
    · obtain ⟨j, hj, rfl⟩ := List.mem_iff_getElem.1 hc
      have hvalue := (hdenotes j (hlength ▸ hj)).hasValue
      rwa [List.getD_eq_getElem?_getD, List.getElem?_eq_getElem hj] at hvalue
  · rw [sum_zipWith _ hlength, value_eq_of_parts hread, hconstant.value_eq]
    refine congrArg (· + _) (Finset.sum_congr rfl fun j hj => ?_)
    rw [(hdenotes j (Finset.mem_range.1 hj)).value_eq]
    rfl

theorem value_of_linear? (ρ : Assignment K) (h : linear? s names t = some build)
    (ht : t.HasValue ρ) :
    (∀ c ∈ build.value.2 :: build.value.1, c.HasValue ρ) ∧
      t.value ρ = (List.zipWith (fun c name => c.value ρ * ρ.symbol name) build.value.1 names).sum +
        build.value.2.value ρ := by
  have hvalue := value_eq_of_linear? (Reduction.drawsRoots_valuation ρ s) h
    ((Assignment.hasValue_valuation t).2 ht)
  simp only [Assignment.hasValue_valuation, Assignment.value_valuation] at hvalue
  exact hvalue

variable (K) in
/-- Affine coefficients are exact: there is one for each variable, no variable occurs in them, and
    the term is the affine function that they are the coefficients of.  They are read off every
    term, unless one of its summands is not linear in the variables. -/
theorem linear_exact (s : Settings) (names : List String) (t : Term) :
    (∀ build, linear? s names t = some build →
      build.value.1.length = names.length ∧
      (∀ c ∈ build.value.2 :: build.value.1, ∀ name ∈ names, ¬ c.Mentions name) ∧
      ∀ ρ : Assignment K, t.HasValue ρ →
        (∀ c ∈ build.value.2 :: build.value.1, c.HasValue ρ) ∧
        t.value ρ =
          (List.zipWith (fun c name => c.value ρ * ρ.symbol name) build.value.1 names).sum +
            build.value.2.value ρ) ∧
      (linear? s names t = none ↔ ∃ u ∈ Reduction.summands t, IsNonlinear names u) := by
  constructor
  · intro build h
    obtain ⟨parts, hread, -⟩ := Option.map_eq_some_iff.1 h
    exact ⟨length_linear? h, not_mentions_of_linear? hread h,
      fun ρ => value_of_linear? ρ h⟩
  · rw [linear?, Option.map_eq_none_iff, mapM_eq_none_iff]
    simp only [affineTerm?_eq_none_iff]

/-- `a·x + 2·x - 3·y - 5` is an affine function of `x` and `y`, with `a` in a coefficient. -/
theorem linear_exact_plane :
    let t := Term.sum [.product [.symbol "a", .symbol "x"], .product [.number 2, .symbol "x"],
      .product [.number (-3), .symbol "y"], .number (-5)]
    ∃ build, linear? { target := .analysis } ["x", "y"] t = some build ∧
      build.value.1.length = 2 ∧ ¬ build.value.2.Mentions "x" ∧
      t.value (GaussianRat.assign 1) =
        (List.zipWith (fun c name => c.value (GaussianRat.assign 1) *
          (GaussianRat.assign 1).symbol name) build.value.1 ["x", "y"]).sum +
            build.value.2.value (GaussianRat.assign 1) := by
  intro t
  obtain ⟨build, hbuild⟩ : ∃ build, linear? { target := .analysis } ["x", "y"] t = some build :=
    ⟨_, rfl⟩
  have ht : t.HasValue (GaussianRat.assign 1) := by
    simp [t, Term.HasValue, Term.HaveValues]
  obtain ⟨hlength, hmentions, hvalue⟩ := (linear_exact GaussianRat _ _ t).1 build hbuild
  exact ⟨build, hbuild, hlength, hmentions _ List.mem_cons_self "x" (by simp), (hvalue _ ht).2⟩

end Coefficients

end Coefficients

end EquationSolver
