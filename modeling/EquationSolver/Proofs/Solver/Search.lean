import EquationSolver.Proofs.Number.Nearest
import EquationSolver.Proofs.Search.Draws
import EquationSolver.Proofs.Solver.Session

/-!
# What a numeric search reports

A numeric search draws the roots of an equation from a scanner and keeps those in the interval, of
which there is room for ten.  The roots below the interval take up no room, the first one above it
ends the search, and an eleventh root in the interval only tells that there are more.
-/

namespace EquationSolver

open SearchNumber Binary64

/-! ### Intervals of doubles -/

theorem exists_word_of_atMost {x y : Float} (h : atMost x y = true) :
    ∃ k l, HasWord x.toModel.unpack k ∧ HasWord y.toModel.unpack l ∧ k ≤ l := by
  rcases Bool.or_eq_true_iff.1 h with hless | hsame
  · have hlt : x < y := of_decide_eq_true hless
    obtain ⟨⟨k, hk⟩, l, hl⟩ := exists_hasWord_of_compare (lt_iff_compare.1 hlt)
    exact ⟨k, l, hk, hl, ((hk.lt_iff hl).1 hlt).le⟩
  · have hbeq : (x == y) = true := hsame
    obtain ⟨⟨k, hk⟩, l, hl⟩ := exists_hasWord_of_compare (beq_iff_compare.1 hbeq)
    exact ⟨k, l, hk, hl, ((hk.beq_iff hl).1 hbeq).le⟩

theorem Interval.isOrdered_of_atMost {interval : Interval Float}
    (h : atMost interval.low interval.high = true) : interval.IsOrdered := by
  obtain ⟨k, l, hk, hl, hkl⟩ := exists_word_of_atMost h
  intro x hx
  have hx : x < interval.low := of_decide_eq_true hx
  obtain ⟨⟨m, hm⟩, -⟩ := exists_hasWord_of_compare (lt_iff_compare.1 hx)
  refine decide_eq_false fun habove => ?_
  have hmk := (hm.lt_iff hk).1 hx
  have hlm := (hl.lt_iff hm).1 habove
  omega

/-- A finite double that is neither below the interval nor above it lies in it. -/
theorem Interval.mem_of_not_less {interval : Interval Float}
    (h : atMost interval.low interval.high = true) {x : Float} (hx : x.isFinite = true)
    (hlow : less x interval.low = false) (hhigh : less interval.high x = false) :
    interval.low ≤ x ∧ x ≤ interval.high := by
  obtain ⟨k, l, hk, hl, -⟩ := exists_word_of_atMost h
  have hword := exists_hasWord_of_isFinite hx
  exact ⟨le_of_not_lt hword ⟨k, hk⟩ (of_decide_eq_false hlow),
    le_of_not_lt ⟨l, hl⟩ hword (of_decide_eq_false hhigh)⟩

theorem atMost_of_start {settings : ScanSettings Float} {low high : Float}
    {scanner : Scanner Float} (h : Scanner.start settings low high = .ok scanner) :
    atMost low high = true := by
  unfold Scanner.start at h
  cases hbounds : atMost low high with
  | true => rfl
  | false =>
    rw [hbounds] at h
    cases h

namespace EquationSystem

/-- The solution that a root is. -/
def rootSolution (x : Float) : Solution Handle :=
  { value := x, type := .approximate }

theorem solutions_addValues {places : List Float} (h : ∀ x ∈ places, x.isFinite = true)
    (registry : SolutionRegistry Handle)
    (hroom : registry.solutions.length + places.length ≤ maxSolutions) :
    (places.foldl SolutionRegistry.addValue registry).solutions =
      registry.solutions ++ places.map rootSolution := by
  induction places generalizing registry with
  | nil => exact (List.append_nil _).symm
  | cons x rest ih =>
    obtain ⟨hx, hrest⟩ := List.forall_mem_cons.1 h
    rw [List.length_cons] at hroom
    have hadd : registry.addValue x = ⟨registry.solutions ++ [rootSolution x]⟩ := by
      unfold SolutionRegistry.addValue
      rw [hx, Bool.true_and, if_pos (decide_eq_true (by omega))]
      rfl
    rw [List.foldl_cons, hadd, ih hrest]
    · rw [List.map_cons, List.append_assoc]
      rfl
    · rw [List.length_append, List.length_singleton]
      omega

/-- The system after the places that are drawn one after the other have been collected, if that
    comes to an end. -/
def collecting {σ : Type} (system : EquationSystem) (interval : Interval Float)
    (next : σ → Option (Option Float × σ)) (state : σ) : Option EquationSystem :=
  (interval.collect? next maxApproximateSolutions state).map system.withFound

/-- What is reported of places that are drawn one after the other: the first ten of those in the
    interval become solutions, and there are more just when there is an eleventh. -/
structure Reports (interval : Interval Float) (values : List (Option Float))
    (reported : EquationSystem) : Prop where
  solutions_eq : reported.solutions =
    ((interval.counted values).take maxApproximateSolutions).map rootSolution
  bounds : ∀ solution ∈ reported.solutions,
    interval.low ≤ solution.value ∧ solution.value ≤ interval.high
  hasMore_iff : reported.attempt.hasMore = true ↔
    maxApproximateSolutions < (interval.counted values).length

/-- Whatever is drawn, the first ten places in the interval become solutions. -/
theorem collecting_of_settles {σ : Type} (system : EquationSystem) {interval : Interval Float}
    (hinterval : atMost interval.low interval.high = true)
    {next : σ → Option (Option Float × σ)} {state : σ} {n : ℕ} {values : List (Option Float)}
    (hdraws : draws next n state = some values)
    (hfinite : ∀ x, some x ∈ values → x.isFinite = true)
    (hsettles : interval.Settles maxApproximateSolutions values) :
    ∃ reported, system.collecting interval next state = some reported ∧
      Reports interval values reported := by
  have hkept {x : Float} (hx : x ∈ (interval.counted values).take maxApproximateSolutions) :
      x.isFinite = true ∧ interval.low ≤ x ∧ x ≤ interval.high := by
    obtain ⟨hdrawn, hlow, hhigh⟩ := Interval.of_mem_counted (List.mem_of_mem_take hx)
    have hx := hfinite x hdrawn
    exact ⟨hx, Interval.mem_of_not_less hinterval hx hlow hhigh⟩
  let found : Found Float := ⟨(interval.counted values).take maxApproximateSolutions,
    decide (maxApproximateSolutions < (interval.counted values).length)⟩
  have hsolutions : (system.withFound found).solutions =
      ((interval.counted values).take maxApproximateSolutions).map rootSolution := by
    refine (solutions_addValues (fun x hx => (hkept hx).1) {} ?_).trans (List.nil_append _)
    refine (Nat.zero_add _).trans_le ((List.length_take_le _ _).trans ?_)
    decide
  refine ⟨system.withFound found, ?_, hsolutions, fun solution hsolution => ?_, decide_eq_true_iff⟩
  · unfold collecting
    rw [Interval.collect?_of_settles (Interval.isOrdered_of_atMost hinterval) hdraws hsettles]
    rfl
  · rw [hsolutions] at hsolution
    obtain ⟨x, hx, rfl⟩ := List.mem_map.1 hsolution
    exact (hkept hx).2

/-! ### The search of a system -/

variable {preferences : Preferences} {store : EquationStore} {context left : Context}
  {system searched : EquationSystem} {unknown : String} {interval : Interval Float}

/-- A numeric search collects the roots that its scanner draws. -/
theorem exists_searches (hkind : system.attempt.kind = some (.general unknown interval))
    (hsolve : (system.approximateSolve preferences store context).run =
      some (.ok (.ok searched, left))) :
    ∃ scanner f, system.Searches preferences store context unknown interval scanner f ∧
      system.collecting interval (Scanner.draw f) scanner.stretch = some searched := by
  unfold approximateSolve at hsolve
  rw [hkind] at hsolve
  split at hsolve
  case h_1 unknown' interval' equation heq hstore =>
    cases heq
    obtain ⟨scanner, hstart, hsolve⟩ := Unbounded.exists_of_except_bind hsolve
    obtain ⟨l, hl, hsolve⟩ := Unbounded.exists_of_except_bind hsolve
    obtain ⟨r, hr, hsolve⟩ := Unbounded.exists_of_except_bind hsolve
    obtain ⟨found, hfound, hsolve⟩ := Unbounded.exists_of_option_bind hsolve
    cases hsolve
    exact ⟨scanner, _, ⟨hstart, equation, l, r, hstore, hl, hr, rfl⟩,
      congrArg (Option.map system.withFound) hfound⟩
  case h_2 => cases hsolve

/-- What a numeric search of a system with a general equation reports.  It collects the roots that
    the scanner draws.  Whatever sequence of finite places is drawn, collecting comes to an end just
    when the draws come to one that gives no place, or one above the interval, or an eleventh in it.
    The solutions are then the first ten of the places not below the interval, in order, and all of
    them lie in it; there are more just when there is an eleventh. -/
theorem approximateSolve_reports (hkind : system.attempt.kind = some (.general unknown interval))
    (hsolve : (system.approximateSolve preferences store context).run =
      some (.ok (.ok searched, left))) :
    (∃ scanner f, system.Searches preferences store context unknown interval scanner f ∧
      system.collecting interval (Scanner.draw f) scanner.stretch = some searched) ∧
    ∀ (σ : Type) (next : σ → Option (Option Float × σ)) (state : σ),
      ((interval.collect? next maxApproximateSolutions state).isSome = true ↔
        ∃ n values, draws next n state = some values ∧
          interval.Settles maxApproximateSolutions values) ∧
      ∀ n values, draws next n state = some values →
        (∀ x, some x ∈ values → x.isFinite = true) →
        interval.Settles maxApproximateSolutions values →
        ∃ reported, system.collecting interval next state = some reported ∧
          reported.solutions =
            ((interval.counted values).take maxApproximateSolutions).map rootSolution ∧
          (∀ solution ∈ reported.solutions,
            interval.low ≤ solution.value ∧ solution.value ≤ interval.high) ∧
          (reported.attempt.hasMore = true ↔
            maxApproximateSolutions < (interval.counted values).length) := by
  obtain ⟨scanner, f, hsearches, hsearched⟩ := exists_searches hkind hsolve
  have hinterval := atMost_of_start hsearches.start_eq
  refine ⟨⟨scanner, f, hsearches, hsearched⟩, fun σ next state => ⟨?_, ?_⟩⟩
  · exact Interval.collect?_isSome_iff (Interval.isOrdered_of_atMost hinterval)
  · intro n values hdraws hfinite hsettles
    obtain ⟨reported, hreported, hreports⟩ :=
      system.collecting_of_settles hinterval hdraws hfinite hsettles
    exact ⟨reported, hreported, hreports.solutions_eq, hreports.bounds, hreports.hasMore_iff⟩

/-- After an exact solve of `cos(x) = x` a search at the point 1 comes to an answer.  Of the places
    -20, 1 and 20 it reports the second. -/
theorem approximateSolve_reports_fixedPoint :
    let context := Context.ofTerms Session.fixedPointSides []
    let store := EquationStore.ofSides context.pool Session.fixedPointEquations
    ∃ (system searched : EquationSystem) (left : Context) (interval : Interval Float),
      system.attempt.kind = some (.general "x" interval) ∧
      (system.approximateSolve {} store context).run = some (.ok (.ok searched, left)) ∧
      ∃ reported,
        system.collecting interval (fun places => some (places.head?, places.tail)) [-20, 1, 20] =
          some reported ∧
        reported.solutions = [rootSolution 1] := by
  intro context store
  obtain ⟨session, searched, left, -, hkind, -, hsolve⟩ := Session.exists_approximateSolve_point
  obtain ⟨-, hreports⟩ := (approximateSolve_reports hkind hsolve).2 (List Float)
    (fun places => some (places.head?, places.tail)) [-20, 1, 20]
  have hfinite : ∀ x, some x ∈ [some (-20 : Float), some 1, some 20] → x.isFinite = true := by
    intro x hx
    simp only [List.mem_cons, Option.some_inj, List.not_mem_nil, or_false] at hx
    rcases hx with rfl | rfl | rfl <;> decide
  obtain ⟨reported, hreported, hsolutions, -⟩ :=
    hreports 3 [some (-20), some 1, some 20] rfl hfinite (.inl (by decide))
  have hcounted : Session.pointSettings.interval.counted [some (-20), some 1, some 20] = [1] := by
    decide
  exact ⟨session.system, searched, left, _, hkind, hsolve, reported, hreported,
    hsolutions.trans (congrArg (fun places => (places.take 10).map rootSolution) hcounted)⟩

end EquationSystem

end EquationSolver
