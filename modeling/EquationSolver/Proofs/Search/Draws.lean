import EquationSolver.Search.Scanner
import Mathlib

/-!
# Collecting what is drawn

Of the places that are drawn one after the other those count that are not below the interval, up to
the first draw that gives no place or one above the interval.  Collecting comes to an end just when
there is such a draw, or when more places count than there is room for, and all draws up to there
come to an end.  Then it gives the first places that count.
-/

namespace EquationSolver

open SearchNumber

/-- What successive calls draw, when all of them come to an end. -/
def draws {α σ : Type} (next : σ → Option (Option α × σ)) : ℕ → σ → Option (List (Option α))
  | 0, _ => some []
  | n + 1, state => do
    let (value, rest) ← next state
    let values ← draws next n rest
    some (value :: values)

section Draws

variable {α σ : Type} {next : σ → Option (Option α × σ)} {n : ℕ} {state rest : σ}
  {value : Option α} {values : List (Option α)}

theorem draws_succ (h : next state = some (value, rest)) :
    draws next (n + 1) state = (draws next n rest).map (value :: ·) := by
  rw [draws, h]
  cases hrest : draws next n rest <;> simp [hrest]

theorem exists_of_draws_succ (h : draws next (n + 1) state = some values) :
    ∃ value rest others, next state = some (value, rest) ∧ draws next n rest = some others ∧
      values = value :: others := by
  obtain ⟨⟨value, rest⟩, hnext, h⟩ := Option.bind_eq_some_iff.1 h
  obtain ⟨others, hothers, hvalues⟩ := Option.bind_eq_some_iff.1 h
  exact ⟨value, rest, others, hnext, hothers, (Option.some.inj hvalues).symm⟩

end Draws

namespace Interval

variable {α σ : Type} [SearchNumber α] {interval : Interval α}

/-- A draw after which no other place counts: it gives no place, or one above the interval. -/
def ends (interval : Interval α) : Option α → Bool
  | none => true
  | some x => less interval.high x

/-- The places that count among what is drawn. -/
def counted (interval : Interval α) (values : List (Option α)) : List α :=
  ((values.takeWhile (!interval.ends ·)).reduceOption).filter (!less · interval.low)

/-- What is drawn settles which places are collected, and whether there are more. -/
def Settles (interval : Interval α) (room : ℕ) (values : List (Option α)) : Prop :=
  values.any interval.ends = true ∨ room < (interval.counted values).length

/-- No place is both below and above the interval. -/
def IsOrdered (interval : Interval α) : Prop :=
  ∀ x, less x interval.low = true → less interval.high x = false

section Counted

variable {x : α} {values : List (Option α)} {room : ℕ}

theorem counted_cons_none : interval.counted (none :: values) = [] :=
  rfl

theorem counted_cons_above (h : less interval.high x = true) :
    interval.counted (some x :: values) = [] := by
  simp [counted, ends, h]

theorem counted_cons_below (hx : less x interval.low = true) (h : less interval.high x = false) :
    interval.counted (some x :: values) = interval.counted values := by
  simp [counted, ends, h, hx]

theorem counted_cons_inside (hx : less x interval.low = false) (h : less interval.high x = false) :
    interval.counted (some x :: values) = x :: interval.counted values := by
  simp [counted, ends, h, hx]

/-- Places that count are neither below the interval nor above it. -/
theorem of_mem_counted (h : x ∈ interval.counted values) :
    some x ∈ values ∧ less x interval.low = false ∧ less interval.high x = false := by
  obtain ⟨hmem, hlow⟩ := List.mem_filter.1 h
  have hmem := List.reduceOption_mem_iff.1 hmem
  refine ⟨(List.takeWhile_sublist _).subset hmem, by simpa using hlow, ?_⟩
  simpa [ends] using List.mem_takeWhile_imp hmem

theorem settles_cons_of_ends {value : Option α} (h : interval.ends value = true) :
    interval.Settles room (value :: values) :=
  .inl (by rw [List.any_cons, h, Bool.true_or])

theorem settles_cons_below (hx : less x interval.low = true) (h : less interval.high x = false) :
    interval.Settles room (some x :: values) ↔ interval.Settles room values := by
  unfold Settles
  rw [counted_cons_below hx h, List.any_cons]
  simp [ends, h]

theorem settles_cons_inside (hx : less x interval.low = false)
    (h : less interval.high x = false) :
    interval.Settles (room + 1) (some x :: values) ↔ interval.Settles room values := by
  unfold Settles
  rw [counted_cons_inside hx h, List.any_cons, List.length_cons, Nat.succ_lt_succ_iff]
  simp [ends, h]

end Counted

section Collect

variable {next : σ → Option (Option α × σ)} {room : ℕ} {state : σ} {values : List (Option α)}
  {found : Found α}

/-- Once it is settled which places are collected, these are the first places that count. -/
theorem collect?_of_settles (hordered : interval.IsOrdered) {n : ℕ}
    (hdraws : draws next n state = some values) (h : interval.Settles room values) :
    interval.collect? next room state =
      some ⟨(interval.counted values).take room,
        decide (room < (interval.counted values).length)⟩ := by
  induction n generalizing room state values with
  | zero =>
    cases hdraws
    rcases h with h | h
    · cases h
    · exact absurd h (Nat.not_lt_zero room)
  | succ n ih =>
    obtain ⟨value, rest, others, hnext, hothers, rfl⟩ := exists_of_draws_succ hdraws
    rw [collect?, hnext, Option.bind_eq_bind, Option.bind_some]
    dsimp only
    cases value with
    | none =>
      rw [counted_cons_none, List.take_nil]
      rfl
    | some x =>
      dsimp only
      split
      case isTrue hlow =>
        have habove := hordered x hlow
        rw [counted_cons_below hlow habove]
        exact ih hothers ((settles_cons_below hlow habove).1 h)
      case isFalse hlow =>
        rw [Bool.not_eq_true] at hlow
        split
        case isTrue habove =>
          rw [counted_cons_above habove, List.take_nil]
          rfl
        case isFalse habove =>
          rw [Bool.not_eq_true] at habove
          rw [counted_cons_inside hlow habove]
          cases room with
          | zero => rfl
          | succ room =>
            dsimp only
            rw [ih hothers ((settles_cons_inside hlow habove).1 h), List.length_cons,
              List.take_succ_cons]
            simp

/-- What has been collected when collecting comes to an end, one case for each draw: there is no
    place, it is below the interval, above it, in it with no room left, or collected. -/
theorem collect?_induction {motive : ℕ → σ → Found α → Prop}
    (exhausted : ∀ room state rest, next state = some (none, rest) → motive room state ⟨[], false⟩)
    (below : ∀ room state x rest found, next state = some (some x, rest) →
      less x interval.low = true → motive room rest found → motive room state found)
    (above : ∀ room state x rest, next state = some (some x, rest) →
      less interval.high x = true → motive room state ⟨[], false⟩)
    (full : ∀ state x rest, next state = some (some x, rest) → less x interval.low = false →
      less interval.high x = false → motive 0 state ⟨[], true⟩)
    (inside : ∀ room state x rest found, next state = some (some x, rest) →
      less x interval.low = false → less interval.high x = false → motive room rest found →
      motive (room + 1) state { found with places := x :: found.places })
    (h : interval.collect? next room state = some found) : motive room state found := by
  refine collect?.partial_correctness interval next motive ?_ room state found h
  intro collect ih room state found h
  obtain ⟨⟨place, rest⟩, hnext, h⟩ := Option.bind_eq_some_iff.1 h
  dsimp only at h
  cases place with
  | none =>
    cases h
    exact exhausted room state rest hnext
  | some x =>
    dsimp only at h
    split at h
    case isTrue hlow => exact below room state x rest found hnext hlow (ih room rest found h)
    case isFalse hlow =>
      split at h
      case isTrue habove =>
        cases h
        exact above room state x rest hnext habove
      case isFalse habove =>
        rw [Bool.not_eq_true] at hlow habove
        cases room with
        | zero =>
          cases h
          exact full state x rest hnext hlow habove
        | succ room =>
          obtain ⟨found', hrest, hfound⟩ := Option.bind_eq_some_iff.1 h
          cases hfound
          exact inside room state x rest found' hnext hlow habove (ih room rest found' hrest)

/-- Collecting comes to an end only when it is settled what is collected. -/
theorem exists_settles_of_collect? (hordered : interval.IsOrdered)
    (h : interval.collect? next room state = some found) :
    ∃ n values, draws next n state = some values ∧ interval.Settles room values := by
  refine collect?_induction (motive := fun room state _ =>
    ∃ n values, draws next n state = some values ∧ interval.Settles room values)
    ?exhausted ?below ?above ?full ?inside h
  case exhausted =>
    intro room state rest hnext
    exact ⟨1, [none], draws_succ hnext, settles_cons_of_ends rfl⟩
  case below =>
    rintro room state x rest - hnext hlow ⟨n, values, hvalues, hsettles⟩
    refine ⟨n + 1, some x :: values, by rw [draws_succ hnext, hvalues]; rfl, ?_⟩
    exact (settles_cons_below hlow (hordered x hlow)).2 hsettles
  case above =>
    intro room state x rest hnext habove
    exact ⟨1, [some x], draws_succ hnext, settles_cons_of_ends habove⟩
  case full =>
    intro state x rest hnext hlow habove
    refine ⟨1, [some x], draws_succ hnext, .inr ?_⟩
    rw [counted_cons_inside hlow habove]
    exact Nat.zero_lt_succ _
  case inside =>
    rintro room state x rest - hnext hlow habove ⟨n, values, hvalues, hsettles⟩
    refine ⟨n + 1, some x :: values, by rw [draws_succ hnext, hvalues]; rfl, ?_⟩
    exact (settles_cons_inside hlow habove).2 hsettles

/-- No more places are collected than there is room for. -/
theorem length_places_le (h : interval.collect? next room state = some found) :
    found.places.length ≤ room := by
  refine collect?_induction (motive := fun room _ found => found.places.length ≤ room)
    ?exhausted ?below ?above ?full ?inside h
  case exhausted => exact fun room _ _ _ => Nat.zero_le room
  case below => exact fun _ _ _ _ _ _ _ hle => hle
  case above => exact fun room _ _ _ _ _ => Nat.zero_le room
  case full => exact fun _ _ _ _ _ _ => Nat.le_refl 0
  case inside => exact fun _ _ _ _ _ _ _ _ hle => Nat.succ_le_succ hle

/-- Collecting comes to an end just when it is settled what is collected. -/
theorem collect?_isSome_iff (hordered : interval.IsOrdered) :
    (interval.collect? next room state).isSome = true ↔
      ∃ n values, draws next n state = some values ∧ interval.Settles room values := by
  constructor
  · intro h
    obtain ⟨found, hfound⟩ := Option.isSome_iff_exists.1 h
    exact exists_settles_of_collect? hordered hfound
  · rintro ⟨n, values, hvalues, hsettles⟩
    rw [collect?_of_settles hordered hvalues hsettles]
    rfl

end Collect

end Interval

/-! ### Where a search ends -/

namespace Scanner

variable {α : Type} [SearchNumber α] {s : Scanner α} {f : α → α}

theorem search?_of_exhausted {before? : Option (Point α)} {left : Point α}
    (h : less left.x s.high = false) : s.search? f before? left = some none := by
  rw [search?, h]
  rfl

/-- A step that is lost in the place leads nowhere: when the next sample is the last one again and
    gives no root away, the search goes on for ever. -/
theorem search?_eq_none_of_stuck {before? : Option (Point α)} {x : α}
    (hless : less x s.high = true) (hstuck : smaller (x + s.step) s.high = x)
    (hfirst : s.rootBefore? f before? (.of f x) (.of f x) = none)
    (hagain : s.rootBefore? f (some (.of f x)) (.of f x) (.of f x) = none) :
    s.search? f before? (.of f x) = none := by
  refine Option.eq_none_iff_forall_ne_some.2 fun found hfound => ?_
  refine search?.partial_correctness s f (fun last left _ =>
    left = .of f x → s.rootBefore? f last left left = none → False) ?_ before? (.of f x) found
      hfound rfl hfirst
  rintro search ih last _ found hfound rfl hlast
  have hnext : Point.of f (smaller ((Point.of f x).x + s.step) s.high) = .of f x :=
    congrArg (Point.of f) hstuck
  rw [if_pos (show less (Point.of f x).x s.high = true from hless)] at hfound
  dsimp only at hfound
  rw [hnext, hlast] at hfound
  exact ih (some (.of f x)) (.of f x) found hfound rfl hagain

theorem draw_of_exhausted (hfresh : (s.fresh && isZero (f s.cursor)) = false)
    (hcursor : less s.cursor s.high = false) : ∃ rest, s.draw f = some (none, rest) := by
  have hroot : s.root? f = some none := by
    unfold root?
    refine (if_neg ?_).trans (search?_of_exhausted hcursor)
    rw [Bool.not_eq_true]
    exact hfresh
  unfold draw nextRoot
  rw [hroot]
  exact ⟨_, rfl⟩

/-- A scanner that is at the end of its interval, and would be after a root at its place, reports
    one root at most. -/
theorem isSome_collect?_of_exhausted {interval : Interval α} {room : ℕ}
    (hcursor : less s.cursor s.high = false)
    (hafter : less (s.placeAfter (s.snapped s.cursor)) s.high = false) :
    (interval.collect? (draw f) room s).isSome = true := by
  have hnone {s rest : Scanner α} {room : ℕ} (h : s.draw f = some (none, rest)) :
      interval.collect? (draw f) room s = some ⟨[], false⟩ := by
    rw [Interval.collect?, h]
    rfl
  cases hfresh : s.fresh && isZero (f s.cursor) with
  | false =>
    obtain ⟨rest, hdraw⟩ := draw_of_exhausted hfresh hcursor
    rw [hnone hdraw]
    rfl
  | true =>
    have hdraw : s.draw f = some ((s.accept (.of f s.cursor)).1.map Point.x,
        (s.accept (.of f s.cursor)).2) := by
      have hroot : s.root? f = some (some (.of f s.cursor)) := if_pos hfresh
      unfold draw nextRoot
      rw [hroot]
      rfl
    obtain ⟨rest, hnext⟩ := draw_of_exhausted (s := (s.accept (.of f s.cursor)).2) (f := f) rfl hafter
    rw [Interval.collect?, hdraw]
    cases hplace : (s.accept (.of f s.cursor)).1 with
    | none => rfl
    | some root =>
      cases room <;> simp [hnone hnext] <;> split_ifs <;> rfl

end Scanner

end EquationSolver
