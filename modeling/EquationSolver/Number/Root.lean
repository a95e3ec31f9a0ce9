/-!
# Integer roots, perfect powers and divisors

`floorRoot a n` is the floor of the `n`-th root of `a`, found by halving an
interval that is known to hold it; `exactRoot?` keeps it when `a` is a perfect
power.  `splitPower a n` writes `a` as `u ^ n * v`, removing the `n`-th powers of
the small numbers by trial division and a perfect `n`-th power of any size at
the end.

The positive divisors of an integer are listed in increasing order, for magnitudes
small enough to enumerate: those up to the square root are found by trial, each of
them names its cofactor, and the cofactors follow in reverse.
-/

namespace EquationSolver

/-! ### Floors of roots -/

/-- The number of binary digits of `a`; zero has none. -/
def bitLength (a : Nat) : Nat :=
  if a = 0 then 0 else a.log2 + 1

/-- Halve the interval from `low` to `high` until it has width one, keeping
    `low ^ n ≤ a < high ^ n`. -/
def rootBetween (a n low high : Nat) : Nat :=
  if low + 1 < high then
    let middle := (low + high) / 2
    if Nat.pow middle n ≤ a then rootBetween a n middle high else rootBetween a n low middle
  else
    low
termination_by high - low
decreasing_by all_goals omega

/-- The floor of the `n`-th root of `a`, for `n ≥ 1`.  The root has at most
    `bitLength a / n + 1` binary digits, which gives the first upper bound. -/
def floorRoot (a n : Nat) : Nat :=
  if a = 0 ∨ n = 1 then a else rootBetween a n 0 (Nat.pow 2 (bitLength a / n + 1))

def exactRoot? (a n : Nat) : Option Nat :=
  let root := floorRoot a n
  if Nat.pow root n = a then some root else none

/-! ### Perfect powers -/

def trialDivisionLimit : Nat := 10000

/-- The trial divisors in increasing order: two and the odd numbers up to the limit. -/
def trialDivisors : List Nat :=
  2 :: (List.range ((trialDivisionLimit - 1) / 2)).map (2 * · + 3)

/-- Divide `inside` by `power` as often as it goes, multiplying `outside` by
    `divisor` each time. -/
def removePower (divisor power outside inside : Nat) : Nat × Nat :=
  if 1 < power ∧ 0 < inside ∧ inside % power = 0 then
    removePower divisor power (outside * divisor) (inside / power)
  else
    (outside, inside)
termination_by inside
decreasing_by
  rename_i h
  exact Nat.div_lt_self h.2.1 h.1

/-- Remove the `n`-th powers of the trial divisors one after the other, stopping
    at the first whose power exceeds what is left. -/
def removeSmallPowers (n : Nat) : List Nat → Nat × Nat → Nat × Nat
  | [], split => split
  | divisor :: rest, (outside, inside) =>
    let power := Nat.pow divisor n
    if inside < power then (outside, inside)
    else removeSmallPowers n rest (removePower divisor power outside inside)

/-- Write `a` as `u ^ n * v` and return `(u, v)`.  Powers of the trial divisors
    go into `u`, and so does the whole rest when it is itself a perfect power. -/
def splitPower (a n : Nat) : Nat × Nat :=
  if a = 0 ∨ n < 2 then (1, a)
  else
    let (outside, inside) := removeSmallPowers n trialDivisors (1, a)
    match exactRoot? inside n with
    | some root => (outside * root, 1)
    | none => (outside, inside)

/-! ### Divisors -/

def divisorEnumerationLimit : Nat := 1000000000000

/-- The positive divisors of `n ≥ 1` in increasing order. -/
def divisors (n : Nat) : List Nat :=
  let small := (List.range' 1 (floorRoot n 2)).filter fun d => n % d = 0
  let large := (small.filter fun d => d ≠ n / d).map (n / ·)
  small ++ large.reverse

/-- The positive divisors of `|n|`, unless `n` is zero or too large to enumerate. -/
def divisors? (n : Int) : Option (List Nat) :=
  if n = 0 ∨ divisorEnumerationLimit < n.natAbs then none else some (divisors n.natAbs)

end EquationSolver
