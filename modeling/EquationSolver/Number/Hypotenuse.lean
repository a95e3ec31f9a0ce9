/-!
# Lengths of vectors

The length of a vector of doubles.  The root of the sum of the squares carries the rounding
errors of the squares, of their sum and of the root itself.  What its square is too large by
can be computed almost without loss from the differences of the sides, and one step of
Newton's method takes the error out again: the length of the vector `(cos t, sin t)` comes
out as one.
-/

namespace EquationSolver

namespace Hypotenuse

/-! ### Sides of moderate size -/

/-- How much the square of an estimate `h` of the hypotenuse exceeds the sum of the squares
    of the sides, where `b ≤ a`: the same polynomial `h² - a² - b²` written with the
    difference of the estimate and the nearer side. -/
def excess (a b h : Float) : Float :=
  if h ≤ 2 * b then
    let d := h - b
    a * (2 * d - a) + (d - 2 * (a - b)) * d
  else
    let d := h - a
    2 * d * (a - 2 * b) + ((4 * d - b) * b + d * d)

/-- The hypotenuse of sides `b ≤ a` whose squares neither overflow nor vanish: the root of
    the sum of the squares and one step of Newton's method. -/
def corrected (a b : Float) : Float :=
  let h := (a * a + b * b).sqrt
  h - excess a b h / (2 * h)

/-! ### Sides of any size -/

/-- The factor `2 ^ 600`, by which sides are brought to a moderate size. -/
def scale : Float := Float.ofBits 0x6570000000000000

/-- The side `2 ^ 511`, beyond which squares may overflow. -/
def largeSide : Float := Float.ofBits 0x5FE0000000000000

/-- The side `2 ^ -459`, below which squares may lose digits. -/
def smallSide : Float := Float.ofBits 0x2340000000000000

/-- The ratio `2 ^ -54`, up to which the shorter side does not change the longer one. -/
def negligibleSide : Float := Float.ofBits 0x3C90000000000000

/-- The hypotenuse of finite sides `b ≤ a` that are not negative. -/
def ofSides (a b : Float) : Float :=
  if largeSide < a then
    if b ≤ a * negligibleSide then a + b else corrected (a / scale) (b / scale) * scale
  else if b < smallSide then
    if b / negligibleSide ≤ a then a + b else corrected (a * scale) (b * scale) / scale
  else if b ≤ a * negligibleSide then a + b
  else corrected a b

end Hypotenuse

/-- The length of a vector of doubles.  An infinite part makes it infinite, whatever the
    other part is. -/
def hypotenuse (x y : Float) : Float :=
  if x.isInf || y.isInf then 1 / 0
  else if x.isNaN || y.isNaN then 0 / 0
  else
    let a := x.abs
    let b := y.abs
    if a < b then Hypotenuse.ofSides b a else Hypotenuse.ofSides a b

end EquationSolver
