import RegionCalculus.Number.Binary64

/-!
# The shortest decimal of a number

The rationals that round to a number of the binary64 format form an interval around it. The shortest
decimal of the number is taken from the coarsest grid of decimals that meets this interval, and of
the points in the interval it is the nearest to the number.

* `Measure`: what a quarter unit of the number and a step of the grid have in common.
* `roundsTo m e g c`: `c` steps of the grid lie in the interval of `m` units with exponent `e`.
* `onGrid? m e t`: the number of steps of `10 ^ t` that is selected, if one is in the interval.
* `shortest negative m e`: the shortest decimal.

The coarsest grid that is tried has no point but zero below the interval, and the finest one has the
number itself as a point.
-/

namespace RegionCalculus.Number
set_option autoImplicit false

/-! ## The interval -/

/-- A quarter of a unit of a number and a step of a grid of decimals, as multiples of one part. -/
structure Measure where
  quarter : Nat
  step : Nat
deriving DecidableEq

/-- The measure of the units with exponent `e` and of the grid of the multiples of `10 ^ t`. -/
def measure (e t : Int) : Measure where
  quarter := Nat.pow 10 (-t).toNat <<< (e - 2).toNat
  step := Nat.pow 10 t.toNat <<< (2 - e).toNat

/-- The number of quarter units at the lower end of the interval of `m` units. Below a power of two
the numbers of the format lie twice as dense, unless the unit is the least one. -/
def lowerQuarters (m : Nat) (e : Int) : Nat :=
  if m = Binary64.fullUnits ∧ Binary64.leastExponent < e then 4 * m - 1 else 4 * m - 2

/-- The number of quarter units at the upper end of the interval of `m` units. -/
def upperQuarters (m : Nat) : Nat := 4 * m + 2

/-- A point of `c` steps lies in the interval of `m` units. The ends belong to the interval if the
number of units is even. -/
def roundsTo (m : Nat) (e : Int) (g : Measure) (c : Nat) : Bool :=
  let lower := lowerQuarters m e * g.quarter
  let upper := upperQuarters m * g.quarter
  let point := c * g.step
  (lower < point ∧ point < upper) ∨ (m % 2 = 0 ∧ (lower = point ∨ point = upper))

/-! ## The selection -/

/-- The point of the grid of `10 ^ t` that is selected for `m` units: the nearest, or else the other
neighbour, if it lies in the interval. -/
def onGrid? (m : Nat) (e t : Int) : Option Nat :=
  let g := measure e t
  let exact := 4 * m * g.quarter
  [roundDiv exact g.step, exact / g.step, exact / g.step + 1].find? (roundsTo m e g)

/-- An exponent of ten with which one step is greater than `m` units with exponent `e`. Ten to the
power `0.30103` is a little more than two. -/
def coarsest (m : Nat) (e : Int) : Int := (Int.ofNat (Nat.log2 m) + 1 + e) * 30103 / 100000 + 1

/-- The exponents of ten that are tried, the coarsest grid first. -/
def grids (m : Nat) (e : Int) : List Int :=
  (List.range ((coarsest m e - min e 0).toNat + 1)).map fun i => coarsest m e - Int.ofNat i

/-- The decimal that is exactly `m` units with exponent `e`. -/
def exactDecimal (negative : Bool) (m : Nat) (e : Int) : Decimal :=
  ⟨negative, m * Nat.pow 5 (-e).toNat <<< e.toNat, min e 0⟩

/-- The shortest decimal of `m` units with exponent `e`. -/
def shortest (negative : Bool) (m : Nat) (e : Int) : Decimal :=
  if m = 0 then ⟨negative, 0, 0⟩
  else
    ((grids m e).findSome? fun t => (onGrid? m e t).map fun c => ⟨negative, c, t⟩).getD
      (exactDecimal negative m e)

end RegionCalculus.Number
