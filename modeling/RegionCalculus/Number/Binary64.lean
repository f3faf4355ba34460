import RegionCalculus.Number.Decimal

/-!
# Numbers of the binary64 format

A finite number of the format is a number of units of a power of two. There are fewer than `2 ^ 53`
units, the exponent of the unit is at least `-1074`, and it is no larger than needed. All arithmetic
is exact.

* `Binary64`: a finite number or an infinity.
* `Binary64.finiteValue`: the rational that a finite number is.
* `roundDiv num den`: the quotient rounded to the nearest natural number, a half to the even one.
* `Decimal.nearest d`: the number of the format that is nearest to a decimal.
* `Binary64.read? s`: the number that a text denotes.
-/

namespace RegionCalculus.Number
set_option autoImplicit false

/-- A number of the format: `units` times two to the power `exponent`, signed, or an infinity. -/
inductive Binary64 where
  | finite (negative : Bool) (units : Nat) (exponent : Int)
  | infinite (negative : Bool)
deriving DecidableEq

namespace Binary64

/-- The least exponent of a unit. -/
def leastExponent : Int := -1074

/-- The greatest exponent of a unit. -/
def greatestExponent : Int := 971

/-- The least number of units, `2 ^ 52`, with which a number can have any exponent. -/
def fullUnits : Nat := 4503599627370496

/-- The number zero; its sign is kept. -/
def zero (negative : Bool) : Binary64 := .finite negative 0 leastExponent

/-- The rational that a finite number is. -/
def finiteValue (negative : Bool) (units : Nat) (exponent : Int) : Rat :=
  let num := Int.ofNat (units <<< exponent.toNat)
  mkRat (if negative then -num else num) (1 <<< (-exponent).toNat)

end Binary64

/-! ## Rounding -/

/-- The quotient rounded to the nearest natural number, a half to the even one. -/
def roundDiv (num den : Nat) : Nat :=
  let q := num / den
  let r := num % den
  if 2 * r < den ∨ (2 * r = den ∧ q % 2 = 0) then q else q + 1

/-- The exponent of the greatest power of two up to the positive quotient `num / den`. -/
def floorLog2 (num den : Nat) : Int :=
  let guess := Int.ofNat (Nat.log2 num) - Int.ofNat (Nat.log2 den)
  if den <<< guess.toNat ≤ num <<< (-guess).toNat then guess else guess - 1

/-- The number of the format nearest to the positive quotient `num / den`, with a sign. It keeps 53
binary digits, and none below the least unit; beyond the greatest unit it is infinite. -/
def nearestQuotient (negative : Bool) (num den : Nat) : Binary64 :=
  let e := max (floorLog2 num den - 52) Binary64.leastExponent
  let units := roundDiv (num <<< (-e).toNat) (den <<< e.toNat)
  let (units, e) :=
    if units = 2 * Binary64.fullUnits then (Binary64.fullUnits, e + 1) else (units, e)
  if Binary64.greatestExponent < e then .infinite negative else .finite negative units e

/-- The number of the format nearest to a decimal. Decimals from `10 ^ 400` on lie beyond all finite
numbers and those below `10 ^ (-400)` round to zero, so no larger power is ever computed. -/
def Decimal.nearest (d : Decimal) : Binary64 :=
  if d.units = 0 ∨ d.leading < -400 then .zero d.negative
  else if 400 ≤ d.leading then .infinite d.negative
  else
    nearestQuotient d.negative (d.units * Nat.pow 10 d.exponent.toNat)
      (Nat.pow 10 (-d.exponent).toNat)

/-! ## Reading -/

namespace Binary64

/-- The word behind the sign of a text, in small letters. -/
def word (s : String) : String := String.ofList ((splitSign s.toList).2.map Char.toLower)

/-- The text denotes the outcome that is no number. -/
def isUndefined (s : String) : Bool := word s = "nan"

/-- The number that a text denotes: the nearest to a decimal, or an infinity. -/
def read? (s : String) : Option Binary64 :=
  if word s = "inf" ∨ word s = "infinity" then some (.infinite (splitSign s.toList).1)
  else (Decimal.read? s.toList).map Decimal.nearest

end Binary64

end RegionCalculus.Number
