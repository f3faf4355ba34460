/-!
# Decimals

A decimal is a number of units of a power of ten, with a sign.

* `Decimal`: the sign, the number of units, and the exponent of the unit.
* `Decimal.read? cs`: the decimal that a text writes, with an optional sign, point and exponent.
* `Decimal.Layout`: what a format decides about the text of a decimal.
* `Layout.write l d`: the text of a decimal, with a point among its digits or with an exponent.
-/

namespace RegionCalculus.Number
set_option autoImplicit false

/-- The number `units` times ten to the power `exponent`, with a sign. -/
structure Decimal where
  negative : Bool
  units : Nat
  exponent : Int
deriving DecidableEq

/-- Whether a text starts with a minus sign, and the text behind its sign. -/
def splitSign : List Char → Bool × List Char
  | '-' :: cs => (true, cs)
  | '+' :: cs => (false, cs)
  | cs => (false, cs)

namespace Decimal

/-! ## Reading -/

/-- The number that a list of digits writes, continuing from `acc`. -/
def digitsFrom (acc : Nat) : List Char → Nat
  | [] => acc
  | c :: rest => digitsFrom (10 * acc + (c.toNat - '0'.toNat)) rest

/-- A nonempty list of digits as a number. -/
def readNat? (cs : List Char) : Option Nat :=
  if cs.isEmpty || !cs.all Char.isDigit then none else some (digitsFrom 0 cs)

/-- Digits behind an optional sign. -/
def readInt? (cs : List Char) : Option Int :=
  let (negative, digits) := splitSign cs
  (readNat? digits).map fun n => if negative then -Int.ofNat n else Int.ofNat n

/-- The decimal that a text writes: a sign, digits, a point and more digits, and an exponent behind
the letter `e`. Only digits on one side of the point are needed. -/
def read? (cs : List Char) : Option Decimal := do
  let (negative, cs) := splitSign cs
  let whole := cs.takeWhile Char.isDigit
  let rest := cs.dropWhile Char.isDigit
  let (fraction, rest) := match rest with
    | '.' :: r => (r.takeWhile Char.isDigit, r.dropWhile Char.isDigit)
    | r => ([], r)
  let exponent ← match rest with
    | [] => some 0
    | 'e' :: r => readInt? r
    | 'E' :: r => readInt? r
    | _ => none
  let units ← readNat? (whole ++ fraction)
  return ⟨negative, units, exponent - Int.ofNat fraction.length⟩

/-! ## Writing -/

/-- The digits of the number of units. -/
def digits (d : Decimal) : List Char := Nat.toDigits 10 d.units

/-- The exponent of the first digit. -/
def leading (d : Decimal) : Int := d.exponent + Int.ofNat d.digits.length - 1

/-- Zeros in front of `cs`, up to `n` characters in all. -/
def padded (n : Nat) (cs : List Char) : List Char := List.replicate (n - cs.length) '0' ++ cs

/-- The digits with a point among them. A digit stands on either side of the point. -/
def positional (d : Decimal) : List Char :=
  if 0 ≤ d.exponent then d.digits ++ List.replicate d.exponent.toNat '0' ++ ['.', '0']
  else
    let places := (-d.exponent).toNat
    let all := padded (places + 1) d.digits
    all.take (all.length - places) ++ '.' :: all.drop (all.length - places)

/-- What a format decides about the text of a decimal. It sets a point among the digits if the
exponent of the first digit lies between `least` and `greatest`; otherwise it writes an exponent,
with its sign and with at least `width` digits. -/
structure Layout where
  least : Int
  greatest : Int
  width : Nat

/-- The first digit, a point and the other digits if there are any, and the exponent. -/
def scientific (width : Nat) (d : Decimal) : List Char :=
  let significand := match d.digits with
    | first :: second :: rest => first :: '.' :: second :: rest
    | cs => cs
  let sign := if d.leading < 0 then '-' else '+'
  significand ++ 'e' :: sign :: padded width (Nat.toDigits 10 d.leading.natAbs)

/-- The text of a decimal. -/
def Layout.write (l : Layout) (d : Decimal) : String :=
  let unsigned :=
    if l.least ≤ d.leading ∧ d.leading ≤ l.greatest then d.positional else d.scientific l.width
  String.ofList (if d.negative then '-' :: unsigned else unsigned)

end Decimal

end RegionCalculus.Number
