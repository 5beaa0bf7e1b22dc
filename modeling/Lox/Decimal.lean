/-!
# Decimals

A decimal is a whole number of powers of ten. This module gives its nearest double and its
written form. Where positional writing ends, and whether a whole number keeps a fraction
`.0`, is decided by a `Decimal.Layout`; the writing itself knows no particular format.

## Main definitions

* `Decimal`: the number `digits · 10 ^ exponent`.
* `Decimal.toFloat`: the nearest double, a tie going to the even neighbour.
* `Decimal.write`: the written form under a layout.
-/

namespace Lox

/-- The number `digits · 10 ^ exponent`. -/
structure Decimal where
  digits : Nat
  exponent : Int
  deriving DecidableEq, Repr, Inhabited

namespace Decimal

/-- The value of a decimal digit. -/
def digitValue (c : Char) : Nat :=
  c.toNat - '0'.toNat

/-- The number written by decimal digits, the most significant first. -/
def digitsValue (cs : List Char) : Nat :=
  cs.foldl (fun n c => 10 * n + digitValue c) 0

/-- The number written by the digits `whole`, a point, and the digits `fraction`. -/
def ofPlaces (whole fraction : List Char) : Decimal :=
  ⟨digitsValue (whole ++ fraction), -fraction.length⟩

/-- The double nearest to a decimal: a tie goes to the even neighbour, a number beyond the
largest double to infinity. -/
def toFloat (d : Decimal) : Float :=
  Float.ofScientific d.digits (decide (d.exponent < 0)) d.exponent.natAbs

/-- How decimals are written: positionally as long as the exponent of the leading digit is at
least `least` and below `limit`, otherwise with an exponent. A whole number written
positionally ends in `.0` if `keepsPoint` is set. -/
structure Layout where
  least : Int
  limit : Int
  keepsPoint : Bool

/-- Numbers as a program sees them: positional from `0.0001` up to `10 ^ 16`, whole numbers
without a fraction. -/
def Layout.plain : Layout := ⟨-4, 16, false⟩

/-- Numbers as they are shown for inspection: like `Layout.plain`, but a whole number keeps
its `.0`. -/
def Layout.full : Layout := ⟨-4, 16, true⟩

/-- A decimal exponent: its sign always, and at least two digits. -/
def writeExponent (e : Int) : List Char :=
  let places := Nat.toDigits 10 e.natAbs
  (if e < 0 then '-' else '+') :: (if places.length < 2 then '0' :: places else places)

/-- The written form of a decimal. -/
def write (layout : Layout) (d : Decimal) : List Char :=
  let places := Nat.toDigits 10 d.digits
  let point : Int := places.length + d.exponent
  if layout.least ≤ point - 1 ∧ point - 1 < layout.limit then
    if d.exponent ≥ 0 then
      places ++ List.replicate d.exponent.toNat '0'
        ++ (if layout.keepsPoint then ['.', '0'] else [])
    else if point ≤ 0 then
      '0' :: '.' :: (List.replicate (-point).toNat '0' ++ places)
    else
      places.take point.toNat ++ '.' :: places.drop point.toNat
  else
    places.take 1 ++ (if places.length ≤ 1 then [] else '.' :: places.drop 1)
      ++ 'e' :: writeExponent (point - 1)

end Decimal

end Lox
