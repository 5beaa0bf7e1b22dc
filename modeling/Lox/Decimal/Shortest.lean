import Lox.Decimal

/-!
# The shortest decimal of a double

A finite double stands for an interval of numbers: those that round to it. Its shortest
decimal is the one with the fewest digits in that interval, of several the nearest, and of
two equally near the one whose last digit is even.

On the grid of multiples of `10 ^ k` only the two neighbours of the double have to be tried,
because the interval contains the double: if it contains a point of the grid, it contains a
neighbour. All arithmetic is exact.

## Main definitions

* `Decimal.Binary`: a positive number `mantissa · 2 ^ exponent`.
* `Decimal.Binary.Rounds`: the decimals that round to such a double.
* `Decimal.shortest`: the shortest decimal that rounds to a double.
-/

namespace Lox.Decimal

/-- The number `mantissa · 2 ^ exponent`. -/
structure Binary where
  mantissa : Nat
  exponent : Int
  deriving DecidableEq, Repr, Inhabited

namespace Binary

/-- The mantissa of a power of two, the only one whose lower neighbour is nearer than its
upper one. -/
def powerMantissa : Nat := Nat.pow 2 52

/-- The exponent of the smallest doubles. -/
def leastExponent : Int := -1074

/-- The magnitude of a finite double with these bits: a fraction of 52 bits, preceded by a one
unless the exponent field is zero. -/
def ofBits (bits : UInt64) : Binary :=
  let fraction : Nat := bits.toNat % Nat.pow 2 52
  let field : Nat := bits.toNat / Nat.pow 2 52 % Nat.pow 2 11
  if field = 0 then ⟨fraction, leastExponent⟩
  else ⟨powerMantissa + fraction, leastExponent + field - 1⟩

/-- Compares `a · 2 ^ i` with `b · 10 ^ k`. -/
def compareScaled (a : Nat) (i : Int) (b : Nat) (k : Int) : Ordering :=
  compare (a * Nat.pow 2 i.toNat * Nat.pow 10 (-k).toNat)
    (b * Nat.pow 10 k.toNat * Nat.pow 2 (-i).toNat)

/-- The distance from a double to the lower end of its interval, in quarters of its unit. -/
def lowerQuarters (x : Binary) : Nat :=
  if x.mantissa = powerMantissa ∧ x.exponent ≠ leastExponent then 1 else 2

/-- The decimals that round to a double: those between the midpoints to its neighbours, the
midpoints included exactly if the mantissa is even. -/
def Rounds (x : Binary) (d : Decimal) : Prop :=
  let low := compareScaled (4 * x.mantissa - x.lowerQuarters) (x.exponent - 2) d.digits d.exponent
  let high := compareScaled (4 * x.mantissa + 2) (x.exponent - 2) d.digits d.exponent
  if x.mantissa % 2 = 0 then low ≠ .gt ∧ high ≠ .lt else low = .lt ∧ high = .gt

instance (x : Binary) (d : Decimal) : Decidable (x.Rounds d) := by
  unfold Rounds; infer_instance

/-- The decimal neighbour of a number on the grid of multiples of `10 ^ k` that rounds to it:
of two the nearer, of two equally near the even one. -/
def onGrid? (x : Binary) (k : Int) : Option Decimal :=
  let numerator := x.mantissa * Nat.pow 2 x.exponent.toNat * Nat.pow 10 (-k).toNat
  let denominator := Nat.pow 10 k.toNat * Nat.pow 2 (-x.exponent).toNat
  let below : Decimal := ⟨numerator / denominator, k⟩
  let above : Decimal := ⟨numerator / denominator + 1, k⟩
  if x.Rounds below then
    if x.Rounds above then
      match compare (2 * (numerator % denominator)) denominator with
      | .lt => some below
      | .gt => some above
      | .eq => some (if below.digits % 2 = 0 then below else above)
    else some below
  else if x.Rounds above then some above
  else none

/-- The number of digits in front of the decimal point: the least `t` with the number below
`10 ^ t`. The binary length gives it up to two steps; `30103 / 100000` is the decimal
logarithm of two. -/
def leadingPlaces (x : Binary) : Int :=
  let guess := (x.mantissa.log2 + x.exponent) * 30103 / 100000
  if compareScaled x.mantissa x.exponent 1 guess = .lt then guess
  else if compareScaled x.mantissa x.exponent 1 (guess + 1) = .lt then guess + 1
  else guess + 2

/-- The number itself as a decimal. -/
def exact (x : Binary) : Decimal :=
  if x.exponent ≥ 0 then ⟨x.mantissa * Nat.pow 2 x.exponent.toNat, 0⟩
  else ⟨x.mantissa * Nat.pow 5 (-x.exponent).toNat, x.exponent⟩

/-- The shortest decimal that rounds to a number. Seventeen digits always suffice for a
double; the number itself would follow as the last resort. -/
def shortest (x : Binary) : Decimal :=
  let found := (List.range 18).findSome? fun (places : Nat) => x.onGrid? (x.leadingPlaces - places)
  found.getD x.exact

end Binary

/-- The shortest decimal of the magnitude of a finite double. -/
def shortest (x : Float) : Decimal :=
  let magnitude := Binary.ofBits x.toBits
  if magnitude.mantissa = 0 then ⟨0, 0⟩ else magnitude.shortest

end Lox.Decimal
