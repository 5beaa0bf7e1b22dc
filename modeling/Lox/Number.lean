import Lox.Decimal.Shortest

/-!
# Numbers

A number of a program is a double together with its origin. The origin matters for one thing
only: a not-a-number value is equal to itself, wherever it has been stored or passed, but
never to the result of another computation. Equality therefore holds between two numbers that
are one and the same, and between two equal doubles.

## Main definitions

* `Number`: a double and its origin.
* `Number.equal`: equality as a program sees it.
* `Number.text`, `Number.fullText`: the two written forms.
-/

namespace Lox

/-- Where a number comes from. Numbers that are equal to themselves as doubles need no
origin; a not-a-number value has one of its own for each literal and each computation. -/
inductive Origin
  | plain
  | literal (index : Nat)
  | computed (stamp : Nat)
  deriving DecidableEq, Repr, Inhabited

/-- A double with its origin. -/
structure Number where
  value : Float
  origin : Origin
  deriving DecidableEq, Repr, Inhabited

namespace Number

/-- A double whose origin does not matter. -/
def ofFloat (value : Float) : Number := ⟨value, .plain⟩

/-- The double nearest to a decimal. -/
def ofDecimal (d : Decimal) : Number := ofFloat d.toFloat

/-- The double nearest to a whole number. -/
def ofInt (i : Int) : Number :=
  let magnitude := Decimal.toFloat ⟨i.natAbs, 0⟩
  ofFloat (if i < 0 then -magnitude else magnitude)

/-- Two numbers are equal if they are one and the same, or equal as doubles. -/
def equal (a b : Number) : Bool :=
  decide (a = b) || a.value == b.value

/-- The sign bit of a double. -/
def isSigned (x : Float) : Bool :=
  decide (Nat.pow 2 63 ≤ x.toBits.toNat)

/-- The written form of a double: its sign, and the shortest decimal that reads back. -/
def write (layout : Decimal.Layout) (x : Float) : String :=
  if x.isNaN then "nan"
  else
    (if isSigned x then "-" else "")
      ++ (if x.isInf then "inf" else String.ofList ((Decimal.shortest x).write layout))

/-- The written form that a program sees. -/
def text (n : Number) : String := write .plain n.value

/-- The written form for inspection, in which a whole number keeps its fraction `.0`. -/
def fullText (n : Number) : String := write .full n.value

end Number

end Lox
