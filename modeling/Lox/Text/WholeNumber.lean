import Lox.Text.Blank

/-!
# Whole numbers in text

A whole number is written with decimal digits of any script, in groups separated by single
underscores, with a sign in front if one is wanted and blanks around it.

## Main definitions

* `WholeNumber.digitValue?`: the value of a decimal digit of any script.
* `WholeNumber.read?`: the number that a text writes.
-/

namespace Lox.WholeNumber

/-- The zeros of the scripts that have decimal digits. The digits from one to nine follow each
zero. -/
def zeros : List Nat :=
  [0x30, 0x660, 0x6f0, 0x7c0, 0x966, 0x9e6, 0xa66, 0xae6, 0xb66, 0xbe6, 0xc66, 0xce6, 0xd66,
    0xde6, 0xe50, 0xed0, 0xf20, 0x1040, 0x1090, 0x17e0, 0x1810, 0x1946, 0x19d0, 0x1a80, 0x1a90,
    0x1b50, 0x1bb0, 0x1c40, 0x1c50, 0xa620, 0xa8d0, 0xa900, 0xa9d0, 0xa9f0, 0xaa50, 0xabf0,
    0xff10, 0x104a0, 0x10d30, 0x11066, 0x110f0, 0x11136, 0x111d0, 0x112f0, 0x11450, 0x114d0,
    0x11650, 0x116c0, 0x11730, 0x118e0, 0x11950, 0x11c50, 0x11d50, 0x11da0, 0x16a60, 0x16ac0,
    0x16b50, 0x1d7ce, 0x1d7d8, 0x1d7e2, 0x1d7ec, 0x1d7f6, 0x1e140, 0x1e2f0, 0x1e950, 0x1fbf0]

/-- The value of a decimal digit. -/
def digitValue? (c : Char) : Option Nat :=
  (zeros.find? fun z => z ≤ c.toNat && c.toNat ≤ z + 9).map (c.toNat - ·)

/-- The blanks that may stand around a number: all but the control characters that separate
records. -/
def isMargin (c : Char) : Bool :=
  Blank.isBlank c && !(0x1c ≤ c.toNat && c.toNat ≤ 0x1f)

/-- The most digits a number may have. -/
def maxDigits : Nat := 4300

/-- The digits of a number without sign and margin. -/
def digits? : List Char → Option (List Nat)
  | [] => none
  | [c] => (digitValue? c).map ([·])
  | c :: '_' :: cs => do return (← digitValue? c) :: (← digits? cs)
  | c :: cs => do return (← digitValue? c) :: (← digits? cs)

/-- The number without sign and margin that a text writes. -/
def readUnsigned? (cs : List Char) : Option Int := do
  let ds ← digits? cs
  if ds.length ≤ maxDigits then some (ds.foldl (fun (n d : Nat) => 10 * n + d) 0 : Nat)
  else none

/-- The number that a text writes. -/
def read? (text : String) : Option Int :=
  let cs := text.toList.dropWhile isMargin
  match (cs.reverse.dropWhile isMargin).reverse with
  | '-' :: cs => (readUnsigned? cs).map (-·)
  | '+' :: cs => readUnsigned? cs
  | cs => readUnsigned? cs

end Lox.WholeNumber
