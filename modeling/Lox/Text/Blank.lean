/-!
# Blank characters

The characters that count as blank in text typed by a user: the blank characters of Unicode and
the separators among the control characters.

## Main definitions

* `Blank.isBlank`: the blank characters.
* `Blank.strip`, `Blank.stripLeft`: text without the blanks around it.
* `Blank.splitFirst`: a text as its first word and the rest.
-/

namespace Lox.Blank

/-- The ranges of blank characters. -/
def ranges : List (Nat × Nat) :=
  [(0x09, 0x0d), (0x1c, 0x20), (0x85, 0x85), (0xa0, 0xa0), (0x1680, 0x1680), (0x2000, 0x200a),
    (0x2028, 0x2029), (0x202f, 0x202f), (0x205f, 0x205f), (0x3000, 0x3000)]

/-- Whether a character is blank. -/
def isBlank (c : Char) : Bool :=
  ranges.any fun (low, high) => low ≤ c.toNat && c.toNat ≤ high

/-- A text without the blanks in front. -/
def stripLeft (cs : List Char) : List Char := cs.dropWhile isBlank

/-- A text without the blanks around it. -/
def strip (cs : List Char) : List Char :=
  (stripLeft (stripLeft cs).reverse).reverse

/-- The first word of a text that begins with a word, and what stands behind the blanks after
it. -/
def splitFirst (cs : List Char) : List Char × List Char :=
  (cs.takeWhile (!isBlank ·), stripLeft (cs.dropWhile (!isBlank ·)))

end Lox.Blank
