import Lox.Token

/-!
# Splitting a text into pieces

A text is a sequence of pieces: tokens, and what stands between them. The split keeps every
character, so that the pieces written one after the other are the text again; places and line
numbers are computed from the pieces afterwards.

A piece is decided by its first characters, in this order: blank characters, comments,
strings, numbers, words, operators. A line comment ends in front of a newline or of the
character `U+0000`. Block comments nest. A number has a fraction only if a digit follows its
point.

## Main definitions

* `Piece`: a token, a stretch of text between tokens, or a fault.
* `Piece.next`: the first piece of a text, and the rest.
* `Piece.split`: all pieces of a text.
-/

namespace Lox

/-- A stretch of a text. -/
inductive Piece
  /-- One blank character: a space, a tab, a carriage return or a newline. -/
  | blank (c : Char)
  /-- A line comment, without the character that ends it. -/
  | lineComment (text : List Char)
  /-- A block comment with its delimiters. -/
  | blockComment (text : List Char)
  /-- A block comment that is not closed. -/
  | openComment (text : List Char)
  /-- A string that is not closed. -/
  | openString (text : List Char)
  /-- A character that begins nothing. -/
  | stray (c : Char)
  /-- A token. -/
  | token (kind : Kind) (lexeme : List Char) (literal : Literal)
  deriving DecidableEq, Repr, Inhabited

namespace Piece

/-- The characters of a piece. -/
def text : Piece → List Char
  | blank c | stray c => [c]
  | lineComment text | blockComment text | openComment text | openString text => text
  | token _ lexeme _ => lexeme

/-- The newlines in a stretch of text. -/
def newlines (text : List Char) : Nat := text.count '\n'

/-- The characters that separate tokens and mean nothing else. -/
def isBlank (c : Char) : Bool :=
  c = ' ' || c = '\t' || c = '\r' || c = '\n'

/-- The digits of numbers. -/
def isDigit (c : Char) : Bool :=
  '0' ≤ c && c ≤ '9'

/-- The characters that begin a word. -/
def isLetter (c : Char) : Bool :=
  ('a' ≤ c && c ≤ 'z') || ('A' ≤ c && c ≤ 'Z') || c = '_'

/-- The characters that a line comment takes in. -/
def isCommentary (c : Char) : Bool :=
  c ≠ '\n' && c ≠ '\x00'

/-- The characters that a string may hold. -/
def isQuotable (c : Char) : Bool :=
  c ≠ '"'

/-- The inside of a block comment, of which `depth` openers have not been closed: the
characters up to and with the closer that matches the first opener, and the rest. There is
none if the text ends before. -/
def commentBody? : Nat → List Char → Option (List Char × List Char)
  | depth, '/' :: '*' :: cs => (commentBody? (depth + 1) cs).map fun (body, rest) =>
      ('/' :: '*' :: body, rest)
  | 0, '*' :: '/' :: cs => some (['*', '/'], cs)
  | depth + 1, '*' :: '/' :: cs => (commentBody? depth cs).map fun (body, rest) =>
      ('*' :: '/' :: body, rest)
  | depth, c :: cs => (commentBody? depth cs).map fun (body, rest) => (c :: body, rest)
  | _, [] => none

/-- The operator that a text begins with, the longest one. -/
def operator? (cs : List Char) : Option (List Char × Kind) :=
  Kind.operators.find? fun (spelling, _) => spelling.isPrefixOf cs

/-- A number at the front of a text that begins with a digit. -/
def numberNext (cs : List Char) : Piece × List Char :=
  let whole := cs.takeWhile isDigit
  let plain : Piece × List Char :=
    (token .number whole (.number (.ofDecimal (.ofPlaces whole []))), cs.dropWhile isDigit)
  match cs.dropWhile isDigit with
  | '.' :: d :: rest =>
    if isDigit d then
      let fraction := (d :: rest).takeWhile isDigit
      (token .number (whole ++ '.' :: fraction) (.number (.ofDecimal (.ofPlaces whole fraction))),
        (d :: rest).dropWhile isDigit)
    else plain
  | _ => plain

/-- A word at the front of a text that begins with a letter. -/
def wordNext (cs : List Char) : Piece × List Char :=
  let word := cs.takeWhile fun c => isLetter c || isDigit c
  (token (.ofWord (String.ofList word)) word .nil, cs.dropWhile fun c => isLetter c || isDigit c)

/-- The string that follows an opening quote. -/
def stringNext (cs : List Char) : Piece × List Char :=
  let body := cs.takeWhile isQuotable
  match cs.dropWhile isQuotable with
  | [] => (openString ('"' :: body), [])
  | _ :: rest => (token .string ('"' :: (body ++ ['"'])) (.string (String.ofList body)), rest)

/-- The first piece of the text `c :: cs`, and the text behind it. -/
def next (c : Char) (cs : List Char) : Piece × List Char :=
  if isBlank c then (blank c, cs)
  else if c = '/' ∧ cs.head? = some '/' then
    (lineComment ((c :: cs).takeWhile isCommentary), (c :: cs).dropWhile isCommentary)
  else if c = '/' ∧ cs.head? = some '*' then
    match commentBody? 0 cs.tail with
    | some (body, rest) => (blockComment ('/' :: '*' :: body), rest)
    | none => (openComment (c :: cs), [])
  else if c = '"' then stringNext cs
  else if isDigit c then numberNext (c :: cs)
  else if isLetter c then wordNext (c :: cs)
  else
    match operator? (c :: cs) with
    | some (spelling, kind) => (token kind spelling .nil, (c :: cs).drop spelling.length)
    | none => (stray c, cs)

/-- The pieces of a text of at most `size` characters. -/
def splitWithin : (size : Nat) → List Char → List Piece
  | _, [] => []
  | 0, _ :: _ => []
  | size + 1, c :: cs => (next c cs).1 :: splitWithin size (next c cs).2

/-- The pieces of a text. -/
def split (cs : List Char) : List Piece := splitWithin cs.length cs

end Piece

end Lox
