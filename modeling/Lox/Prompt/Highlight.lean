import Lox.Text.Blank
import Lox.Token.Scan

/-!
# Highlighting

A line of an entry is shown as spans of one style each: its tokens in the style of their group,
and what stands between them. The place of a token is found by looking for its text behind the
token before it. In what stands between, everything from a comment opener on is a comment.

## Main definitions

* `Highlight.Group`: the groups, with their styles.
* `Highlight.line`: the spans of a line.
* `Highlight.lineOf`: the spans of a line of a text, given by its number.
-/

namespace Lox.Highlight

/-- What is shown in one style. -/
inductive Group
  | plain | keyword | boolean | constant | number | string
  | identifier | function | operator | punctuation | comment | error
  deriving DecidableEq, Repr, Inhabited

/-- The style of a group. -/
def Group.style : Group → String
  | keyword => "bold ansicyan"
  | boolean | constant => "ansicyan"
  | number => "ansimagenta"
  | string => "ansigreen"
  | function => "bold ansiyellow"
  | comment => "italic ansigray"
  | error => "bold ansired"
  | plain | identifier | operator | punctuation => ""

/-- The group of the tokens of a kind. -/
def groupOf : Kind → Group
  | .kwTrue | .kwFalse => .boolean
  | .kwNil => .constant
  | .number => .number
  | .string => .string
  | .identifier => .identifier
  | .plus | .minus | .star | .slash | .bang | .bangEqual | .equal | .equalEqual
  | .greater | .greaterEqual | .less | .lessEqual | .question | .colon => .operator
  | .leftParen | .rightParen | .leftBrace | .rightBrace | .comma | .dot | .semicolon =>
    .punctuation
  | .kwAnd | .kwClass | .kwElse | .kwFun | .kwFor | .kwIf | .kwOr | .kwPrint | .kwReturn
  | .kwSuper | .kwThis | .kwVar | .kwWhile => .keyword
  | .endOfInput => .plain

/-- Characters shown in one style. -/
structure Span where
  group : Group
  text : List Char
  deriving DecidableEq, Repr, Inhabited

/-- The first occurrence of `needle` in a text: what stands before it, and what behind. -/
def find? (needle : List Char) : List Char → Option (List Char × List Char)
  | [] => if needle.isEmpty then some ([], []) else none
  | c :: cs =>
    if needle.isPrefixOf (c :: cs) then some ([], (c :: cs).drop needle.length)
    else (find? needle cs).map fun (before, behind) => (c :: before, behind)

/-- The spans of what stands between tokens, where `opener` begins a comment if it occurs. -/
def commentSpans? (opener gap : List Char) : Option (List Span) :=
  (find? opener gap).map fun (before, behind) =>
    (if before.isEmpty then [] else [⟨.plain, before⟩]) ++ [⟨.comment, opener ++ behind⟩]

/-- The spans of what stands between tokens. -/
def gapSpans (gap : List Char) : List Span :=
  ((commentSpans? ['/', '/'] gap).or (commentSpans? ['/', '*'] gap)).getD [⟨.plain, gap⟩]

/-- The spans of what stands behind the last token. A quote begins a string that is not
closed. -/
def tailSpans (rest : List Char) : List Span :=
  if rest.isEmpty then []
  else if (Blank.stripLeft rest).head? = some '"' then [⟨.error, rest⟩]
  else gapSpans rest

/-- The group of a token between its neighbours: an identifier behind `fun` or in front of a
parenthesis names a function. -/
def groupAmong (previous : Option Kind) (t : Token) (following : List Token) : Group :=
  if t.kind = .identifier
      ∧ (previous = some .kwFun ∨ following.head?.map (·.kind) = some .leftParen) then .function
  else groupOf t.kind

/-- The spans of a text that tokens are looked for in. -/
def spansFrom (previous : Option Kind) : List Token → List Char → List Span
  | [], rest => tailSpans rest
  | t :: ts, rest =>
    if t.kind = .endOfInput then spansFrom (some t.kind) ts rest
    else
      match find? t.lexeme.toList rest with
      | none => spansFrom (some t.kind) ts rest
      | some (gap, behind) =>
        (if gap.isEmpty then [] else gapSpans gap)
          ++ ⟨groupAmong previous t ts, t.lexeme.toList⟩ :: spansFrom (some t.kind) ts behind

/-- The spans of a line. -/
def line (text : List Char) : List Span :=
  if text.isEmpty then [⟨.plain, []⟩]
  else spansFrom none (Scan.ofText (String.ofList text)).tokens text

/-- The lines of a text. -/
def lines : List Char → List (List Char)
  | [] => [[]]
  | c :: cs =>
    if c = '\n' then [] :: lines cs
    else
      match lines cs with
      | [] => [[c]]
      | l :: ls => (c :: l) :: ls

/-- The spans of the line of a text with some number. Numbers below zero count from the end,
a number past the end gives an empty line; there is no line in front of the first. -/
def lineOf (text : String) (number : Int) : Option (List Span) :=
  let ls := lines text.toList
  if number ≥ 0 then some (line (ls[number.toNat]?.getD []))
  else if number.natAbs ≤ ls.length then some (line (ls[ls.length - number.natAbs]?.getD []))
  else none

/-- How many lines a text has. -/
def lineCount (text : String) : Nat := (lines text.toList).length

end Lox.Highlight
