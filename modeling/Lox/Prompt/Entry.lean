import Lox.Text.Blank
import Lox.Token.Scan

/-!
# Entries at the prompt

An entry may extend over several lines. It is complete when it leaves no parenthesis and no brace
open; until then each new line is indented by the number of those that are open. Characters
that cannot be seen are taken out before an entry is run.

## Main definitions

* `Prompt.openDepth`: how many parentheses and braces are open.
* `Prompt.indentation`: the blanks in front of the next line.
* `Prompt.visible`: an entry without characters that cannot be seen.
-/

namespace Lox.Prompt

/-- The number of open parentheses and braces behind a token. A closing one without an opening
one counts for nothing. -/
def depthBehind (depth : Nat) (t : Token) : Nat :=
  match t.kind with
  | .leftParen | .leftBrace => depth + 1
  | .rightParen | .rightBrace => depth - 1
  | _ => depth

/-- The number of parentheses and braces that a text leaves open. -/
def openDepth (text : String) : Nat :=
  (Scan.ofText text).tokens.foldl depthBehind 0

/-- The blanks in front of the line that follows a text: four for each open parenthesis or
brace. -/
def indentation (text : String) : String :=
  String.ofList (List.replicate (4 * openDepth text) ' ')

/-- The characters that are taken out of entries: those of no width, the byte order mark, the
no-break space and the carriage return. -/
def invisible : List Char :=
  ['\u200b', '\u200c', '\u200d', '\ufeff', '\u00a0', '\r']

/-- An entry without invisible characters. -/
def visible (entry : String) : String :=
  String.ofList (entry.toList.filter (!invisible.contains ·))

end Lox.Prompt
