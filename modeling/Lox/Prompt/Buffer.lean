import Lox.Prompt.Entry

/-!
# The edit buffer

The text of an entry while it is typed, with a cursor in it. Two keys have a meaning of their
own: Enter submits the entry if it is complete and starts a new line otherwise, where a second
Enter on a blank line submits whatever there is; Backspace deletes a character and looks for
commands to complete.

## Main definitions

* `Prompt.Buffer`: text in front of the cursor and text behind it.
* `Prompt.Pressed`: what a key does.
* `Prompt.Buffer.enter`, `Prompt.Buffer.backspace`: the keys.
-/

namespace Lox.Prompt

/-- A text with a cursor. -/
structure Buffer where
  before : List Char
  behind : List Char
  deriving DecidableEq, Repr, Inhabited

namespace Buffer

/-- A text with the cursor behind so many characters. -/
def ofText (text : String) (cursor : Nat) : Buffer :=
  ⟨text.toList.take cursor, text.toList.drop cursor⟩

/-- A text with the cursor at its end. -/
def atEnd (cs : List Char) : Buffer := ⟨cs, []⟩

/-- The characters of a buffer. -/
def chars (b : Buffer) : List Char := b.before ++ b.behind

/-- The text of a buffer. -/
def text (b : Buffer) : String := String.ofList b.chars

/-- The number of characters in front of the cursor. -/
def cursor (b : Buffer) : Nat := b.before.length

/-- The buffer with a text typed at the cursor. -/
def insert (b : Buffer) (text : String) : Buffer := ⟨b.before ++ text.toList, b.behind⟩

/-- The buffer without the character in front of the cursor. -/
def deleteBefore (b : Buffer) : Buffer := ⟨b.before.dropLast, b.behind⟩

end Buffer

/-- What a key does: the buffer it leaves, the entry it submits, and whether it looks for
commands to complete. -/
structure Pressed where
  buffer : Buffer
  submitted : Option String
  completing : Bool
  deriving DecidableEq, Repr, Inhabited

namespace Buffer

/-- The text in front of the last line, if there is more than one line and the last one is
blank. -/
def beforeBlankLine? (cs : List Char) : Option (List Char) :=
  let lastLine := (cs.reverse.takeWhile (· ≠ '\n')).reverse
  if cs.contains '\n' && lastLine.all Blank.isBlank then
    some (cs.take (cs.length - lastLine.length - 1))
  else none

/-- The Enter key. -/
def enter (b : Buffer) : Pressed :=
  if (Blank.stripLeft b.chars).head? = some '/' ∨ openDepth b.text = 0 then
    ⟨b, some b.text, false⟩
  else
    match beforeBlankLine? b.chars with
    | some cs => ⟨.atEnd cs, some (String.ofList cs), false⟩
    | none => ⟨b.insert ("\n" ++ indentation b.text), none, false⟩

/-- The Backspace key. -/
def backspace (b : Buffer) : Pressed :=
  let b := b.deleteBefore
  ⟨b, none, b.chars.head? = some '/'⟩

end Buffer

end Lox.Prompt
