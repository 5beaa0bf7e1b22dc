import Lox.Prompt.Buffer
import Lox.Settings

/-!
# Commands at the prompt

An entry that begins with a slash is a command and not a program.

## Main definitions

* `Prompt.Command`: the commands.
* `Prompt.Command.ofEntry?`: the command that an entry gives, if it gives one.
* `Prompt.completions`: the commands that begin like the text in front of the cursor.
-/

namespace Lox.Prompt

/-- The commands. -/
inductive Command
  /-- Clears the terminal. -/
  | clear
  /-- Switches traces on or off, or to the opposite. -/
  | tracing (on : Option Bool)
  /-- Asks for traces in a way that makes no sense. -/
  | tracingUsage
  /-- Forgets all variables. -/
  | reset
  /-- A command that there is none of. -/
  | unknown (name : String)
  deriving DecidableEq, Repr, Inhabited

namespace Command

/-- The names of the commands and what they do. -/
def catalogue : List (String × String) :=
  [("/clear", "Clear the terminal screen"),
    ("/py-traceback", "Toggle Python traceback on errors"),
    ("/reset", "Reset the REPL environment")]

/-- What the argument of the command for traces asks for. -/
def tracingOf (argument : List Char) : Command :=
  let word := String.ofList (argument.map Char.toLower)
  if Settings.onWords.contains word then tracing (some true)
  else if Settings.offWords.contains word then tracing (some false)
  else if word = "" then tracing none
  else tracingUsage

/-- The command that an entry gives, if it gives one. -/
def ofEntry? (entry : String) : Option Command :=
  let cs := Blank.strip entry.toList
  if cs.head? = some '/' then
    let (name, argument) := Blank.splitFirst cs
    match String.ofList name with
    | "/clear" => some clear
    | "/py-traceback" => some (tracingOf argument)
    | "/reset" => some reset
    | other => some (unknown other)
  else none

end Command

/-- A completion: the name of a command, where it begins relative to the cursor, and what it
does. -/
structure Completion where
  name : String
  start : Int
  description : String
  deriving DecidableEq, Repr, Inhabited

/-- The commands that begin like the text in front of the cursor. -/
def completions (b : Buffer) : List Completion :=
  if b.before.head? = some '/' then
    (Command.catalogue.filter fun (name, _) => b.before.isPrefixOf name.toList).map
      fun (name, description) => ⟨name, -b.before.length, description⟩
  else []

end Lox.Prompt
