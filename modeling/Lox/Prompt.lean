import Lox.Prompt.Command
import Lox.Prompt.Highlight
import Lox.Session

/-!
# The prompt

The dialogue with a user: entries are run as they come, commands are carried out, and the values
of expressions are shown. What is shown goes to the output of the machine, complaints to the
error stream of the reporter.

## Main definitions

* `Prompt.Input`: what a user may answer at the prompt.
* `Prompt.answer`: one turn of the dialogue.
-/

namespace Lox.Prompt

open Session (Act)

/-- What a user may answer at the prompt. -/
inductive Input
  /-- An entry. -/
  | entry (text : String)
  /-- The key that breaks off. -/
  | breakOff
  /-- The end of the dialogue. -/
  | leave
  deriving DecidableEq, Repr, Inhabited

/-- Shows a text. -/
def showText (text : String) : Act Unit :=
  modify fun s => { s with machine := { s.machine with output := s.machine.output ++ text } }

/-- Shows a line. -/
def showLine (text : String) : Act Unit := showText (text ++ "\n")

/-- Complains with a line. -/
def complain (text : String) : Act Unit :=
  modify fun s => { s with reporter := s.reporter.writeLine text }

/-- Begins the dialogue. -/
def greet : Act Unit := showLine "lox repl, Ctrl-D to exit, / for commands"

variable (host : Host) (clearing : String)

/-- Begins anew with no variables and nothing reported. The host stays what it is, so that the
notes of its functions are kept. -/
def startAnew : Act Unit :=
  modify fun s =>
    { s with
      machine :=
        { Machine.fresh host.natives with output := s.machine.output, notes := s.machine.notes }
      reporter := { Reporter.speaking with written := s.reporter.written } }

/-- Carries out a command; `clearing` is the text that clears the terminal. -/
def carryOut : Command → Act Unit
  | .clear => showText clearing
  | .tracing on => do
    let settings := (← get).settings
    let settings := settings.setTracing (on.getD (!settings.tracing))
    modify fun s => { s with settings }
    showLine ("Python traceback: " ++ (if settings.tracing then "on" else "off"))
  | .tracingUsage => complain "Usage: /py-traceback [on|off]"
  | .reset => do
    startAnew host
    showLine "Environment reset."
  | .unknown name => complain ("Unknown command: " ++ name)

/-- Runs an entry that is no command and shows its value if it is an expression. -/
def runEntry (entry : String) : Act Unit := do
  modify fun s => { s with reporter := s.reporter.reset }
  match ← Session.enter host entry with
  | some v => showLine v.text
  | none => pure ()

/-- One turn of the dialogue. -/
def answer : Input → Act Unit
  | .entry text => do
    let entry := visible text
    if (Blank.strip entry.toList).isEmpty then
      pure ()
    else
      match Command.ofEntry? entry with
      | some command => carryOut host clearing command
      | none => runEntry host entry
  | .breakOff => showLine "KeyboardInterrupt"
  | .leave => showLine ""

end Lox.Prompt
