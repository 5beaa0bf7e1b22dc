import Lox.Native.Library
import Lox.Prompt
import Lox.Script

/-!
# The command line

Starts the program: takes the arguments, the environment variables and the files from the
system, and writes what the library answers. In a dialogue, each line of the standard input is
typed into the edit buffer and followed by the Enter key.

## Main definitions

* `main`: the program.
-/

namespace Lox.Console

/-- Why the system could not read a file. A path through a file fails when it is looked up, a
folder only when it is read, and then without its name. -/
def readFailure (e : IO.Error) : ReadFailure :=
  match e with
  | .noFileOrDirectory .. => .missing
  | .inappropriateType (some _) .. => .notFolder
  | .inappropriateType none .. => .isFolder
  | .permissionDenied .. => .other "Permission denied"
  | e => .other (toString e)

/-- The bytes of a file; the empty path is the folder itself. -/
def readFile (path : String) : IO (Except ReadFailure ByteArray) := do
  try
    return .ok (← IO.FS.readBinFile (if path.isEmpty then "." else path))
  catch e =>
    return .error (readFailure e)

/-- The settings of the environment. -/
def settings : IO Settings := do
  return ⟨← IO.getEnv Settings.traceVariable, ← IO.getEnv Settings.limitVariable⟩

/-- The host: the standard functions, at the time that it is now, with a bound on nesting if one is
asked for. -/
def host (limit : Option Nat) : IO Host := do
  let milliseconds ← IO.monoMsNow
  return (Host.ofNatives (Native.standard (milliseconds.toFloat / 1000))).limited limit

/-- Writes what a session has to write, and does what is left of it. -/
def settle (s : Session) : IO Session := do
  IO.print s.machine.output
  IO.eprint s.reporter.written
  return { s with
    machine := { s.machine with output := "" }, reporter := { s.reporter with written := "" } }

/-- Does something in a session and writes what comes of it. -/
def perform (act : Session.Act Unit) (s : Session) : IO Session :=
  match act s with
  | .ok _ s => settle s
  | .error _ s => settle s

/-- The text that clears a terminal. -/
def clearing : String := "\x1b[2J\x1b[H"

/-- The dialogue, line by line. The clock is read before each entry. -/
partial def dialogue (limit : Option Nat) (s : Session) (b : Prompt.Buffer) : IO Unit := do
  IO.print (if b.text.isEmpty then "> " else "... ")
  (← IO.getStdout).flush
  let typed ← (← IO.getStdin).getLine
  let host ← host limit
  if typed.isEmpty then
    let _ ← perform (Prompt.answer host clearing .leave) s
  else
    let line := String.ofList (typed.toList.takeWhile (· ≠ '\n'))
    let pressed := (b.insert line).enter
    match pressed.submitted with
    | none => dialogue limit s pressed.buffer
    | some entry =>
      let s ← perform (Prompt.answer host clearing (.entry entry)) s
      dialogue limit s (.atEnd [])

/-- What the command line asks for. -/
def start (arguments : List String) : IO UInt32 := do
  let settings ← settings
  let request := Request.ofArguments none none arguments
  let limit := if request.setsLimit then settings.recursionLimit else none
  let host ← host limit
  let script ← match request with
    | .start _ (some path) => readFile path
    | _ => pure (.error .missing)
  let result := request.fulfil host settings fun _ => script
  IO.print result.output
  IO.eprint result.errors
  match result.ending with
  | .exit status => return status.toUInt32
  | .dialogue =>
    let s ← perform Prompt.greet (.fresh host .speaking settings)
    dialogue limit s (.atEnd [])
    return Status.ok.toUInt32
  | .undecodable | .interrupted _ => return 1

end Lox.Console

/-- The program. -/
def main (arguments : List String) : IO UInt32 := Lox.Console.start arguments
