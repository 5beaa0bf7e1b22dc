import Lox.Files
import Lox.Session
import Lox.Stack

/-!
# Scripts

What the program does when it is started: it runs a script, shows it in one of the renderings, or
begins a dialogue. Its exit status says whether the command line made no sense (64), the script
had an error in its text (65), could not be read (66), or failed when it was executed (70). A
script that the stack of the host is not enough for, when it is read or shown, is given no status.

## Main definitions

* `Request`: what a command line asks for.
* `Result`: what the program has written, and how it ends.
* `Script.runFile`: runs or shows a script.
* `Request.fulfil`: does what a command line asks for, up to the dialogue.
-/

namespace Lox

/-- The reminder of how to start the program. -/
def usage : String := "Usage: lox [options] [script]"

/-- The option that asks for a rendering. -/
def Rendering.option : Rendering → String
  | outline => "--dump-ast"
  | parens => "--parens"
  | operatorLast => "--rpn"

/-- The rendering that an option asks for. -/
def Rendering.ofOption? (option : String) : Option Rendering :=
  [outline, parens, operatorLast].find? (·.option = option)

/-- What a command line asks for. -/
inductive Request
  /-- The reminder of how to start the program. -/
  | help
  /-- An option that there is none of. -/
  | unknownOption (option : String)
  /-- More than one script. -/
  | surplusScript
  /-- A script, shown in a rendering or run, or a dialogue if there is no script. -/
  | start (rendering : Option Rendering) (script : Option String)
  deriving DecidableEq, Repr, Inhabited

/-- What a command line asks for, read from the left. -/
def Request.ofArguments (rendering : Option Rendering) (script : Option String) :
    List String → Request
  | [] => start rendering script
  | a :: as =>
    if a = "-h" ∨ a = "--help" then help
    else
      match Rendering.ofOption? a with
      | some r => ofArguments (some r) script as
      | none =>
        if a.startsWith "--" then unknownOption a
        else if script.isNone then ofArguments rendering (some a) as
        else surplusScript

/-- How the program ends. -/
inductive Ending
  | exit (status : Nat)
  /-- The script is not a text. -/
  | undecodable
  /-- The execution was broken off. -/
  | interrupted (why : Interrupt)
  /-- It goes on with a dialogue. -/
  | dialogue
  deriving Inhabited

/-- What the program has written, and how it ends. -/
structure Result where
  output : String
  errors : String
  ending : Ending
  deriving Inhabited

namespace Status

/-- All went well. -/
def ok : Nat := 0

/-- The command line made no sense. -/
def usage : Nat := 64

/-- The script has an error in its text. -/
def dataError : Nat := 65

/-- The script could not be read. -/
def noInput : Nat := 66

/-- The execution failed. -/
def software : Nat := 70

end Status

namespace Script

/-- The text of a script. -/
def decode? (bytes : ByteArray) : Option String :=
  (String.fromUTF8? bytes).map fun text => String.ofList (unifyLineEnds text.toList)

/-- Shows the text of a script in a rendering. -/
def render (stack : Stack) (r : Rendering) (source : String) : Result :=
  let program := Program.ofText source
  let reporter := Reporter.speaking.reportAll program.diagnostics
  if reporter.hadError then ⟨"", reporter.written, .exit Status.dataError⟩
  else if stack.showing r program.statements then ⟨"", reporter.written, .interrupted .overflow⟩
  else
    match r.program program.statements with
    | .ok text => ⟨text ++ "\n", reporter.written, .exit Status.ok⟩
    | .error misplaced => ⟨"", misplaced.message ++ "\n", .exit Status.software⟩

/-- The exit status that a reporter asks for. -/
def statusOf (r : Reporter) : Nat :=
  if r.hadError then Status.dataError
  else if r.hadRuntimeError then Status.software
  else Status.ok

/-- Runs the text of a script. -/
def run (host : Host) (settings : Settings) (source : String) : Result :=
  match Session.run host source (.fresh host .speaking settings) with
  | .ok _ s => ⟨s.machine.output, s.reporter.written, .exit (statusOf s.reporter)⟩
  | .error why s => ⟨s.machine.output, s.reporter.written, .interrupted why⟩

/-- Runs or shows a script; `read` looks up its path. The stack is needed for reading the text in
either case. -/
def runFile (host : Host) (stack : Stack) (settings : Settings)
    (read : String → Except ReadFailure ByteArray) (rendering : Option Rendering) (path : String) :
    Result :=
  match read path with
  | .error failure =>
    ⟨"", "Could not read '" ++ path ++ "': " ++ failure.message ++ "\n", .exit Status.noInput⟩
  | .ok bytes =>
    match decode? bytes with
    | none => ⟨"", "", .undecodable⟩
    | some source =>
      match stack.reading source with
      | some reports => ⟨"", (Reporter.speaking.reportAll reports).written, .interrupted .overflow⟩
      | none =>
        match rendering with
        | some r => render stack r source
        | none => run host settings source

end Script

namespace Request

/-- Whether the limit on recursion that is asked for takes effect. -/
def setsLimit : Request → Bool
  | start .. => true
  | _ => false

/-- Does what a command line asks for, up to the dialogue. The stack has as many levels for reading
and showing as there are for an execution. -/
def fulfil (host : Host) (settings : Settings) (read : String → Except ReadFailure ByteArray) :
    Request → Result
  | help => ⟨usage ++ "\n", "", .exit Status.ok⟩
  | unknownOption option =>
    ⟨"", "Unknown option: " ++ option ++ "\n" ++ usage ++ "\n", .exit Status.usage⟩
  | surplusScript => ⟨"", usage ++ "\n", .exit Status.usage⟩
  | start rendering (some path) =>
    Script.runFile host (.ofLevels host.depth) settings read rendering path
  | start (some r) none =>
    ⟨"", r.option ++ " requires a script path\n", .exit Status.usage⟩
  | start none none => ⟨"", "", .dialogue⟩

end Request

end Lox
