import Lox.Evaluation
import Lox.Grammar
import Lox.Reporter
import Lox.Settings

/-!
# Sessions

A session runs any number of programs, one after the other, with one machine and one reporter.
A program with an error in its text is not executed. A runtime error ends the execution of its
program and is reported, a stack overflow likewise.

What an interactive entry is, a program or an expression whose value is asked for, is decided by
its last character and by whether it can be read as an expression.

## Main definitions

* `Session`: machine, reporter and settings.
* `Session.Act`: something that is done in a session.
* `Session.run`: runs a program.
* `Session.enter`: runs an interactive entry.
-/

namespace Lox

/-- A machine with its reporter and the settings in effect. -/
structure Session where
  machine : Machine
  reporter : Reporter
  settings : Settings
  deriving Inhabited

namespace Session

/-- Something that is done in a session. It may be broken off by an interrupt that is neither
a runtime error nor a stack overflow. -/
abbrev Act := EStateM Interrupt Session

/-- A session before the first program. -/
def fresh (host : Host) (reporter : Reporter) (settings : Settings) : Session :=
  ⟨.fresh host.natives, reporter, settings⟩

/-- Reports a runtime error. -/
def noteFailure (f : Failure) (s : Session) : Session :=
  { s with reporter := (s.reporter.failure f).traceHeading s.settings.tracing }

/-- Runs a step of the machine. -/
def step {α : Type} (r : Run α) : Act α := fun s =>
  match r s.machine with
  | .ok a m => .ok a { s with machine := m }
  | .error e m => .error e { s with machine := m }

/-- Does something unless it is broken off by a runtime error or a stack overflow, which is
reported. -/
def guarded {α : Type} (act : Act α) : Act (Option α) := fun s =>
  match act s with
  | .ok a s' => .ok (some a) s'
  | .error (.failed f) s' => .ok none (noteFailure f s')
  | .error .overflow s' => .ok none (noteFailure ⟨.stackOverflow, none⟩ s')
  | .error e s' => .error e s'

/-- Executes statements up to the first runtime error, which is reported. The answer is whether
there was none. -/
def interpret (host : Host) (statements : List Node) : Act Bool := fun s =>
  match step (Run.executeAll host statements) s with
  | .ok _ s' => .ok true s'
  | .error (.failed f) s' => .ok false (noteFailure f s')
  | .error e s' => .error e s'

/-- Runs a program. -/
def run (host : Host) (source : String) : Act Unit := do
  let program := Program.ofText source
  modify fun s => { s with reporter := s.reporter.reportAll program.diagnostics }
  unless (← get).reporter.hadError do
    let _ ← guarded (interpret host program.statements)

/-- Whether an entry is a program by its last character. -/
def endsStatement (entry : String) : Bool :=
  match (Blank.strip entry.toList).getLast? with
  | none => true
  | some c => c = ';' || c = '\x7d'

/-- Runs an entry. If it is an expression, the answer is its value. -/
def enter (host : Host) (entry : String) : Act (Option Value) := do
  let program : Act (Option Value) := do
    run host entry
    return none
  if endsStatement entry then
    program
  else
    let fragment := Fragment.ofText entry
    match fragment.expression with
    | some e =>
      if fragment.diagnostics.isEmpty then guarded (step (Run.evaluate host e)) else program
    | none => program

end Session

end Lox
