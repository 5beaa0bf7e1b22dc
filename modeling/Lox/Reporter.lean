import Lox.Diagnostic
import Lox.Failure

/-!
# The reporter

A reporter keeps everything that has been reported, remembers whether anything was wrong with
the text or with an execution, and writes reports to an error stream unless it is silent.

## Main definitions

* `Reporter`: the state of a reporter.
* `Reporter.report`, `Reporter.failure`: a report before and during execution.
-/

namespace Lox

/-- A runtime error as a diagnostic. -/
def Diagnostic.ofFailure (f : Failure) : Diagnostic :=
  .runtime f.cause.message f.line

/-- The state of a reporter. -/
structure Reporter where
  /-- Whether the error stream is left alone. -/
  silent : Bool
  /-- What has been reported, in order. -/
  diagnostics : List Diagnostic
  /-- Whether anything was wrong with the text since the last reset. -/
  hadError : Bool
  /-- Whether any execution has failed. -/
  hadRuntimeError : Bool
  /-- The text on the error stream. -/
  written : String
  deriving Inhabited

namespace Reporter

/-- A reporter that writes to the error stream. -/
def speaking : Reporter := ⟨false, [], false, false, ""⟩

/-- A reporter that only keeps what is reported. -/
def quiet : Reporter := ⟨true, [], false, false, ""⟩

/-- Writes a line to the error stream. -/
def writeLine (r : Reporter) (text : String) : Reporter :=
  if r.silent then r else { r with written := r.written ++ text ++ "\n" }

/-- Keeps and writes a diagnostic. -/
def keep (r : Reporter) (d : Diagnostic) : Reporter :=
  { r.writeLine d.render with diagnostics := r.diagnostics ++ [d] }

/-- Reports something that is wrong with the text. -/
def report (r : Reporter) (d : Diagnostic) : Reporter :=
  { r.keep d with hadError := true }

/-- Reports everything that is wrong with the text. -/
def reportAll (r : Reporter) (ds : List Diagnostic) : Reporter :=
  ds.foldl report r

/-- Reports a runtime error. -/
def failure (r : Reporter) (f : Failure) : Reporter :=
  { r.keep (.ofFailure f) with hadRuntimeError := true }

/-- Writes the heading of a trace. The lines below it, which say where the host was when it failed,
are left out, so that with traces the error stream is not told in full. -/
def traceHeading (r : Reporter) (tracing : Bool) : Reporter :=
  if tracing then r.writeLine "\nPython traceback:" else r

/-- Forgets that anything was wrong with the text. -/
def reset (r : Reporter) : Reporter := { r with hadError := false }

end Reporter

end Lox
