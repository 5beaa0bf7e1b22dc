import Lox.Text.WholeNumber

/-!
# Settings

Two environment variables configure the program: one asks for traces of runtime errors, the
other for a limit on recursion. A text that makes no sense counts as no setting.

## Main definitions

* `Settings`: the texts of the variables, as far as they are set.
* `Settings.tracing`, `Settings.recursionLimit`: what they mean.
-/

namespace Lox

/-- The texts of the environment variables, as far as they are set. -/
structure Settings where
  trace : Option String
  limit : Option String
  deriving DecidableEq, Repr, Inhabited

namespace Settings

/-- Nothing is set. -/
def unset : Settings := ⟨none, none⟩

/-- The variable that asks for traces. -/
def traceVariable : String := "LOX_DEBUG_PY_TRACE"

/-- The variable that asks for a limit on recursion. -/
def limitVariable : String := "LOX_RECURSION_LIMIT"

/-- The settings with one variable set to a text or unset. Other variables do not matter. -/
def update (s : Settings) (variableName : String) (text : Option String) : Settings :=
  if variableName = traceVariable then { s with trace := text }
  else if variableName = limitVariable then { s with limit := text }
  else s

/-- The words that switch something on. Words are compared without regard to case; no letter
outside ASCII has one of theirs as its small form. -/
def onWords : List String := ["1", "true", "yes", "on"]

/-- The words that switch something off. -/
def offWords : List String := ["0", "false", "no", "off"]

/-- Whether traces are asked for. -/
def tracing (s : Settings) : Bool :=
  match s.trace with
  | none => false
  | some text => onWords.contains (String.ofList ((Blank.strip text.toList).map Char.toLower))

/-- The settings in which traces are asked for, or not. -/
def setTracing (s : Settings) (on : Bool) : Settings :=
  { s with trace := if on then some "1" else none }

/-- The limit on recursion that is asked for: a positive number. -/
def recursionLimit (s : Settings) : Option Nat := do
  let limit ← WholeNumber.read? (← s.limit)
  if 0 < limit then some limit.toNat else none

end Settings

end Lox
