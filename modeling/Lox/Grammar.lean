import Lox.Grammar.Statement
import Lox.Token.Scan

/-!
# Programs and expressions as text

A text is scanned and its tokens are read. Lexical reports come first, syntax reports behind
them; what could be read is kept whatever was reported.

## Main definitions

* `Program.ofText`: the declarations of a text.
* `Fragment.ofText`: a text as one expression.
-/

namespace Lox

/-- The declarations of a text that could be read, and everything that was reported. -/
structure Program where
  statements : List Node
  diagnostics : List Diagnostic
  deriving Inhabited

/-- The declarations of a scanned text. -/
def Program.ofScan (s : Scan) : Program :=
  let parsed := Parse.program s.tokens
  ⟨parsed.value?.getD [], s.diagnostics ++ parsed.reports.map .ofSyntax⟩

/-- The declarations of a text. -/
def Program.ofText (source : String) : Program :=
  .ofScan (.ofText source)

/-- A text as one expression, if it is one, and everything that was reported. -/
structure Fragment where
  expression : Option Node
  diagnostics : List Diagnostic
  deriving Inhabited

/-- Reads an expression that nothing follows. -/
def Parse.onlyExpression : Parse Node := do
  let e ← Parse.expression
  if ← Parse.check [.endOfInput] then
    return e
  else
    Parse.reject .trailingTokens

/-- A scanned text as one expression. -/
def Fragment.ofScan (s : Scan) : Fragment :=
  let parsed := Parse.onlyExpression s.tokens
  ⟨parsed.value?, s.diagnostics ++ parsed.reports.map .ofSyntax⟩

/-- A text as one expression. -/
def Fragment.ofText (source : String) : Fragment :=
  .ofScan (.ofText source)

end Lox
