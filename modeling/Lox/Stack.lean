import Lox.Grammar
import Lox.Node.Rendering
import Lox.Prompt.Entry

/-!
# The stack of the host

Texts are read and programs are shown by recursion, so that the stack of the host runs out where
they are nested too deeply. An execution that runs out of stack is reported as an error; here nothing
stands guard, and what is done is broken off with what has been reported until then.

How deep is too deep is a matter of the host. `Stack.ofLevels` is a stack by which this can be
computed: it counts the parentheses and braces that are open while a text is read, and the levels of
an outline while a program is shown.

## Main definitions

* `Stack`: what the stack of a host is not enough for.
* `Stack.ofLevels`: a stack with a number of levels.
-/

namespace Lox

/-- What the stack of a host is not enough for. -/
structure Stack where
  /-- What has been reported on a text when the stack runs out while it is read, if it does. -/
  reading : String → Option (List Diagnostic)
  /-- Whether the stack runs out while a program is shown. -/
  showing : Rendering → List Node → Bool

namespace Outline

mutual

/-- The number of levels of an outline. -/
def levels : Outline → Nat
  | leaf _ => 0
  | tree _ children => levelsAll children + 1

/-- The number of levels of the deepest of some outlines. -/
def levelsAll : List Outline → Nat
  | [] => 0
  | o :: os => max (levels o) (levelsAll os)

end

end Outline

namespace Stack

/-- The place of the first token behind which more parentheses and braces are open than the stack
has levels. -/
def excess? (levels : Nat) : (depth place : Nat) → List Token → Option Nat
  | _, _, [] => none
  | depth, place, t :: ts =>
    let depth := Prompt.depthBehind depth t
    if levels < depth then some place else excess? levels depth (place + 1) ts

/-- A stack with a number of levels: one for each parenthesis and brace that is open, and one for
each step into an outline. -/
def ofLevels (levels : Nat) : Stack where
  reading source :=
    let scan := Scan.ofText source
    (excess? levels 0 0 scan.tokens).map fun place =>
      (Program.ofScan { scan with tokens := scan.tokens.take place }).diagnostics
  showing _ statements :=
    match Node.outlines statements with
    | .ok outlines => decide (levels < Outline.levelsAll outlines)
    | .error _ => false

end Stack

end Lox
