import Lox.Machine

/-!
# Execution of statements

What a statement does is said in terms of the level below: the statements and expressions it is
made of are executed and evaluated there. Expressions, statements and calls take a level each,
so that nesting of any sort ends in a stack overflow when the levels are used up.

## Main definitions

* `Engine`: evaluation of expressions, execution of statements, and performance of calls.
* `Engine.executeNode`, `Engine.executeAll`: execution of statements in terms of the level below.
-/

namespace Lox

/-- What runs a program at some level: the evaluation of expressions, the execution of
statements, and the performance of calls, which takes any number of arguments. -/
structure Engine where
  evaluate : Node → Run Value
  execute : Node → Run Unit
  invoke : Value → List Value → Run Answer

/-- The surroundings of a program: the functions of the host, how deep expressions, statements
and calls may be nested, and how many passes a loop may make. -/
structure Host where
  natives : List Native
  depth : Nat
  passes : Nat

namespace Host

/-- A host with the usual bounds. -/
def ofNatives (natives : List Native) : Host := ⟨natives, 10000, Nat.pow 2 62⟩

/-- The deepest nesting that can be asked for. -/
def maxDepth : Nat := 100000

/-- The host with another bound on nesting, if one is asked for. -/
def limited (host : Host) (limit : Option Nat) : Host :=
  { host with depth := (limit.map (min maxDepth)).getD host.depth }

end Host

namespace Engine

variable (passes : Nat) (below : Engine)

/-- The execution of statements one after the other. -/
def executeAll : List Node → Run Unit
  | [] => pure ()
  | n :: ns => do
    below.execute n
    executeAll ns

/-- One pass of a loop; the answer is whether the condition held. -/
def pass (condition body : Node) : Run Bool := do
  if (← below.evaluate condition).truthy then
    below.execute body
    return true
  else
    return false

/-- What a return statement gives back. -/
def givenBack : Option Node → Run Value
  | none => pure .nil
  | some e => below.evaluate e

/-- The execution of a statement. -/
def executeNode : Node → Run Unit
  | .expression inner => do
    let _ ← below.evaluate inner
  | .print inner => do
    let v ← below.evaluate inner
    Run.printLine v.text
  | .declare name none => Run.define name.lexeme .nil
  | .declare name (some initializer) => do
    let v ← below.evaluate initializer
    Run.define name.lexeme v
  | .block statements => do
    let scope ← Run.newScope (← get).scope []
    Run.within scope (executeAll below statements)
  | .branch condition thenBranch elseBranch => do
    if (← below.evaluate condition).truthy then
      below.execute thenBranch
    else
      match elseBranch with
      | none => pure ()
      | some n => below.execute n
  | .loop condition body => Run.iterate passes (pass below condition body)
  | .function name params body => do
    let identity ← Run.newIdentity
    let closure := ⟨identity, name, params, body, (← get).scope⟩
    Run.define name.lexeme (.function closure)
  | .returning keyword value => Run.returning keyword (givenBack below value)
  | other => Run.fail (.unknownStatement other.label) none

end Engine

end Lox
