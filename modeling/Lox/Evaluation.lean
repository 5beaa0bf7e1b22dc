import Lox.Execution
import Lox.Value.Operator

/-!
# Evaluation of expressions and performance of calls

The evaluation of an expression asks for the values of its parts one level down, and so does the
performance of a call for the statements of its function. A program has a given number of levels;
to ask on the lowest one is a stack overflow.

A call made by a program checks the number of arguments, counts as active while it is performed,
and is blamed by its closing parenthesis for errors that are blamed on nothing yet. A call made
by a host function is performed at once, with parameters and arguments paired as far as both
go.

## Main definitions

* `Engine.evaluateNode`, `Engine.perform`: evaluation and calls in terms of the level below.
* `Engine.above`: one level in terms of the level below.
* `Engine.ofDepth`: the engine with a number of levels.
* `Host.engine`: the engine of a host.
-/

namespace Lox

namespace Engine

variable (host : Host) (below : Engine)

/-- What a host function offers, where `given` is all it has been given. -/
def offered (given : List Answer) : Offer → Run Answer
  | .given index =>
    match given[index]? with
    | some answer => pure answer
    | none => throw (.broken .missingArgument)
  | .nil => return .value .nil
  | .bool b => return .value (.bool b)
  | .number x => return .value (← Run.computed (.number (.ofFloat x)))
  | .string s => return .value (.string s)
  | .nothing => return .nothing
  | .foreign typeName => return .foreign typeName

/-- An answer as something that can be passed on or called: a value of the language. -/
def asValue : Answer → Run Value
  | .value v => pure v
  | _ => throw (.broken .notInvocable)

/-- The value of an offer. -/
def passed (given : List Answer) (offer : Offer) : Run Value := do
  asValue (← offered given offer)

/-- The values of some offers. -/
def passedAll (given : List Answer) : List Offer → Run (List Value)
  | [] => pure []
  | offer :: offers => do
    let v ← passed given offer
    return v :: (← passedAll given offers)

/-- Whether what a host function was given at two places is equal. -/
def compared (given : List Answer) (left right : Nat) : Run Bool :=
  match given[left]?, given[right]? with
  | some a, some b => pure (a.equal b)
  | _, _ => throw (.broken .missingArgument)

/-- Does what a host function does, where `given` is all it has been given so far. -/
def act : (given : List Answer) → Action → Run Answer
  | given, .done offer => offered given offer
  | _, .fail kind message token => Run.fail (.host kind message) token
  | _, .crash fault => throw (.broken fault)
  | given, .invoke callee arguments next => do
    let f ← passed given (.given callee)
    let vs ← passedAll given arguments
    let answer ← below.invoke f vs
    act (given ++ [answer]) (next (View.ofAnswer answer))
  | given, .compare left right next => do act given (next (← compared given left right))
  | given, .note entry next => do
    Run.note entry
    act given next
  | given, .consult next => do act given (next (← get).notes)

/-- Runs the body of a function in a new scope inside the one it was declared in, which holds
its arguments. -/
def enter (f : Closure) (arguments : List Value) : Run Value := do
  let scope ← Run.newScope f.scope (f.bindings arguments)
  Run.catchingReturn (Run.within scope (executeAll below f.body))

/-- Performs a call. -/
def perform : Value → List Value → Run Answer
  | .function f, arguments => do return .value (← enter below f arguments)
  | .native index, arguments =>
    match host.natives[index]? with
    | some n => act below (arguments.map .value) (n.action (arguments.map View.ofValue))
    | none => throw (.broken .notInvocable)
  | _, _ => throw (.broken .notInvocable)

/-- The number of parameters of a value that can be called. -/
def arity : Value → Nat
  | .function f => f.params.length
  | .native index => (host.natives[index]?.map (·.arity)).getD 0
  | _ => 0

/-- A call made by a program; `paren` is its closing parenthesis. -/
def call (callee : Value) (arguments : List Value) (paren : Token) : Run Value := do
  let expected := arity host callee
  if arguments.length ≠ expected then
    Run.fail (.argumentCount expected arguments.length) (some paren)
  else
    Run.counted (Run.adopting paren do
      let answer ← below.invoke callee arguments
      Run.ofExcept answer.ensure)

/-- The values of expressions one after the other. -/
def evaluateAll : List Node → Run (List Value)
  | [] => pure []
  | n :: ns => do
    let v ← below.evaluate n
    return v :: (← evaluateAll ns)

/-- The value of an expression. -/
def evaluateNode : Node → Run Value
  | .literal value => Run.ofExcept value.value
  | .grouping inner => below.evaluate inner
  | .unary operator operand => do
    let v ← below.evaluate operand
    Run.computed (← Run.ofExcept (v.applyUnary operator))
  | .binary left operator right => do
    let l ← below.evaluate left
    let r ← below.evaluate right
    Run.computed (← Run.ofExcept (l.applyBinary operator r))
  | .logical left operator right => do
    let l ← below.evaluate left
    if operator.kind = .kwOr then
      if l.truthy then return l else below.evaluate right
    else
      if l.truthy then below.evaluate right else return l
  | .ternary condition _ thenBranch elseBranch => do
    if (← below.evaluate condition).truthy then
      below.evaluate thenBranch
    else
      below.evaluate elseBranch
  | .reference name => Run.lookup name
  | .assign name value => do
    let v ← below.evaluate value
    Run.assign name v
    return v
  | .call callee paren arguments => do
    let f ← below.evaluate callee
    if f.isCallable then
      let vs ← evaluateAll below arguments
      call host below f vs paren
    else
      Run.fail .notCallable (some paren)
  | other => Run.fail (.unknownExpression other.label) none

/-- The engine one level above. -/
def above : Engine :=
  ⟨evaluateNode host below, executeNode host.passes below, perform host below⟩

/-- The engine that has no level left. -/
def overflowing : Engine :=
  ⟨fun _ => throw .overflow, fun _ => throw .overflow, fun _ _ => throw .overflow⟩

/-- The engine with a number of levels. -/
def ofDepth : (depth : Nat) → Engine
  | 0 => overflowing
  | depth + 1 => above host (ofDepth depth)

end Engine

/-- The engine of a host. -/
def Host.engine (host : Host) : Engine := Engine.ofDepth host host.depth

namespace Run

/-- The value of an expression. -/
def evaluate (host : Host) (n : Node) : Run Value := host.engine.evaluate n

/-- The execution of a statement. -/
def execute (host : Host) (n : Node) : Run Unit := host.engine.execute n

/-- The execution of statements one after the other. -/
def executeAll (host : Host) (ns : List Node) : Run Unit := host.engine.executeAll ns

end Run

end Lox
