import Lox.Failure

/-!
# Host functions

A host may give a program functions of its own. What such a function does is described by an
`Action`: it may call values with arguments, one after the other, and in the end answers, fails,
or breaks down. What it passes on and what it answers with is an `Offer`: one of the values it was
given, plain data of its own, nothing, which counts as nil in an answer, or an object of the host,
which is an error there.

A host function sees of its arguments, and of what its calls answer, only a `View`: what a
program could print of them. It names them by their place in the list of all it has been given,
arguments first, and may ask whether two of them are equal. So what it does cannot depend on
where a program is written or on the scopes of its caller, and it cannot make functions.

The host functions share notes, which last from one call to the next. So they may do something
else each time they are called, count their calls, or keep what they have seen.

## Main definitions

* `Answer`: what a call answers, and what may be observed of it.
* `View`: what a host function sees.
* `Offer`: what it answers with or passes on.
* `Action`: what a host function does.
* `Native`: a host function; `Native.register`, `Native.remove`: lists of them.
-/

namespace Lox

/-- What a call answers. -/
inductive Answer
  | value (value : Value)
  | nothing
  | foreign (typeName : String)
  deriving Inhabited

namespace Answer

/-- The text of an answer. -/
def text : Answer → String
  | value v => v.text
  | nothing => "nil"
  | foreign typeName => typeName

/-- Whether an answer counts as true. -/
def truthy : Answer → Bool
  | value v => v.truthy
  | _ => true

/-- Whether an answer can be called. -/
def isCallable : Answer → Bool
  | value v => v.isCallable
  | _ => false

/-- Whether an answer is a value of the language. -/
def isValue : Answer → Bool
  | value _ => true
  | _ => false

/-- Equality of answers: nothing is equal to nothing only. -/
def equal : Answer → Answer → Bool
  | value a, value b => a.equal b
  | nothing, nothing => true
  | _, _ => false

/-- An answer as a value of the language. -/
def ensure : Answer → Except Failure Value
  | value v => return v
  | nothing => return .nil
  | foreign typeName => throw ⟨.unexpectedValue typeName, none⟩

end Answer

/-- What a host function sees of an answer. -/
inductive View
  | nil
  | bool (value : Bool)
  | number (value : Float)
  | string (value : String)
  | callable (shown : String)
  | nothing
  | foreign (typeName : String)
  deriving DecidableEq, Repr, Inhabited

namespace View

/-- What a host function sees of a value. -/
def ofValue : Value → View
  | .nil => nil
  | .bool b => bool b
  | .number n => number n.value
  | .string s => string s
  | .function f => callable (Value.function f).text
  | .native index => callable (Value.native index).text

/-- What a host function sees of an answer. -/
def ofAnswer : Answer → View
  | .value v => ofValue v
  | .nothing => nothing
  | .foreign typeName => foreign typeName

/-- The text of what is seen. -/
def text : View → String
  | nil | nothing => "nil"
  | bool b => (Value.bool b).text
  | number x => (Number.ofFloat x).text
  | string s => s
  | callable shown => shown
  | foreign typeName => typeName

end View

/-- How a host function can break down, which no program can observe. -/
inductive Fault
  /-- It asked for something that it was not given. -/
  | missingArgument
  /-- It called what cannot be called, or passed on what is no value. -/
  | notInvocable
  deriving DecidableEq, Repr, Inhabited

/-- What a host function answers with or passes on. -/
inductive Offer
  /-- What it was given at this place of the list. -/
  | given (index : Nat)
  | nil
  | bool (value : Bool)
  | number (value : Float)
  | string (value : String)
  | nothing
  | foreign (typeName : String)
  deriving DecidableEq, Repr, Inhabited

/-- What a host function does. -/
inductive Action
  /-- Answers. -/
  | done (offer : Offer)
  /-- Fails with a runtime error of its own. -/
  | fail (kind : FailureKind) (message : String) (token : Option Token)
  /-- Breaks down. -/
  | crash (fault : Fault)
  /-- Calls what it was given at some place, whatever its number of parameters, and goes on with
  the answer, which it is given in addition. -/
  | invoke (callee : Nat) (arguments : List Offer) (next : View → Action)
  /-- Asks whether what it was given at two places is equal. -/
  | compare (left right : Nat) (next : Bool → Action)
  /-- Adds to the notes. -/
  | note (entry : View) (next : Action)
  /-- Reads all notes, the oldest first. -/
  | consult (next : List View → Action)

/-- A host function: its name, its number of parameters, and what it does with arguments. -/
structure Native where
  name : String
  arity : Nat
  action : List View → Action

namespace Native

/-- The host functions with a further one, in the place of the one of its name if there is
one. -/
def register : List Native → Native → List Native
  | [], n => [n]
  | m :: ms, n => if m.name = n.name then n :: ms else m :: register ms n

/-- The host functions without the one of this name. -/
def remove (ns : List Native) (name : String) : List Native :=
  ns.filter (·.name ≠ name)

end Native

end Lox
