import Lox.Node

/-!
# Values

The values of a running program. A function value holds its declaration and the chain of scopes
it was declared in; functions are told apart by an identity that each declaration executed
gives out anew. A host function is known by its number in the host's list.

## Main definitions

* `Chain`: a scope and the scopes around it.
* `Closure`, `Value`: the values.
* `Value.text`, `Value.truthy`, `Value.equal`: what the language observes of them.
-/

namespace Lox

/-- The number of a scope, in the order of creation. -/
abbrev ScopeId := Nat

/-- A scope and the scopes around it, the innermost first. -/
structure Chain where
  here : ScopeId
  outer : List ScopeId
  deriving DecidableEq, Repr, Inhabited

namespace Chain

/-- The scopes of a chain, the innermost first. -/
def scopes (c : Chain) : List ScopeId := c.here :: c.outer

/-- The chain with a further scope inside. -/
def extend (c : Chain) (inner : ScopeId) : Chain := ⟨inner, c.scopes⟩

end Chain

/-- A function: its identity, its declaration, and the scopes it was declared in. -/
structure Closure where
  identity : Nat
  name : Token
  params : List Token
  body : List Node
  scope : Chain
  deriving Inhabited

/-- A value of a running program. -/
inductive Value
  | nil
  | bool (value : Bool)
  | number (value : Number)
  | string (value : String)
  | function (closure : Closure)
  | native (index : Nat)
  deriving Inhabited

namespace Value

/-- The text that is printed for a value. -/
def text : Value → String
  | nil => "nil"
  | bool value => if value then "true" else "false"
  | number value => value.text
  | string value => value
  | function closure => "<fn " ++ closure.name.lexeme ++ ">"
  | native _ => "<native fn>"

/-- Whether a value counts as true: all but `nil` and `false` do. -/
def truthy : Value → Bool
  | nil => false
  | bool value => value
  | _ => true

/-- Whether a value can be called. -/
def isCallable : Value → Bool
  | function _ | native _ => true
  | _ => false

/-- Equality as a program sees it: values of different sorts are never equal, functions are
equal if they are the same one. -/
def equal : Value → Value → Bool
  | nil, nil => true
  | bool a, bool b => a == b
  | number a, number b => a.equal b
  | string a, string b => a == b
  | function f, function g => f.identity == g.identity
  | native i, native j => i == j
  | _, _ => false

end Value

end Lox
