import Lox.Grammar.Parse
import Lox.Node

/-!
# The grammar of expressions

From the loosest to the tightest: assignment, ternary choice, `or`, `and`, equality,
comparison, sums, products, unary operators, calls, and primary expressions. The tiers from
`or` to products join their operands to the left and are listed in `Expression.tiers`;
assignment, choice and unary operators lean to the right.

An assignment is read as a choice first; that its left side is a variable is checked
afterwards, and a failed check is reported without stopping.

Each production is written in terms of the readers it starts again behind a token it has
taken, so that one recursion on the number of tokens reads all of them.

## Main definitions

* `Expression.Entry`: the productions that are started again.
* `Expression.production`: a production in terms of those.
* `Parse.expression`: the reader of expressions.
-/

namespace Lox

namespace Expression

/-- The productions of expressions that other productions start again. -/
inductive Entry
  | assignment
  | ternary
  | unary
  deriving DecidableEq, Repr, Inhabited

/-- The operators of each tier, the loosest first, and the nodes they make. -/
def tiers : List (List Kind × (Node → Token → Node → Node)) :=
  [([.kwOr], .logical),
    ([.kwAnd], .logical),
    ([.bangEqual, .equalEqual], .binary),
    ([.greater, .greaterEqual, .less, .lessEqual], .binary),
    ([.minus, .plus], .binary),
    ([.slash, .star], .binary)]

/-- Reads operands joined by the operators of some tiers, the first tier being the loosest. -/
def tier (bound : Nat) (operand : Parse Node) :
    List (List Kind × (Node → Token → Node → Node)) → Parse Node
  | [] => operand
  | (operators, join) :: tighter => do
    let left ← tier bound operand tighter
    Parse.chain operators join (tier bound operand tighter) bound left

variable (bound : Nat) (again : Entry → Parse Node)

/-- The arguments of a call behind its opening parenthesis. -/
def arguments : Parse (List Node) :=
  Parse.entriesUnlessAt .rightParen (again .assignment) .tooManyArguments bound

/-- A literal, a variable, or an expression in parentheses. -/
def primary : Parse Node := do
  match ← Parse.accept [.kwFalse, .kwTrue, .kwNil, .number, .string, .identifier, .leftParen] with
  | none => Parse.reject .expression
  | some t =>
    match t.kind with
    | .kwFalse => return .literal (.bool false)
    | .kwTrue => return .literal (.bool true)
    | .kwNil => return .literal .nil
    | .identifier => return .reference t
    | .leftParen =>
      let inner ← again .assignment
      let _ ← Parse.expect .rightParen .groupEnd
      return .grouping inner
    | _ => return .literal t.literal

/-- Calls of `callee`, of the result of that, and so on. -/
def calls : (steps : Nat) → (callee : Node) → Parse Node
  | 0, _ => Parse.exhausted
  | steps + 1, callee => do
    match ← Parse.accept [.leftParen] with
    | none => return callee
    | some _ =>
      let entries ← arguments bound again
      let paren ← Parse.expect .rightParen .argumentsEnd
      calls steps (.call callee paren entries)

/-- A primary expression and the calls behind it. -/
def call : Parse Node := do
  calls bound again bound (← primary again)

/-- Unary operators and their operand. -/
def unary : Parse Node := do
  match ← Parse.accept [.bang, .minus] with
  | some operator => return .unary operator (← again .unary)
  | none => call bound again

/-- A choice. -/
def ternary : Parse Node := do
  let condition ← tier bound (unary bound again) tiers
  match ← Parse.accept [.question] with
  | none => return condition
  | some question =>
    let thenBranch ← again .ternary
    let _ ← Parse.expect .colon .ternaryColon
    let elseBranch ← again .ternary
    return .ternary condition question thenBranch elseBranch

/-- An assignment. -/
def assignment : Parse Node := do
  let target ← ternary bound again
  match ← Parse.accept [.equal] with
  | none => return target
  | some equals =>
    let value ← again .assignment
    match target with
    | .reference name => return .assign name value
    | _ =>
      Parse.note equals .assignmentTarget
      return target

/-- A production in terms of the productions that are started again. -/
def production : Entry → Parse Node
  | .assignment => assignment bound again
  | .ternary => ternary bound again
  | .unary => unary bound again

/-- Reads an expression of less than `bound` tokens. -/
def read : (bound : Nat) → Entry → Parse Node
  | 0, _ => Parse.exhausted
  | bound + 1, entry => production (bound + 1) (read bound) entry

end Expression

/-- Reads an expression. -/
def Parse.expression : Parse Node := fun ts =>
  Expression.read (ts.length + 1) .assignment ts

end Lox
