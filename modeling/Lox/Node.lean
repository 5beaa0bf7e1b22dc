import Lox.Token

/-!
# Programs as trees

Expressions and statements of the language. One type holds both: a tree that the grammar
produces keeps them apart, but a tree built by other means may hold a statement in the place of
an expression, a token in the place of a tree, or nothing at all, and executing such a tree is
an error like any other.

## Main definitions

* `Node`: a tree.
* `Node.label`: what a node is called in error messages.
-/

namespace Lox

/-- A tree. -/
inductive Node
  /-- A value. -/
  | literal (value : Literal)
  /-- An expression in parentheses. -/
  | grouping (inner : Node)
  /-- An operator and its operand. -/
  | unary (operator : Token) (operand : Node)
  /-- Two operands and the operator between them. -/
  | binary (left : Node) (operator : Token) (right : Node)
  /-- Two operands of which the second is evaluated only if the first does not decide. -/
  | logical (left : Node) (operator : Token) (right : Node)
  /-- A choice between two expressions. -/
  | ternary (condition : Node) (question : Token) (thenBranch elseBranch : Node)
  /-- The value of a variable. -/
  | reference (name : Token)
  /-- The assignment of a value to a variable. -/
  | assign (name : Token) (value : Node)
  /-- A call; `paren` is its closing parenthesis. -/
  | call (callee : Node) (paren : Token) (arguments : List Node)
  /-- An expression evaluated for its effects. -/
  | expression (inner : Node)
  /-- An expression whose value is printed. -/
  | print (inner : Node)
  /-- The declaration of a variable. -/
  | declare (name : Token) (initializer : Option Node)
  /-- Statements in a scope of their own. -/
  | block (statements : List Node)
  /-- A choice between two statements. -/
  | branch (condition thenBranch : Node) (elseBranch : Option Node)
  /-- A statement repeated as long as a condition holds. -/
  | loop (condition body : Node)
  /-- The declaration of a function. -/
  | function (name : Token) (params : List Token) (body : List Node)
  /-- The end of a call. -/
  | returning (keyword : Token) (value : Option Node)
  /-- A token in the place of a tree. -/
  | stray (token : Token)
  /-- Nothing in the place of a tree. -/
  | absent
  deriving Inhabited

/-- What a node is called in error messages. -/
def Node.label : Node → String
  | literal .. => "Literal"
  | grouping .. => "Grouping"
  | unary .. => "Unary"
  | binary .. => "Binary"
  | logical .. => "Logical"
  | ternary .. => "Ternary"
  | reference .. => "Variable"
  | assign .. => "Assign"
  | call .. => "Call"
  | expression .. => "Expression"
  | print .. => "Print"
  | declare .. => "Var"
  | block .. => "Block"
  | branch .. => "If"
  | loop .. => "While"
  | function .. => "Function"
  | returning .. => "Return"
  | stray .. => "Tok"
  | absent => "NoneType"

end Lox
