import Lox.Node.Outline

/-!
# Renderings of programs

Programs are shown in three ways: as outlines, in parentheses with the operator first, and with
the operator last. In the last form groups leave no trace, unary operators are attached to their
operand, and statements are followed by their keyword.

## Main definitions

* `Node.parens`: a node in parentheses, the operator first.
* `Node.operatorLast`: a node with the operator last.
* `Rendering`: the three ways, and `Rendering.program`, the text of a program in one of them.
-/

namespace Lox

namespace Node

/-- Words in parentheses. -/
def inParens (words : List String) : String := "(" ++ " ".intercalate words ++ ")"

mutual

/-- A node in parentheses, the operator first. -/
def parens : Node → String
  | literal value => value.text
  | grouping inner => inParens ["group", parens inner]
  | unary operator operand => inParens [operator.lexeme, parens operand]
  | binary left operator right | logical left operator right =>
    inParens [operator.lexeme, parens left, parens right]
  | ternary condition _ thenBranch elseBranch =>
    inParens ["?:", parens condition, parens thenBranch, parens elseBranch]
  | reference name => name.lexeme
  | assign name value => inParens ["=", name.lexeme, parens value]
  | call callee _ arguments => inParens ("call" :: parens callee :: parensAll arguments)
  | expression inner => inParens [";", parens inner]
  | print inner => inParens ["print", parens inner]
  | declare name none => inParens ["var", name.lexeme]
  | declare name (some initializer) => inParens ["var", name.lexeme, "=", parens initializer]
  | block statements => inParens ("block" :: parensAll statements)
  | branch condition thenBranch none => inParens ["if", parens condition, parens thenBranch]
  | branch condition thenBranch (some elseBranch) =>
    inParens ["if", parens condition, parens thenBranch, parens elseBranch]
  | loop condition body => inParens ["while", parens condition, parens body]
  | function name params body =>
    inParens ("fun" :: name.lexeme :: inParens (params.map (·.lexeme)) :: parensAll body)
  | returning _ none => inParens ["return"]
  | returning _ (some value) => inParens ["return", parens value]
  | stray token => (stray token).label
  | absent => absent.label

/-- Some nodes in parentheses. -/
def parensAll : List Node → List String
  | [] => []
  | n :: ns => parens n :: parensAll ns

end

/-- Words in a row. -/
def inRow (words : List String) : String := " ".intercalate words

mutual

/-- A node with the operator last. -/
def operatorLast : Node → String
  | literal value => value.text
  | grouping inner => operatorLast inner
  | unary operator operand => operatorLast operand ++ operator.lexeme
  | binary left operator right | logical left operator right =>
    inRow [operatorLast left, operatorLast right, operator.lexeme]
  | ternary condition _ thenBranch elseBranch =>
    inRow [operatorLast condition, operatorLast thenBranch, operatorLast elseBranch, "?:"]
  | reference name => name.lexeme
  | assign name value => inRow [operatorLast value, name.lexeme, "="]
  | call callee _ arguments =>
    inRow (operatorLast callee :: operatorLastAll arguments
      ++ ["call/" ++ toString arguments.length])
  | expression inner => operatorLast inner
  | print inner => inRow [operatorLast inner, "print"]
  | declare name none => inRow ["nil", name.lexeme, "var"]
  | declare name (some initializer) => inRow [operatorLast initializer, name.lexeme, "var"]
  | block statements => inRow ("\x7b" :: operatorLastAll statements ++ ["\x7d"])
  | branch condition thenBranch none =>
    inRow [operatorLast condition, operatorLast thenBranch, "if"]
  | branch condition thenBranch (some elseBranch) =>
    inRow [operatorLast condition, operatorLast thenBranch, operatorLast elseBranch, "if"]
  | loop condition body => inRow [operatorLast condition, operatorLast body, "while"]
  | function name params body =>
    inRow (params.map (·.lexeme) ++ "\x7b" :: operatorLastAll body
      ++ ["\x7d", name.lexeme, "fun"])
  | returning _ none => inRow ["return"]
  | returning _ (some value) => inRow [operatorLast value, "return"]
  | stray token => (stray token).label
  | absent => absent.label

/-- Some nodes with the operator last. -/
def operatorLastAll : List Node → List String
  | [] => []
  | n :: ns => operatorLast n :: operatorLastAll ns

end

end Node

/-- The ways to show a program. -/
inductive Rendering
  | outline
  | parens
  | operatorLast
  deriving DecidableEq, Repr, Inhabited

namespace Rendering

/-- One expression or statement shown in one of the ways. -/
def node (r : Rendering) (n : Node) : Except Misplaced String := do
  let o ← n.outline
  return match r with
    | outline => o.write
    | parens => n.parens
    | operatorLast => n.operatorLast

/-- A program shown in one of the ways; the last two give each statement a line. -/
def program (r : Rendering) (statements : List Node) : Except Misplaced String := do
  let os ← Node.outlines statements
  return match r with
    | outline => (Outline.tree "program" os).write
    | parens => "\n".intercalate (Node.parensAll statements)
    | operatorLast => "\n".intercalate (Node.operatorLastAll statements)

end Rendering

end Lox
