import Lox.Node

/-!
# Outlines

The outline of a program is its tree with a name for every node and the words of the program as
leaves. It is written one entry a line, a step deeper for each level; an entry with a single
leaf has it on its own line.

A tree that is malformed has no outline: nothing or a token stands where a tree is due.

## Main definitions

* `Outline`: a named tree with leaves.
* `Node.outline`: the outline of a node.
* `Outline.write`: its written form.
-/

namespace Lox

/-- A named tree with words as leaves. -/
inductive Outline
  | leaf (word : String)
  | tree (name : String) (children : List Outline)
  deriving Inhabited

/-- What stands where a tree is due. -/
structure Misplaced where
  label : String
  deriving DecidableEq, Repr, Inhabited

/-- The wording of the error. -/
def Misplaced.message (m : Misplaced) : String := "Cannot lower " ++ m.label

namespace Node

mutual

/-- The outline of a node. -/
def outline : Node → Except Misplaced Outline
  | literal value => return .tree "literal" [.leaf value.text]
  | grouping inner => return .tree "grouping" [← outline inner]
  | unary operator operand => return .tree "unary" [.leaf operator.lexeme, ← outline operand]
  | binary left operator right =>
    return .tree "binary" [← outline left, .leaf operator.lexeme, ← outline right]
  | logical left operator right =>
    return .tree "logical" [← outline left, .leaf operator.lexeme, ← outline right]
  | ternary condition _ thenBranch elseBranch =>
    return .tree "ternary" [← outline condition, ← outline thenBranch, ← outline elseBranch]
  | reference name => return .tree "variable" [.leaf name.lexeme]
  | assign name value => return .tree "assign" [.leaf name.lexeme, ← outline value]
  | call callee _ arguments => return .tree "call" ((← outline callee) :: (← outlines arguments))
  | expression inner => return .tree "expression_stmt" [← outline inner]
  | print inner => return .tree "print_stmt" [← outline inner]
  | declare name none => return .tree "var_decl" [.leaf name.lexeme]
  | declare name (some initializer) =>
    return .tree "var_decl" [.leaf name.lexeme, ← outline initializer]
  | block statements => return .tree "block" (← outlines statements)
  | branch condition thenBranch none =>
    return .tree "if_stmt" [← outline condition, ← outline thenBranch]
  | branch condition thenBranch (some elseBranch) =>
    return .tree "if_stmt" [← outline condition, ← outline thenBranch, ← outline elseBranch]
  | loop condition body => return .tree "while_stmt" [← outline condition, ← outline body]
  | function name params body =>
    return .tree "fun_decl"
      [.leaf name.lexeme, .tree "params" (params.map fun p => .leaf p.lexeme),
        .tree "body" (← outlines body)]
  | returning _ none => return .tree "return_stmt" []
  | returning _ (some value) => return .tree "return_stmt" [← outline value]
  | stray token => throw ⟨(stray token).label⟩
  | absent => throw ⟨absent.label⟩

/-- The outlines of some nodes. -/
def outlines : List Node → Except Misplaced (List Outline)
  | [] => return []
  | n :: ns => return (← outline n) :: (← outlines ns)

end

end Node

namespace Outline

/-- The space in front of an entry at some level. -/
def margin (level : Nat) : String := String.ofList (List.replicate (2 * level) ' ')

mutual

/-- The written form of an outline at some level. -/
def writeAt (level : Nat) : Outline → String
  | leaf word => margin level ++ word ++ "\n"
  | tree name [leaf word] => margin level ++ name ++ "\t" ++ word ++ "\n"
  | tree name children => margin level ++ name ++ "\n" ++ writeAll (level + 1) children

/-- The written forms of some outlines at one level. -/
def writeAll (level : Nat) : List Outline → String
  | [] => ""
  | o :: os => writeAt level o ++ writeAll level os

end

/-- The written form of an outline. -/
def write (o : Outline) : String := writeAt 0 o

end Outline

end Lox
