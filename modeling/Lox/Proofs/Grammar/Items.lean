import Mathlib.Data.List.Forall2
import Lox.Proofs.Grammar.Expression

/-!
# Trees and their tokens

A tree says which tokens it was made of: those that it keeps, words of which only the kind
matters, and literals of which the kind and the value matter. A tree respects the tiers if every
operand is joined tightly enough for its place, as trees without superfluous groupings have to be.
A `for` loop is not among these trees, since its tree is that of another loop.

## Main definitions

* `Item`, `Item.Matches`: a token that a tree asks for.
* `Node.items`, `Node.listItems`: the tokens of a tree, of a program.
* `Node.rank`, `Node.isExpression`: how tightly an expression is joined, and whether it respects
  the tiers.
* `Node.isStatement`, `Node.areDeclarations`: statements and programs that respect the tiers.
-/

namespace Lox

/-- A token that a tree asks for. -/
inductive Item
  /-- A token that the tree keeps. -/
  | kept (t : Token)
  /-- A token of some kind. -/
  | word (kind : Kind)
  /-- A token of some kind that carries a value. -/
  | constant (kind : Kind) (value : Literal)
  deriving DecidableEq, Repr, Inhabited

/-- A token is what is asked for. -/
def Item.Matches : Item → Token → Prop
  | kept t, u => u = t
  | word kind, u => u.kind = kind
  | constant kind value, u => u.kind = kind ∧ u.literal = value

/-- The token of a literal. There is none for an object of another kind. -/
def Literal.items : Literal → List Item
  | nil => [.word .kwNil]
  | bool value => [.word (if value then .kwTrue else .kwFalse)]
  | number value => [.constant .number (.number value)]
  | whole value => [.constant .number (.whole value)]
  | string value => [.constant .string (.string value)]
  | unsupported _ => []

/-- A value that tokens can carry. -/
def Literal.isPlain : Literal → Bool
  | unsupported _ => false
  | _ => true

/-- Tokens between an opening and a closing one. -/
def enclosed (opening closing : Kind) (is : List Item) : List Item :=
  .word opening :: (is ++ [.word closing])

/-- The parameters of a function with commas between them. -/
def parameterItems : List Token → List Item
  | [] => []
  | [p] => [.kept p]
  | p :: p' :: ps => .kept p :: .word .comma :: parameterItems (p' :: ps)

/-- How tightly an operator joins. -/
def Kind.rank : Kind → Nat
  | kwOr => 2
  | kwAnd => 3
  | bangEqual | equalEqual => 4
  | greater | greaterEqual | less | lessEqual => 5
  | minus | plus => 6
  | slash | star => 7
  | _ => 0

namespace Node

/-- How tightly the parts of an expression are joined, from assignments to primary expressions. -/
def rank : Node → Nat
  | assign .. => 0
  | ternary .. => 1
  | logical _ operator _ | binary _ operator _ => operator.kind.rank
  | unary .. => 8
  | call .. => 9
  | _ => 10

mutual

/-- The tokens of a tree. -/
def items : Node → List Item
  | literal value => value.items
  | grouping inner => enclosed .leftParen .rightParen inner.items
  | unary operator operand => .kept operator :: operand.items
  | binary left operator right | logical left operator right =>
    left.items ++ .kept operator :: right.items
  | ternary condition question thenBranch elseBranch =>
    condition.items ++ .kept question :: (thenBranch.items ++ .word .colon :: elseBranch.items)
  | reference name => [.kept name]
  | assign name value => .kept name :: .word .equal :: value.items
  | call callee paren arguments =>
    callee.items ++ .word .leftParen :: (entryItems arguments ++ [.kept paren])
  | expression inner => inner.items ++ [.word .semicolon]
  | print inner => .word .kwPrint :: (inner.items ++ [.word .semicolon])
  | declare name none => [.word .kwVar, .kept name, .word .semicolon]
  | declare name (some initializer) =>
    .word .kwVar :: .kept name :: .word .equal :: (initializer.items ++ [.word .semicolon])
  | block statements => enclosed .leftBrace .rightBrace (listItems statements)
  | branch condition thenBranch none =>
    .word .kwIf :: (enclosed .leftParen .rightParen condition.items ++ thenBranch.items)
  | branch condition thenBranch (some elseBranch) =>
    .word .kwIf :: (enclosed .leftParen .rightParen condition.items ++
      (thenBranch.items ++ .word .kwElse :: elseBranch.items))
  | loop condition body =>
    .word .kwWhile :: (enclosed .leftParen .rightParen condition.items ++ body.items)
  | function name params body =>
    .word .kwFun :: .kept name :: (enclosed .leftParen .rightParen (parameterItems params) ++
      enclosed .leftBrace .rightBrace (listItems body))
  | returning keyword none => [.kept keyword, .word .semicolon]
  | returning keyword (some value) => .kept keyword :: (value.items ++ [.word .semicolon])
  | stray _ | absent => []

/-- The tokens of arguments, with commas between them. -/
def entryItems : List Node → List Item
  | [] => []
  | n :: ns => n.items ++ moreItems ns

/-- The tokens of arguments that others are in front of. -/
def moreItems : List Node → List Item
  | [] => []
  | n :: ns => .word .comma :: (n.items ++ moreItems ns)

/-- The tokens of some trees one after the other. -/
def listItems : List Node → List Item
  | [] => []
  | n :: ns => n.items ++ listItems ns

end

mutual

/-- An expression that respects the tiers. -/
def isExpression : Node → Bool
  | literal value => value.isPlain
  | grouping inner => inner.isExpression
  | reference name => name.kind = .identifier
  | assign name value => name.kind = .identifier && value.isExpression
  | ternary condition question thenBranch elseBranch =>
    question.kind = .question && (2 ≤ condition.rank && condition.isExpression) &&
      (1 ≤ thenBranch.rank && thenBranch.isExpression) &&
      (1 ≤ elseBranch.rank && elseBranch.isExpression)
  | logical left operator right =>
    Expression.logicalKinds.contains operator.kind &&
      (operator.kind.rank ≤ left.rank && left.isExpression) &&
      (operator.kind.rank < right.rank && right.isExpression)
  | binary left operator right =>
    Expression.binaryKinds.contains operator.kind &&
      (operator.kind.rank ≤ left.rank && left.isExpression) &&
      (operator.kind.rank < right.rank && right.isExpression)
  | unary operator operand =>
    [Kind.bang, .minus].contains operator.kind && (8 ≤ operand.rank && operand.isExpression)
  | call callee paren arguments =>
    paren.kind = .rightParen && (9 ≤ callee.rank && callee.isExpression) &&
      arguments.length ≤ maxEntries && areExpressions arguments
  | _ => false

/-- Expressions that respect the tiers. -/
def areExpressions : List Node → Bool
  | [] => true
  | n :: ns => n.isExpression && areExpressions ns

end

/-- A statement that an `else` behind it would become part of. -/
def endsOpen : Node → Bool
  | branch _ _ none => true
  | branch _ _ (some elseBranch) => elseBranch.endsOpen
  | loop _ body => body.endsOpen
  | _ => false

mutual

/-- A statement that respects the tiers, or a declaration where there may be one. -/
def isStatement (declares : Bool) : Node → Bool
  | expression inner | print inner => inner.isExpression
  | declare name none => declares && name.kind = .identifier
  | declare name (some initializer) =>
    declares && name.kind = .identifier && initializer.isExpression
  | block statements => areDeclarations statements
  | branch condition thenBranch none => condition.isExpression && isStatement false thenBranch
  | branch condition thenBranch (some elseBranch) =>
    condition.isExpression && (isStatement false thenBranch && !thenBranch.endsOpen) &&
      isStatement false elseBranch
  | loop condition body => condition.isExpression && isStatement false body
  | function name params body =>
    declares && name.kind = .identifier && params.length ≤ maxEntries &&
      params.all (·.kind = .identifier) && areDeclarations body
  | returning keyword none => keyword.kind = .kwReturn
  | returning keyword (some value) => keyword.kind = .kwReturn && value.isExpression
  | _ => false

/-- Declarations and statements that respect the tiers. -/
def areDeclarations : List Node → Bool
  | [] => true
  | n :: ns => isStatement true n && areDeclarations ns

end

end Node

/-- What asks for the beginning and what asks for the end of a list. -/
theorem forall₂_append {is js : List Item} {us : List Token} :
    List.Forall₂ Item.Matches (is ++ js) us ↔
      ∃ vs ws, us = vs ++ ws ∧ List.Forall₂ Item.Matches is vs ∧ List.Forall₂ Item.Matches js ws := by
  constructor
  · intro h
    induction is generalizing us with
    | nil => exact ⟨[], us, rfl, .nil, h⟩
    | cons i is ih =>
      obtain ⟨t, us, ht, hus, rfl⟩ := List.forall₂_cons_left_iff.mp h
      obtain ⟨vs, ws, rfl, hvs, hws⟩ := ih hus
      exact ⟨t :: vs, ws, rfl, .cons ht hvs, hws⟩
  · rintro ⟨vs, ws, rfl, hvs, hws⟩
    exact List.rel_append hvs hws

theorem forall₂_singleton {i : Item} {us : List Token} :
    List.Forall₂ Item.Matches [i] us ↔ ∃ u, i.Matches u ∧ us = [u] := by
  simp [List.forall₂_cons_left_iff]

theorem forall₂_enclosed {opening closing : Kind} {is : List Item} {us : List Token} :
    List.Forall₂ Item.Matches (enclosed opening closing is) us ↔
      ∃ t vs u, us = t :: (vs ++ [u]) ∧ t.kind = opening ∧ u.kind = closing ∧
        List.Forall₂ Item.Matches is vs := by
  constructor
  · intro h
    obtain ⟨t, _, ht, hbehind, rfl⟩ := List.forall₂_cons_left_iff.mp h
    obtain ⟨vs, _, rfl, hvs, hlast⟩ := forall₂_append.mp hbehind
    obtain ⟨u, hu, rfl⟩ := forall₂_singleton.mp hlast
    exact ⟨t, vs, u, rfl, ht, hu, hvs⟩
  · rintro ⟨t, vs, u, rfl, ht, hu, hvs⟩
    exact .cons ht (List.rel_append hvs (.cons hu .nil))

/-- A number or a string carries a value of its kind. -/
def Token.IsPlain (t : Token) : Prop :=
  (t.kind = .number → (∃ x, t.literal = .number x) ∨ ∃ x, t.literal = .whole x) ∧
    (t.kind = .string → ∃ x, t.literal = .string x)

end Lox
