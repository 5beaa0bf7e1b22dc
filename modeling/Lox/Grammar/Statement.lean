import Lox.Grammar.Expression

/-!
# The grammar of statements

Declarations of functions and variables, and statements. Branches and loop bodies are
statements, blocks and function bodies hold declarations. A `for` loop is read as the `while`
loop it stands for, in a block of its own if it has an initializer.

A syntax error gives up the innermost declaration it occurs in; reading goes on behind it.

## Main definitions

* `Statement.Entry`: the two readers that productions start again.
* `Statement.statement`, `Statement.declaration`: the productions in terms of those.
* `Parse.program`: the reader of whole programs.
-/

namespace Lox

namespace Statement

/-- The readers that productions start again behind a token they have taken. A declaration
that was given up has no value. -/
structure Entry where
  declaration : Parse (Option Node)
  statement : Parse Node

/-- An expression and the token behind it. -/
def expressionThen (kind : Kind) (problem : SyntaxProblem) : Parse Node := do
  let e ← Parse.expression
  let _ ← Parse.expect kind problem
  return e

/-- An expression, unless a token of this kind, which ends it, is in front already. -/
def optionalThen (kind : Kind) (problem : SyntaxProblem) : Parse (Option Node) := do
  let e ← Parse.unlessAt kind Parse.expression
  let _ ← Parse.expect kind problem
  return e

/-- An expression in parentheses behind a keyword. -/
def condition (opening closing : SyntaxProblem) : Parse Node := do
  let _ ← Parse.expect .leftParen opening
  expressionThen .rightParen closing

/-- A variable declaration behind its keyword. -/
def variableDeclaration : Parse Node := do
  let name ← Parse.expect .identifier .variableName
  let initializer ← Parse.behind .equal Parse.expression
  let _ ← Parse.expect .semicolon .variableEnd
  return .declare name initializer

/-- An expression as a statement. -/
def expressionStatement : Parse Node := do
  return .expression (← expressionThen .semicolon .expressionEnd)

/-- The `while` loop that a `for` loop stands for. The increment runs behind the body, the
initializer in front of the loop. -/
def desugarFor (initializer condition increment : Option Node) (body : Node) : Node :=
  let pass := match increment with
    | none => body
    | some e => .block [body, .expression e]
  let repeated := Node.loop (condition.getD (.literal (.bool true))) pass
  match initializer with
  | none => repeated
  | some i => .block [i, repeated]

variable (bound : Nat) (again : Entry)

/-- Declarations up to the brace that closes a block. -/
def block : Parse (List Node) := do
  let statements ← Parse.upTo [.rightBrace, .endOfInput] again.declaration bound
  let _ ← Parse.expect .rightBrace .blockEnd
  return statements

/-- The parameters of a function behind the opening parenthesis. -/
def parameters : Parse (List Token) :=
  Parse.entriesUnlessAt .rightParen (Parse.expect .identifier .parameterName) .tooManyParameters
    bound

/-- A function declaration behind its keyword. -/
def functionDeclaration : Parse Node := do
  let name ← Parse.expect .identifier .functionName
  let _ ← Parse.expect .leftParen .functionParen
  let params ← parameters bound
  let _ ← Parse.expect .rightParen .parametersEnd
  let _ ← Parse.expect .leftBrace .bodyStart
  return .function name params (← block bound again)

/-- The first clause of a `for` loop. -/
def forInitializer : Parse (Option Node) := do
  match ← Parse.accept [.semicolon, .kwVar] with
  | none => some <$> expressionStatement
  | some t => if t.kind = .semicolon then return none else some <$> variableDeclaration

/-- A `for` loop behind its keyword. -/
def forLoop : Parse Node := do
  let _ ← Parse.expect .leftParen .forParen
  let initializer ← forInitializer
  let condition ← optionalThen .semicolon .loopConditionEnd
  let increment ← optionalThen .rightParen .forEnd
  let body ← again.statement
  return desugarFor initializer condition increment body

/-- A choice behind its keyword. -/
def branch : Parse Node := do
  let condition ← condition .ifParen .ifEnd
  let thenBranch ← again.statement
  let elseBranch ← Parse.behind .kwElse again.statement
  return .branch condition thenBranch elseBranch

/-- A `while` loop behind its keyword. -/
def whileLoop : Parse Node := do
  let condition ← condition .whileParen .whileEnd
  return .loop condition (← again.statement)

/-- A statement. -/
def statement : Parse Node := do
  match ← Parse.accept [.kwFor, .kwWhile, .kwIf, .kwPrint, .kwReturn, .leftBrace] with
  | none => expressionStatement
  | some t =>
    match t.kind with
    | .kwFor => forLoop again
    | .kwWhile => whileLoop again
    | .kwIf => branch again
    | .kwPrint => return .print (← expressionThen .semicolon .printEnd)
    | .kwReturn => return .returning t (← optionalThen .semicolon .returnEnd)
    | _ => return .block (← block bound again)

/-- A declaration. -/
def strictDeclaration : Parse Node := do
  match ← Parse.accept [.kwFun, .kwVar] with
  | none => statement bound again
  | some t => if t.kind = .kwFun then functionDeclaration bound again else variableDeclaration

/-- A declaration, given up if it has a syntax error. -/
def declaration : Parse (Option Node) := (strictDeclaration bound again).recovering

/-- The readers of declarations and statements of less than `bound` tokens. -/
def readers : (bound : Nat) → Entry
  | 0 => ⟨Parse.exhausted, Parse.exhausted⟩
  | bound + 1 =>
    ⟨fun ts => declaration (bound + 1) (readers bound) ts,
      fun ts => statement (bound + 1) (readers bound) ts⟩

end Statement

/-- Reads a declaration or a statement. -/
def Parse.declaration : Parse (Option Node) := fun ts =>
  (Statement.readers (ts.length + 1)).declaration ts

/-- Reads declarations up to the end of input. -/
def Parse.program : Parse (List Node) := fun ts =>
  Parse.upTo [.endOfInput] Parse.declaration (ts.length + 1) ts

end Lox
