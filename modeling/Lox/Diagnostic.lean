import Lox.Token

/-!
# Diagnostics

What is reported to the author of a program: lexical and syntax errors, which are found before
anything is executed, and runtime errors. A report is kept as its cause; its wording is a
function of the cause.

## Main definitions

* `LexicalProblem`, `SyntaxProblem`: what can be wrong with a text, with their wording.
* `LexicalReport`, `SyntaxReport`: such a problem at its place.
* `Diagnostic`: a report of any kind, and its rendering as text.
-/

namespace Lox

/-- What can be wrong with the characters of a text. -/
inductive LexicalProblem
  | unterminatedString
  | unclosedComment
  | unexpectedCharacter (c : Char)
  deriving DecidableEq, Repr, Inhabited

/-- The wording of a lexical problem. -/
def LexicalProblem.message : LexicalProblem → String
  | unterminatedString => "Unterminated string."
  | unclosedComment => "Unclosed multi-line comment."
  | unexpectedCharacter c => "Unexpected character '" ++ c.toString ++ "'."

/-- A lexical problem and its line. -/
structure LexicalReport where
  line : Int
  problem : LexicalProblem
  deriving DecidableEq, Repr, Inhabited

/-- What can be wrong with the tokens of a program: something that had to follow is missing, a
list is too long, or an assignment has no variable on its left. -/
inductive SyntaxProblem
  | functionName | functionParen | parameterName | parametersEnd | bodyStart
  | variableName | variableEnd | blockEnd
  | ifParen | ifEnd | whileParen | whileEnd
  | forParen | loopConditionEnd | forEnd
  | printEnd | returnEnd | expressionEnd
  | ternaryColon | argumentsEnd | groupEnd | expression | trailingTokens
  | tooManyParameters | tooManyArguments | assignmentTarget
  deriving DecidableEq, Repr, Inhabited

/-- The most entries that a list of parameters or arguments may have. -/
def maxEntries : Nat := 255

/-- The wording of a syntax problem. -/
def SyntaxProblem.message : SyntaxProblem → String
  | functionName => "Expect function name."
  | functionParen => "Expect '(' after function name."
  | parameterName => "Expect parameter name."
  | parametersEnd => "Expect ')' after parameters."
  | bodyStart => "Expect '\x7b' before function body."
  | variableName => "Expect variable name."
  | variableEnd => "Expect ';' after variable declaration."
  | blockEnd => "Expect '\x7d' after block."
  | ifParen => "Expect '(' after 'if'."
  | ifEnd => "Expect ')' after if condition."
  | whileParen => "Expect '(' after 'while'."
  | whileEnd => "Expect ')' after while condition."
  | forParen => "Expect '(' after 'for'."
  | loopConditionEnd => "Expect ';' after loop condition."
  | forEnd => "Expect ')' after for clauses."
  | printEnd => "Expect ';' after value."
  | returnEnd => "Expect ';' after return value."
  | expressionEnd => "Expect ';' after expression."
  | ternaryColon => "Expected ':' for ternary expression."
  | argumentsEnd => "Expect ')' after arguments."
  | groupEnd => "Expect ')' after expression."
  | expression => "Expect expression."
  | trailingTokens => "Unexpected tokens after expression."
  | tooManyParameters => "Can't have more than " ++ toString maxEntries ++ " parameters."
  | tooManyArguments => "Can't have more than " ++ toString maxEntries ++ " arguments."
  | assignmentTarget => "Invalid assignment target."

/-- A syntax problem at a token. -/
structure SyntaxReport where
  token : Token
  problem : SyntaxProblem
  deriving DecidableEq, Repr, Inhabited

/-- The wording of a syntax report for a reader who does not see the program. -/
def SyntaxReport.message (r : SyntaxReport) : String :=
  r.problem.message ++ " at line " ++ toString r.token.line

/-- A report of any kind. -/
inductive Diagnostic
  /-- Something is wrong with the text, `place` says where in the line. -/
  | static (line : Int) (place message : String)
  /-- An execution failed; not every failure has a line. -/
  | runtime (message : String) (line : Option Int)
  deriving DecidableEq, Repr, Inhabited

namespace Diagnostic

/-- How the place of a token in its line is named. -/
def placeOf (t : Token) : String :=
  if t.kind = .endOfInput then " at end" else " at '" ++ t.lexeme ++ "'"

/-- A problem with a token. -/
def atToken (t : Token) (message : String) : Diagnostic :=
  static t.line (placeOf t) message

/-- A lexical report names its line only. -/
def ofLexical (r : LexicalReport) : Diagnostic :=
  static r.line "" r.problem.message

/-- A syntax report names its token. -/
def ofSyntax (r : SyntaxReport) : Diagnostic :=
  atToken r.token r.problem.message

/-- The text of a diagnostic. -/
def render : Diagnostic → String
  | static line place message => "[line " ++ toString line ++ "] Error" ++ place ++ ": " ++ message
  | runtime message none => message
  | runtime message (some line) => message ++ "\n[line " ++ toString line ++ "]"

end Diagnostic

end Lox
