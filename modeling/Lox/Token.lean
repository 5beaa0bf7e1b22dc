import Lox.Number

/-!
# Tokens

The words of the language: what kinds there are, how operators and keywords are spelled, and
the values that literals carry.

## Main definitions

* `Kind`: the kinds of tokens.
* `Literal`: the value that a literal token or a literal expression carries.
* `Token`: a kind, the text it was written as, its literal, and its line.
* `Kind.keywords`, `Kind.operators`: the spellings, longer operators first.
-/

namespace Lox

/-- The kinds of tokens. -/
inductive Kind
  | leftParen | rightParen | leftBrace | rightBrace
  | comma | dot | minus | plus | semicolon | slash | star | question | colon
  | bang | bangEqual | equal | equalEqual | greater | greaterEqual | less | lessEqual
  | identifier | string | number
  | kwAnd | kwClass | kwElse | kwFalse | kwFun | kwFor | kwIf | kwNil
  | kwOr | kwPrint | kwReturn | kwSuper | kwThis | kwTrue | kwVar | kwWhile
  | endOfInput
  deriving DecidableEq, Repr, Inhabited

namespace Kind

/-- The reserved words. -/
def keywords : List (String × Kind) :=
  [("and", kwAnd), ("class", kwClass), ("else", kwElse), ("false", kwFalse), ("for", kwFor),
    ("fun", kwFun), ("if", kwIf), ("nil", kwNil), ("or", kwOr), ("print", kwPrint),
    ("return", kwReturn), ("super", kwSuper), ("this", kwThis), ("true", kwTrue),
    ("var", kwVar), ("while", kwWhile)]

/-- The operators and punctuation marks, an operator before its own beginnings. -/
def operators : List (List Char × Kind) :=
  [(['!', '='], bangEqual), (['=', '='], equalEqual), (['<', '='], lessEqual),
    (['>', '='], greaterEqual), (['!'], bang), (['='], equal), (['<'], less), (['>'], greater),
    (['+'], plus), (['-'], minus), (['*'], star), (['/'], slash), (['('], leftParen),
    ([')'], rightParen), (['\x7b'], leftBrace), (['\x7d'], rightBrace), ([','], comma),
    (['.'], dot), ([';'], semicolon), (['?'], question), ([':'], colon)]

/-- The kind of a word: a keyword if it is reserved, an identifier otherwise. -/
def ofWord (word : String) : Kind :=
  (keywords.lookup word).getD identifier

/-- The keywords that begin a statement or a declaration. -/
def startsStatement : Kind → Bool
  | kwClass | kwFor | kwFun | kwIf | kwPrint | kwReturn | kwVar | kwWhile => true
  | _ => false

end Kind

/-- The value that a literal carries. The scanner makes numbers and strings only; whole
numbers and unsupported objects occur in trees that are built by other means. -/
inductive Literal
  | nil
  | bool (value : Bool)
  | number (value : Number)
  | whole (value : Int)
  | string (value : String)
  | unsupported (shown : String)
  deriving DecidableEq, Repr, Inhabited

/-- The written form of a literal, a string as it is. -/
def Literal.text : Literal → String
  | .nil => "nil"
  | .bool value => if value then "true" else "false"
  | .number value => value.text
  | .whole value => (Number.ofInt value).text
  | .string value => value
  | .unsupported shown => shown

/-- A token: its kind, the text it was written as, the literal it carries, and its line. -/
structure Token where
  kind : Kind
  lexeme : String
  literal : Literal
  line : Int
  deriving DecidableEq, Repr, Inhabited

end Lox
