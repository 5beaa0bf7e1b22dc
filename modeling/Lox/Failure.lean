import Lox.Value

/-!
# Failures of a running program

A runtime error has a cause and the token it is blamed on. Some causes arise where no token is
at hand; the call they pass through supplies one.

## Main definitions

* `Cause`: what can go wrong, with its wording and its kind.
* `Failure`: a cause and its token.
-/

namespace Lox

/-- The kinds of runtime errors. -/
inductive FailureKind
  | runtime
  | type
  | arity
  | name
  | zeroDivision
  deriving DecidableEq, Repr, Inhabited

/-- What can go wrong in a running program. -/
inductive Cause
  | operandNotNumber
  | operandsNotNumbers
  | operandsNotAddable
  | divisionByZero
  | notCallable
  | argumentCount (expected given : Nat)
  | undefinedVariable (name : String)
  | returnOutsideFunction
  | unknownExpression (label : String)
  | unknownStatement (label : String)
  | unsupportedUnary (operator : String)
  | unsupportedBinary (operator : String)
  | unsupportedLiteral (shown : String)
  | unexpectedValue (typeName : String)
  | stackOverflow
  /-- An error that a host function makes up. -/
  | host (kind : FailureKind) (message : String)
  deriving DecidableEq, Repr, Inhabited

namespace Cause

/-- The kind of a cause. -/
def kind : Cause → FailureKind
  | operandNotNumber | operandsNotNumbers | operandsNotAddable | notCallable
  | unexpectedValue _ => .type
  | divisionByZero => .zeroDivision
  | argumentCount .. => .arity
  | undefinedVariable _ => .name
  | returnOutsideFunction | unknownExpression _ | unknownStatement _ | unsupportedUnary _
  | unsupportedBinary _ | unsupportedLiteral _ | stackOverflow => .runtime
  | host kind _ => kind

/-- The wording of a cause. -/
def message : Cause → String
  | operandNotNumber => "Operand must be a number."
  | operandsNotNumbers => "Operands must be numbers."
  | operandsNotAddable => "Invalid operands for + operation."
  | divisionByZero => "Cannot divide by zero."
  | notCallable => "Can only call functions and classes."
  | argumentCount expected given =>
    "Expected " ++ toString expected ++ " arguments but got " ++ toString given ++ "."
  | undefinedVariable name => "Undefined variable '" ++ name ++ "'."
  | returnOutsideFunction => "Can't return from top-level code."
  | unknownExpression label => "Unknown expression node: " ++ label
  | unknownStatement label => "Unknown statement node: " ++ label
  | unsupportedUnary operator => "Unsupported unary operator '" ++ operator ++ "'."
  | unsupportedBinary operator => "Unsupported binary operator '" ++ operator ++ "'."
  | unsupportedLiteral shown => "Unsupported literal " ++ shown
  | unexpectedValue typeName => "Unexpected value type " ++ typeName
  | stackOverflow => "Stack overflow."
  | host _ message => message

end Cause

/-- A runtime error: its cause, and the token it is blamed on. -/
structure Failure where
  cause : Cause
  token : Option Token
  deriving DecidableEq, Repr, Inhabited

namespace Failure

/-- The line of a failure. -/
def line (f : Failure) : Option Int := f.token.map (·.line)

/-- The failure blamed on a token, unless it is blamed on one already. -/
def adopt (t : Token) (f : Failure) : Failure :=
  { f with token := some (f.token.getD t) }

end Failure

end Lox
