import Lox.Failure

/-!
# Operators on values

What unary and binary operators do with values. Numbers that an operator computes are new, so
a not-a-number result still has to be given an origin by whoever keeps track of them.

## Main definitions

* `Literal.value`: the value of a literal.
* `Value.applyUnary`, `Value.applyBinary`: the operators.
-/

namespace Lox

/-- The value of a literal. -/
def Literal.value : Literal → Except Failure Value
  | .nil => return .nil
  | .bool value => return .bool value
  | .number value => return .number value
  | .whole value => return .number (.ofInt value)
  | .string value => return .string value
  | .unsupported shown => throw ⟨.unsupportedLiteral shown, none⟩

namespace Value

/-- A unary operator applied to a value. -/
def applyUnary (op : Token) (v : Value) : Except Failure Value :=
  match op.kind with
  | .minus =>
    match v with
    | number n => return number (.ofFloat (-n.value))
    | _ => throw ⟨.operandNotNumber, some op⟩
  | .bang => return bool (!v.truthy)
  | _ => throw ⟨.unsupportedUnary op.lexeme, some op⟩

/-- An arithmetic operator applied to two values, which have to be numbers. -/
def arithmetic (op : Token) (f : Float → Float → Except Cause Value) (l r : Value) :
    Except Failure Value :=
  match l, r with
  | number a, number b => (f a.value b.value).mapError (⟨·, some op⟩)
  | _, _ => throw ⟨.operandsNotNumbers, some op⟩

/-- The sum of two numbers, or the texts of two values in a row if one is a string and the other
is not nil. -/
def add (op : Token) (l r : Value) : Except Failure Value :=
  match l, r with
  | number a, number b => return number (.ofFloat (a.value + b.value))
  | string _, nil | nil, string _ => throw ⟨.operandsNotAddable, some op⟩
  | string _, _ | _, string _ => return string (l.text ++ r.text)
  | _, _ => throw ⟨.operandsNotAddable, some op⟩

/-- A binary operator applied to two values. -/
def applyBinary (op : Token) (l r : Value) : Except Failure Value :=
  match op.kind with
  | .equalEqual => return bool (l.equal r)
  | .bangEqual => return bool (!l.equal r)
  | .plus => add op l r
  | .minus => arithmetic op (fun a b => return number (.ofFloat (a - b))) l r
  | .star => arithmetic op (fun a b => return number (.ofFloat (a * b))) l r
  | .slash =>
    arithmetic op
      (fun a b => if b == 0 then throw .divisionByZero else return number (.ofFloat (a / b))) l r
  | .greater => arithmetic op (fun a b => return bool (decide (b < a))) l r
  | .greaterEqual => arithmetic op (fun a b => return bool (decide (b ≤ a))) l r
  | .less => arithmetic op (fun a b => return bool (decide (a < b))) l r
  | .lessEqual => arithmetic op (fun a b => return bool (decide (a ≤ b))) l r
  | _ => throw ⟨.unsupportedBinary op.lexeme, some op⟩

end Value

end Lox
