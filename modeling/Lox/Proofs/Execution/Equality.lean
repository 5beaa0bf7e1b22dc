import Lox.Value
import Mathlib

/-!
# Equality is an equivalence

Equality of doubles is symmetric and transitive, but what is not a number is not equal to itself.
Equality as a program sees it mends this: a value that is one and the same with another is equal to
it. All values together then fall into classes, each of them of one sort.

The laws of equality of doubles are `PartialEquivBEq Float` and `Float.nan_beq_eq_false`, which no
part of Mathlib imports but the whole of it does.

## Main definitions

* `Value.Equal`: equality of values, one case for each sort.

## Main results

* `Number.equal_iff_eq_of_isNaN`: what is not a number is equal to itself only.
* `Value.equal_iff`, `Value.equivalence_equal`: equality of values is an equivalence.
-/

namespace Lox

/-! ### Numbers -/

namespace Number

variable {a b c : Number}

/-- Two numbers are equal if they are one and the same, or equal as doubles. -/
theorem equal_iff : a.equal b = true ↔ a = b ∨ (a.value == b.value) = true := by
  rw [equal, Bool.or_eq_true, decide_eq_true_eq]

theorem equal_symm (h : a.equal b = true) : b.equal a = true :=
  equal_iff.mpr ((equal_iff.mp h).imp Eq.symm BEq.symm)

theorem equal_trans (hab : a.equal b = true) (hbc : b.equal c = true) : a.equal c = true := by
  obtain rfl | hab' := equal_iff.mp hab
  · exact hbc
  obtain rfl | hbc' := equal_iff.mp hbc
  · exact hab
  exact equal_iff.mpr (.inr (BEq.trans hab' hbc'))

/-- What is not a number is equal to itself only. -/
theorem equal_iff_eq_of_isNaN (h : a.value.isNaN = true) : a.equal b = true ↔ a = b := by
  have hnan : a.value = .nan := by simpa using h
  rw [equal_iff, hnan, Float.nan_beq_eq_false]
  simp

end Number

/-! ### Values -/

namespace Value

/-- Equality of values, one case for each sort: values of different sorts are not equal, and
functions are equal if they have the same identity. -/
inductive Equal : Value → Value → Prop
  | nil : Equal nil nil
  | bool (b : Bool) : Equal (bool b) (bool b)
  | number {a b : Number} : a.equal b = true → Equal (number a) (number b)
  | string (s : String) : Equal (string s) (string s)
  | function {f g : Closure} : f.identity = g.identity → Equal (function f) (function g)
  | native (index : Nat) : Equal (native index) (native index)

variable {u v w : Value}

theorem equal_iff : v.equal w = true ↔ v.Equal w := by
  constructor
  · intro h
    unfold equal at h
    split at h
    · exact .nil
    · exact beq_iff_eq.mp h ▸ .bool _
    · exact .number h
    · exact beq_iff_eq.mp h ▸ .string _
    · exact .function (beq_iff_eq.mp h)
    · exact beq_iff_eq.mp h ▸ .native _
    · cases h
  · intro h
    cases h with
    | nil => rfl
    | bool b => exact BEq.rfl
    | number h => exact h
    | string s => exact BEq.rfl
    | function h => exact beq_iff_eq.mpr h
    | native index => exact BEq.rfl

theorem Equal.refl (v : Value) : v.Equal v := by
  cases v with
  | nil => exact .nil
  | bool b => exact .bool b
  | number a => exact .number (Number.equal_iff.mpr (.inl rfl))
  | string s => exact .string s
  | function f => exact .function rfl
  | native index => exact .native index

theorem Equal.symm (h : v.Equal w) : w.Equal v := by
  cases h with
  | nil => exact .nil
  | bool b => exact .bool b
  | number h => exact .number (Number.equal_symm h)
  | string s => exact .string s
  | function h => exact .function h.symm
  | native index => exact .native index

theorem Equal.trans (huv : u.Equal v) (hvw : v.Equal w) : u.Equal w := by
  cases huv with
  | nil | bool | string | native => exact hvw
  | number h =>
    cases hvw with
    | number h' => exact .number (Number.equal_trans h h')
  | function h =>
    cases hvw with
    | function h' => exact .function (h.trans h')

/-- Equal values are of one sort. -/
theorem Equal.ctorIdx_eq (h : v.Equal w) : v.ctorIdx = w.ctorIdx := by
  cases h <;> rfl

/-- Equality of values is an equivalence. -/
theorem equivalence_equal : Equivalence fun v w : Value => v.equal w = true where
  refl v := equal_iff.mpr (.refl v)
  symm h := equal_iff.mpr (equal_iff.mp h).symm
  trans h h' := equal_iff.mpr ((equal_iff.mp h).trans (equal_iff.mp h'))

end Value

end Lox
