import Lox.Proofs.Execution.Invariant

/-!
# What is called does not see its caller

Scoping is lexical. A call ends in the same way wherever it is made from: neither the scope in
effect there nor the number of calls that are active makes a difference to what is printed, to the
value or the failure, to the token the failure is blamed on, or to the scopes and what they hold.

Only how many levels are left may differ between two places, so that a call may overflow at the one
and not at the other. Of two calls that do not overflow this makes no difference either.

## Main definitions

* `outcome`: what a step ends with, and the store it leaves.

## Main results

* `outcome_call`: the outcome of a call does not depend on the place.
-/

namespace Lox

/-- What a step ends with, and the store it leaves behind. -/
def outcome {α : Type} : EStateM.Result Interrupt Machine α → Except Interrupt α × Store
  | .ok a m => (.ok a, m.store)
  | .error e m => (.error e, m.store)

/-- Nothing is asked for but that the stores are the same. -/
def Invariant.anywhere : Invariant where
  home _ := True
  store _ := True
  lax := True

namespace Invariant

theorem anywhere_reflexive : anywhere.simulation.toLikeness.Reflexive :=
  reflexive (fun _ => trivial) (fun _ => trivial) (fun _ => trivial)

theorem anywhere_kept : anywhere.Kept where
  expressions _ := anywhere_reflexive.expressions () _
  statements _ := anywhere_reflexive.statements () _
  cause _ := trivial
  get? _ _ := anywhere_reflexive.values () _
  assign _ _ _ := trivial
  define _ _ _ := trivial
  push _ _ := trivial
  home_extend _ _ := trivial
  printLine _ _ := trivial
  note _ _ := trivial
  identify _ := trivial

theorem anywhere_outcome_eq {p p' : Place} {r r' : EStateM.Result Interrupt Machine Value}
    (h : anywhere.simulation.Ends p p' () anywhere.simulation.Values r r')
    (hr : (outcome r).1 ≠ .error .overflow) (hr' : (outcome r').1 ≠ .error .overflow) :
    outcome r = outcome r' := by
  have hdiscrete := Likeness.diagonal_discrete anywhere.cause anywhere.expression anywhere.statement
  cases h with
  | @ok _ s s' v v' _ hs hv =>
    have hstore : s = s' := hs.1
    have hvalue : v = v' := hdiscrete.values hv
    rw [hstore, hvalue]
    rfl
  | @error _ s s' e e' _ hs he =>
    have hstore : s = s' := hs.1
    have hinterrupt : e = e' := hdiscrete.interrupts he
    rw [hstore, hinterrupt]
    rfl
  | left => exact absurd rfl hr
  | right => exact absurd rfl hr'

end Invariant

/-- A call ends in the same way wherever it is made from. For any store, any value that is called
with any arguments, and any closing parenthesis, two calls that are made at two places, with
whatever scopes in effect and whatever numbers of active calls, end with the same value or the
same error, blamed on the same token, and leave the same scopes and the same output, unless one
of them overflows. The numbers of levels that are left need not be the same. -/
theorem outcome_call (host : Host) (s : Store) (callee : Value) (arguments : List Value)
    (paren : Token) (p p' : Place) (depth depth' : Nat)
    (h : (outcome (Engine.call host (.ofDepth host depth) callee arguments paren (s.at p))).1
      ≠ .error .overflow)
    (h' : (outcome (Engine.call host (.ofDepth host depth') callee arguments paren (s.at p'))).1
      ≠ .error .overflow) :
    outcome (Engine.call host (.ofDepth host depth) callee arguments paren (s.at p))
      = outcome (Engine.call host (.ofDepth host depth') callee arguments paren (s.at p')) := by
  have hlawful := Invariant.anywhere_kept.lawful
  have hengines := hlawful.ofDepth host (.inl trivial : True ∨ depth = depth')
  have hcallee := Invariant.anywhere_reflexive.values () callee
  have harguments := List.forall₂_same.mpr fun v (_ : v ∈ arguments) =>
    Invariant.anywhere_reflexive.values () v
  have hcall : Invariant.anywhere.simulation.Agree p p' () Invariant.anywhere.simulation.Values
      (Engine.call host (.ofDepth host depth) callee arguments paren)
      (Engine.call host (.ofDepth host depth') callee arguments paren) :=
    hlawful.call hengines hcallee harguments rfl
  exact Invariant.anywhere_outcome_eq (hcall s s ⟨rfl, trivial⟩) h h'

namespace Shadowed

def word (kind : Kind) (lexeme : String) : Token := ⟨kind, lexeme, .nil, 1⟩

/-- A global variable, and a scope in which another variable of that name is defined. -/
def store : Store := ⟨⟨#[[("a", .string "outer")], [("a", .string "inner")]]⟩, 1, "", []⟩

/-- A function that gives back the value of the variable, declared at the outermost level. -/
def reader : Closure :=
  ⟨0, word .identifier "f", [], [.returning (word .kwReturn "return")
    (some (.reference (word .identifier "a")))], Machine.globalScope⟩

/-- A function that is called where a variable is shadowed finds the one it was declared with. -/
theorem outcome_call_shadowed :
    let call (p : Place) (depth : Nat) := Engine.call ⟨[], 8, 8⟩ (.ofDepth ⟨[], 8, 8⟩ depth)
      (.function reader) [] (word .rightParen ")") (store.at p)
    (outcome (call ⟨Machine.globalScope, 0⟩ 8)).1 = .ok (.string "outer") ∧
      outcome (call ⟨⟨1, [0]⟩, 3⟩ 5) = outcome (call ⟨Machine.globalScope, 0⟩ 8) :=
  ⟨rfl, outcome_call _ _ _ _ _ _ _ _ _ nofun nofun⟩

end Shadowed

end Lox
