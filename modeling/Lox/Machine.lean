import Lox.Native
import Lox.Scope

/-!
# The state of a running program

The state holds all scopes, the chain that is in effect, how many calls are active, the next
free identity, the text that has been printed, and the notes of the host functions. A step of a
program changes the state and ends with a value or an interrupt. A step that enters a scope puts
the chain back in every case, one that enters a call counts it out again.

## Main definitions

* `Machine`: the state.
* `Interrupt`: the ways in which a step ends early.
* `Run`: a step.
* `Run.within`, `Run.counted`: steps in another scope, and inside a call.
-/

namespace Lox

/-- The state of a running program. -/
structure Machine where
  scopes : Scopes
  scope : Chain
  callDepth : Nat
  nextIdentity : Nat
  output : String
  notes : List View
  deriving Inhabited

namespace Machine

/-- The outermost scope, which holds the global variables. -/
def globalScope : Chain := ⟨0, []⟩

/-- The table of a new outermost scope: the host functions. -/
def nativeTable (natives : List Native) : Table :=
  natives.zipIdx.map fun (n, index) => (n.name, .native index)

/-- The state before the first program. -/
def fresh (natives : List Native) : Machine where
  scopes := Scopes.empty.push (nativeTable natives)
  scope := globalScope
  callDepth := 0
  nextIdentity := 0
  output := ""
  notes := []

/-- The global variables. -/
def globals (m : Machine) : Table := m.scopes.table globalScope.here

end Machine

/-- The ways in which a step ends early. -/
inductive Interrupt
  /-- A function gives back a value. -/
  | returned (value : Value)
  /-- A runtime error. -/
  | failed (failure : Failure)
  /-- Expressions and calls are nested too deeply. -/
  | overflow
  /-- A loop has used up its passes. -/
  | unfinished
  /-- A host function broke down. -/
  | broken (fault : Fault)
  deriving Inhabited

/-- A step of a running program. -/
abbrev Run := EStateM Interrupt Machine

namespace Run

variable {α β : Type}

theorem bind_of_ok {p : Run α} {q : α → Run β} {a : α} {m m' : Machine} (h : p m = .ok a m') :
    (p >>= q) m = q a m' := by
  change EStateM.bind p q m = q a m'
  rw [EStateM.bind, h]

theorem bind_of_error {p : Run α} {q : α → Run β} {e : Interrupt} {m m' : Machine}
    (h : p m = .error e m') : (p >>= q) m = .error e m' := by
  change EStateM.bind p q m = .error e m'
  rw [EStateM.bind, h]

/-- If two steps in a row end normally, each of them does. -/
theorem exists_of_bind {p : Run α} {q : α → Run β} {b : β} {m m'' : Machine}
    (h : (p >>= q) m = .ok b m'') : ∃ a m', p m = .ok a m' ∧ q a m' = .ok b m'' := by
  cases hp : p m with
  | ok a m' => exact ⟨a, m', rfl, (bind_of_ok hp).symm.trans h⟩
  | error e m' =>
    rw [bind_of_error hp] at h
    cases h

/-- Steps in a row end alike if they do so one by one. -/
theorem bind_congr {p p' : Run α} {q q' : α → Run β} {m : Machine} (hp : p m = p' m)
    (hq : ∀ a m', p m = .ok a m' → q a m' = q' a m') : (p >>= q) m = (p' >>= q') m := by
  cases h : p m with
  | ok a m' => rw [bind_of_ok h, bind_of_ok (hp.symm.trans h), hq a m' h]
  | error e m' => rw [bind_of_error h, bind_of_error (hp.symm.trans h)]

/-- Ends with a runtime error. -/
def fail (cause : Cause) (token : Option Token) : Run α :=
  throw (.failed ⟨cause, token⟩)

/-- The value of a computation that may fail. -/
def ofExcept : Except Failure α → Run α
  | .ok a => pure a
  | .error f => throw (.failed f)

/-- Runs a step in another scope. -/
def within (scope : Chain) (step : Run α) : Run α := fun m =>
  match step { m with scope } with
  | .ok a m' => .ok a { m' with scope := m.scope }
  | .error e m' => .error e { m' with scope := m.scope }

/-- Runs a step as part of a call, which is counted in before and out behind it. -/
def counted (step : Run α) : Run α := fun m =>
  match step { m with callDepth := m.callDepth + 1 } with
  | .ok a m' => .ok a { m' with callDepth := m'.callDepth - 1 }
  | .error e m' => .error e { m' with callDepth := m'.callDepth - 1 }

/-- Blames the runtime errors of a step on a token, unless they are blamed on one already. -/
def adopting (t : Token) (step : Run α) : Run α := fun m =>
  match step m with
  | .error (.failed f) m' => .error (.failed (f.adopt t)) m'
  | r => r

/-- Runs the body of a function. Its value is the one it gives back, or nil. -/
def catchingReturn (step : Run Unit) : Run Value := fun m =>
  match step m with
  | .ok _ m' => .ok .nil m'
  | .error (.returned v) m' => .ok v m'
  | .error e m' => .error e m'

/-- Gives back the value of a step. Outside of all calls this fails and the step is not made. -/
def returning (keyword : Token) (value : Run Value) : Run Unit := do
  if (← get).callDepth = 0 then
    fail .returnOutsideFunction (some keyword)
  else
    throw (.returned (← value))

/-- Prints a line. -/
def printLine (text : String) : Run Unit :=
  modify fun m => { m with output := m.output ++ text ++ "\n" }

/-- Adds to the notes of the host functions. -/
def note (entry : View) : Run Unit :=
  modify fun m => { m with notes := m.notes ++ [entry] }

/-- A new identity. -/
def newIdentity : Run Nat :=
  modifyGet fun m => (m.nextIdentity, { m with nextIdentity := m.nextIdentity + 1 })

/-- A computed value. A not-a-number value gets an origin of its own. -/
def computed : Value → Run Value
  | .number n => do
    if n.value.isNaN then
      return .number ⟨n.value, .computed (← newIdentity)⟩
    else
      return .number n
  | v => pure v

/-- The value of the variable that a token names. -/
def lookup (name : Token) : Run Value := fun m =>
  match m.scopes.get? m.scope name.lexeme with
  | some v => .ok v m
  | none => .error (.failed ⟨.undefinedVariable name.lexeme, some name⟩) m

/-- Gives the variable that a token names a new value. -/
def assign (name : Token) (v : Value) : Run Unit := fun m =>
  match m.scopes.owner? m.scope name.lexeme with
  | some id => .ok () { m with scopes := m.scopes.define id name.lexeme v }
  | none => .error (.failed ⟨.undefinedVariable name.lexeme, some name⟩) m

/-- Defines a variable in the scope in effect. -/
def define (name : String) (v : Value) : Run Unit :=
  modify fun m => { m with scopes := m.scopes.define m.scope.here name v }

/-- Makes a new scope inside a chain. -/
def newScope (around : Chain) (t : Table) : Run Chain :=
  modifyGet fun m => (around.extend m.scopes.next, { m with scopes := m.scopes.push t })

/-- Repeats a step as long as it asks for it, for at most `passes` passes. -/
def iterate : (passes : Nat) → Run Bool → Run Unit
  | 0, _ => throw .unfinished
  | passes + 1, step => fun m =>
    match step m with
    | .ok true m' => iterate passes step m'
    | .ok false m' => .ok () m'
    | .error e m' => .error e m'

section Iterate

variable {step : Run Bool} {m m' : Machine} (passes : Nat)

theorem iterate_of_again (h : step m = .ok true m') :
    iterate (passes + 1) step m = iterate passes step m' := by
  simp only [iterate, h]

theorem iterate_of_done (h : step m = .ok false m') :
    iterate (passes + 1) step m = .ok () m' := by
  simp only [iterate, h]

theorem iterate_of_error {e : Interrupt} (h : step m = .error e m') :
    iterate (passes + 1) step m = .error e m' := by
  simp only [iterate, h]

end Iterate

end Run

end Lox
