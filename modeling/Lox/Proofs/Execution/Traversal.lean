import Lox.Session

/-!
# Properties that the constructs of the language hand on

Many properties of execution hold because every construct hands them on from its parts to the
whole. Here the walk through the constructs is made once: a property of evaluation and a property
of execution that the steps of the machine have, and that sequences, scopes, calls and loops hand
on, hold at every level of the engine.

Two properties are needed because evaluation and execution end differently: a return statement
breaks off the execution of statements, and a call keeps this from the expression it stands in.

## Main definitions

* `HandedOn`: a pair of properties which the constructs hand on.
* `Engine.Has`: an engine with such properties.
* `Session.HandedOn`: a property which is handed on by what is done in a session.

## Main results

* `HandedOn.ofDepth`: every level of the engine has them.
* `Session.HandedOn.run`, `Session.HandedOn.enter`: so do runs of programs and of entries.
-/

namespace Lox

/-- A property `E` of evaluation and a property `S` of execution which the constructs of the
language hand on from parts to wholes. -/
structure HandedOn (E S : ∀ {α : Type}, Run α → Prop) : Prop where
  ofEvaluation {α : Type} {r : Run α} : E r → S r
  pure {α : Type} (a : α) : E (pure a : Run α)
  bind {α β : Type} {p : Run α} {q : α → Run β} : E p → (∀ a, E (q a)) → E (p >>= q)
  sequence {α β : Type} {p : Run α} {q : α → Run β} : S p → (∀ a, S (q a)) → S (p >>= q)
  overflow {α : Type} : E (throw .overflow : Run α)
  broken {α : Type} (fault : Fault) : E (throw (.broken fault) : Run α)
  fail {α : Type} {cause : Cause} (token : Option Token) :
    cause ≠ .returnOutsideFunction → E (Run.fail cause token : Run α)
  get : E (get : Run Machine)
  printLine (text : String) : E (Run.printLine text)
  newIdentity : E Run.newIdentity
  note (entry : View) : E (Run.note entry)
  lookup (name : Token) : E (Run.lookup name)
  assign (name : Token) (v : Value) : E (Run.assign name v)
  define (name : String) (v : Value) : E (Run.define name v)
  newScope (around : Chain) (t : Table) : E (Run.newScope around t)
  within {r : Run Unit} (scope : Chain) : S r → S (Run.within scope r)
  counted {r : Run Value} (t : Token) : E r → E (Run.counted (Run.adopting t r))
  catchingReturn {r : Run Unit} : S r → E (Run.catchingReturn r)
  iterate {r : Run Bool} (passes : Nat) : S r → S (Run.iterate passes r)
  returning {r : Run Value} (keyword : Token) : E r → S (Run.returning keyword r)

/-- An engine that evaluates and performs calls with property `E` and executes with `S`. -/
structure Engine.Has (E S : ∀ {α : Type}, Run α → Prop) (e : Engine) : Prop where
  evaluate (n : Node) : E (e.evaluate n)
  execute (n : Node) : S (e.execute n)
  invoke (callee : Value) (arguments : List Value) : E (e.invoke callee arguments)

/-! ### How operators and literals fail -/

theorem Value.error_of_applyUnary {op : Token} {v : Value} {f : Failure}
    (h : v.applyUnary op = .error f) :
    f = ⟨.operandNotNumber, some op⟩ ∨ f = ⟨.unsupportedUnary op.lexeme, some op⟩ := by
  unfold Value.applyUnary at h
  split at h
  · split at h <;> cases h
    exact .inl rfl
  · cases h
  · cases h
    exact .inr rfl

/-- An arithmetic operator fails on other values than numbers, or as its operation does. -/
theorem Value.error_of_arithmetic {op : Token} {g : Float → Float → Except Cause Value}
    {l r : Value} {f : Failure} (h : Value.arithmetic op g l r = .error f) :
    f = ⟨.operandsNotNumbers, some op⟩ ∨
      ∃ a b cause, g a b = .error cause ∧ f = ⟨cause, some op⟩ := by
  unfold Value.arithmetic at h
  split at h
  · rename_i a b
    cases hg : g a.value b.value with
    | ok v => rw [hg] at h; cases h
    | error cause => rw [hg] at h; cases h; exact .inr ⟨_, _, cause, hg, rfl⟩
  · cases h
    exact .inl rfl

theorem Value.error_of_applyBinary {op : Token} {l r : Value} {f : Failure}
    (h : l.applyBinary op r = .error f) :
    f = ⟨.operandsNotNumbers, some op⟩ ∨ f = ⟨.operandsNotAddable, some op⟩ ∨
      f = ⟨.divisionByZero, some op⟩ ∨ f = ⟨.unsupportedBinary op.lexeme, some op⟩ := by
  rw [Value.applyBinary] at h
  split at h
  case h_1 | h_2 => cases h
  case h_3 =>
    unfold Value.add at h
    split at h <;> cases h <;> exact .inr (.inl rfl)
  case h_6 =>
    obtain rfl | ⟨a, b, cause, hg, rfl⟩ := Value.error_of_arithmetic h
    · exact .inl rfl
    · split at hg <;> cases hg
      exact .inr (.inr (.inl rfl))
  case h_11 =>
    cases h
    exact .inr (.inr (.inr rfl))
  all_goals
    obtain rfl | ⟨a, b, cause, hg, rfl⟩ := Value.error_of_arithmetic h
    · exact .inl rfl
    · cases hg

theorem Literal.error_of_value {l : Literal} {f : Failure} (h : l.value = .error f) :
    ∃ shown, l = .unsupported shown ∧ f = ⟨.unsupportedLiteral shown, none⟩ := by
  cases l with
  | unsupported shown => cases h; exact ⟨shown, rfl, rfl⟩
  | _ => cases h

theorem Answer.error_of_ensure {a : Answer} {f : Failure} (h : a.ensure = .error f) :
    ∃ typeName, a = .foreign typeName ∧ f = ⟨.unexpectedValue typeName, none⟩ := by
  cases a with
  | foreign typeName => cases h; exact ⟨typeName, rfl, rfl⟩
  | _ => cases h

/-! ### The walk through the constructs -/

namespace HandedOn

variable {E S : ∀ {α : Type}, Run α → Prop}

theorem ite (_ : HandedOn E S) {α : Type} {c : Prop} [Decidable c] {p q : Run α} (hp : E p)
    (hq : E q) : E (if c then p else q) := by
  split
  · exact hp
  · exact hq

variable (h : HandedOn E S)

include h

theorem ofExcept {α : Type} {r : Except Failure α}
    (hr : ∀ f, r = .error f → f.cause ≠ .returnOutsideFunction) : E (Run.ofExcept r) := by
  cases r with
  | ok a => exact h.pure a
  | error f => exact h.fail f.token (hr f rfl)

theorem computed (v : Value) : E (Run.computed v) := by
  cases v with
  | number n => exact h.ite (h.bind h.newIdentity fun _ => h.pure _) (h.pure _)
  | _ => exact h.pure _

theorem offered (given : List Answer) (offer : Offer) : E (Engine.offered given offer) := by
  cases offer with
  | given index =>
    simp only [Engine.offered]
    split
    · exact h.pure _
    · exact h.broken _
  | number x => exact h.bind (h.computed _) fun _ => h.pure _
  | _ => exact h.pure _

theorem passed (given : List Answer) (offer : Offer) : E (Engine.passed given offer) := by
  refine h.bind (h.offered given offer) fun answer => ?_
  cases answer with
  | value v => exact h.pure v
  | nothing | foreign => exact h.broken _

theorem passedAll (given : List Answer) (offers : List Offer) :
    E (Engine.passedAll given offers) := by
  induction offers with
  | nil => exact h.pure _
  | cons offer offers ih => exact h.bind (h.passed given offer) fun _ => h.bind ih fun _ => h.pure _

theorem compared (given : List Answer) (left right : Nat) :
    E (Engine.compared given left right) := by
  rw [Engine.compared]
  split
  · exact h.pure _
  · exact h.broken _

variable {below : Engine} (hb : below.Has E S)

include hb

theorem evaluateAll (ns : List Node) : E (Engine.evaluateAll below ns) := by
  induction ns with
  | nil => exact h.pure _
  | cons n ns ih => exact h.bind (hb.evaluate n) fun _ => h.bind ih fun _ => h.pure _

theorem executeAll (ns : List Node) : S (Engine.executeAll below ns) := by
  induction ns with
  | nil => exact h.ofEvaluation (h.pure _)
  | cons n ns ih => exact h.sequence (hb.execute n) fun _ => ih

theorem call (host : Host) (callee : Value) (arguments : List Value) (paren : Token) :
    E (Engine.call host below callee arguments paren) := by
  refine h.ite (h.fail _ (by simp)) (h.counted paren (h.bind (hb.invoke callee arguments) ?_))
  intro answer
  refine h.ofExcept fun f hf => ?_
  obtain ⟨typeName, -, rfl⟩ := Answer.error_of_ensure hf
  simp

theorem evaluateNode (host : Host) (n : Node) : E (Engine.evaluateNode host below n) := by
  cases n with
  | literal value =>
    refine h.ofExcept fun f hf => ?_
    obtain ⟨shown, -, rfl⟩ := Literal.error_of_value hf
    simp
  | grouping inner => exact hb.evaluate inner
  | unary operator operand =>
    refine h.bind (hb.evaluate operand) fun v => h.bind (h.ofExcept fun f hf => ?_) h.computed
    obtain rfl | rfl := Value.error_of_applyUnary hf <;> simp
  | binary left operator right =>
    refine h.bind (hb.evaluate left) fun l => h.bind (hb.evaluate right) fun r =>
      h.bind (h.ofExcept fun f hf => ?_) h.computed
    obtain rfl | rfl | rfl | rfl := Value.error_of_applyBinary hf <;> simp
  | logical left operator right =>
    refine h.bind (hb.evaluate left) fun l => h.ite ?_ ?_
    · exact h.ite (h.pure l) (hb.evaluate right)
    · exact h.ite (hb.evaluate right) (h.pure l)
  | ternary condition question thenBranch elseBranch =>
    exact h.bind (hb.evaluate condition) fun _ =>
      h.ite (hb.evaluate thenBranch) (hb.evaluate elseBranch)
  | reference name => exact h.lookup name
  | assign name value =>
    exact h.bind (hb.evaluate value) fun v => h.bind (h.assign name v) fun _ => h.pure v
  | call callee paren arguments =>
    refine h.bind (hb.evaluate callee) fun f => h.ite ?_ (h.fail _ (by simp))
    exact h.bind (h.evaluateAll hb arguments) fun vs => h.call hb host f vs paren
  | _ => exact h.fail _ (by simp)

theorem pass (condition body : Node) : S (Engine.pass below condition body) := by
  refine h.sequence (h.ofEvaluation (hb.evaluate condition)) fun v => ?_
  split
  · exact h.sequence (hb.execute body) fun _ => h.ofEvaluation (h.pure _)
  · exact h.ofEvaluation (h.pure _)

theorem givenBack (value : Option Node) : E (Engine.givenBack below value) := by
  cases value with
  | none => exact h.pure _
  | some e => exact hb.evaluate e

theorem executeNode (passes : Nat) (n : Node) : S (Engine.executeNode passes below n) := by
  cases n with
  | expression inner => exact h.ofEvaluation (h.bind (hb.evaluate inner) fun _ => h.pure _)
  | print inner => exact h.ofEvaluation (h.bind (hb.evaluate inner) fun _ => h.printLine _)
  | declare name initializer =>
    refine h.ofEvaluation ?_
    cases initializer with
    | none => exact h.define _ _
    | some e => exact h.bind (hb.evaluate e) fun _ => h.define _ _
  | block statements =>
    refine h.sequence (h.ofEvaluation h.get) fun m =>
      h.sequence (h.ofEvaluation (h.newScope _ _)) fun scope => ?_
    exact h.within scope (h.executeAll hb statements)
  | branch condition thenBranch elseBranch =>
    refine h.sequence (h.ofEvaluation (hb.evaluate condition)) fun v => ?_
    split
    · exact hb.execute thenBranch
    · cases elseBranch with
      | none => exact h.ofEvaluation (h.pure _)
      | some n => exact hb.execute n
  | loop condition body => exact h.iterate passes (h.pass hb condition body)
  | function name params body =>
    exact h.ofEvaluation
      (h.bind h.newIdentity fun _ => h.bind h.get fun _ => h.define _ _)
  | returning keyword value => exact h.returning keyword (h.givenBack hb value)
  | _ => exact h.ofEvaluation (h.fail _ (by simp))

theorem enter (f : Closure) (arguments : List Value) : E (Engine.enter below f arguments) :=
  h.bind (h.newScope _ _) fun scope =>
    h.catchingReturn (h.within scope (h.executeAll hb f.body))

/-- A host function changes the machine by its calls, by its notes, and by values of its own. -/
theorem act (given : List Answer) (action : Action) : E (Engine.act below given action) := by
  induction action generalizing given with
  | done offer => exact h.offered given offer
  | fail kind message token => exact h.fail _ (by simp)
  | crash fault => exact h.broken fault
  | invoke callee arguments next ih =>
    exact h.bind (h.passed given (.given callee)) fun f =>
      h.bind (h.passedAll given arguments) fun vs =>
        h.bind (hb.invoke f vs) fun answer => ih _ _
  | compare left right next ih => exact h.bind (h.compared given left right) fun _ => ih _ _
  | note entry next ih => exact h.bind (h.note entry) fun _ => ih given
  | consult next ih => exact h.bind h.get fun m => ih m.notes given

theorem perform (host : Host) (callee : Value) (arguments : List Value) :
    E (Engine.perform host below callee arguments) := by
  cases callee with
  | function f => exact h.bind (h.enter hb f arguments) fun _ => h.pure _
  | native index =>
    simp only [Engine.perform]
    split
    · exact h.act hb _ _
    · exact h.broken _
  | _ => exact h.broken _

omit hb in
/-- What the constructs hand on holds at every level of the engine; the lowest does nothing but
overflow. -/
theorem ofDepth (host : Host) (depth : Nat) : (Engine.ofDepth host depth).Has E S := by
  induction depth with
  | zero => exact ⟨fun _ => h.overflow, fun _ => h.ofEvaluation h.overflow, fun _ _ => h.overflow⟩
  | succ depth ih =>
    exact ⟨h.evaluateNode ih host, h.executeNode ih host.passes, h.perform ih host⟩

end HandedOn

/-! ### Sessions -/

namespace Session

/-- A property of what is done in a session: interpreting programs and evaluating expressions have
it, reporting has it, and sequences and guards hand it on. -/
structure HandedOn (host : Host) (A : ∀ {α : Type}, Act α → Prop) : Prop where
  pure {α : Type} (a : α) : A (pure a : Act α)
  bind {α β : Type} {p : Act α} {q : α → Act β} : A p → (∀ a, A (q a)) → A (p >>= q)
  get : A (get : Act Session)
  report (f : Reporter → Reporter) :
    A (modify fun s => { s with reporter := f s.reporter } : Act PUnit)
  guarded {α : Type} {act : Act α} : A act → A (guarded act)
  interpret (statements : List Node) : A (interpret host statements)
  evaluate (n : Node) : A (step (Run.evaluate host n))

namespace HandedOn

variable {host : Host} {A : ∀ {α : Type}, Act α → Prop} (h : HandedOn host A)

include h

theorem run (source : String) : A (Session.run host source) := by
  refine h.bind (h.report fun r => r.reportAll _) fun _ => h.bind h.get fun s => ?_
  split
  · exact h.pure _
  · exact h.bind (h.guarded (h.interpret _)) fun _ => h.pure _

theorem enter (text : String) : A (Session.enter host text) := by
  have hprogram : A (do Session.run host text; return none : Act (Option Value)) :=
    h.bind (h.run text) fun _ => h.pure _
  rw [Session.enter]
  split
  · exact hprogram
  · dsimp only
    split
    · split
      · exact h.guarded (h.evaluate _)
      · exact hprogram
    · exact hprogram

end HandedOn

end Session

end Lox
