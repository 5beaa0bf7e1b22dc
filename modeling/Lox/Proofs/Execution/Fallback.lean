import Lox.Proofs.Execution.Custody
import Lox.Proofs.Execution.Invariant
import Lox.Proofs.Grammar.Proper

/-!
# What is read never fails for its form

The execution of a tree fails for its form where it comes upon a statement in the place of an
expression, an operator that is none, or a literal of a kind that there are no values of. What is
read from a text holds no such thing, and neither do the functions that its execution leaves behind
in the scopes. So no failure of this sort occurs in any sequence of programs, of entries and of
calls of what they have left behind, also where a text has been reported to be wrong and what could
be read of it is executed nevertheless.

## Main definitions

* `Value.Proper`, `Machine.Proper`: functions made of trees that can be executed.
* `Machine.Arises`: the machines in which what is read from texts is executed.

## Main results

* `Machine.Arises.proper`: such machines hold proper functions only.
* `no_fallback`: no execution fails for the form of a tree, and no rendering either.
-/

namespace Lox

open Node (ProperExpression ProperStatement)

/-- A value that is no function, or a function that can be executed. -/
def Value.Proper (v : Value) : Prop :=
  ∀ f, v = .function f → ∀ n ∈ f.body, ProperStatement n

/-- All values that are held in scopes are proper. -/
def Scopes.Proper (s : Scopes) : Prop := ∀ id, ∀ b ∈ s.table id, b.2.Proper

namespace Scopes.Proper

variable {s : Scopes}

theorem get? (hs : s.Proper) {c : Chain} {a : String} {v : Value} (h : s.get? c a = some v) :
    v.Proper :=
  Scopes.All.get? hs h

theorem define (hs : s.Proper) (id : ScopeId) (a : String) {v : Value} (hv : v.Proper) :
    (s.define id a v).Proper :=
  Scopes.All.define hs id a hv

theorem push (hs : s.Proper) {t : Table} (ht : ∀ b ∈ t, b.2.Proper) : (s.push t).Proper :=
  Scopes.All.push hs ht

end Scopes.Proper

/-! ### The causes of failures -/

namespace Value

theorem not_isFallback_of_applyUnary {op : Token} (hop : op.kind ∈ Kind.unaryOperators) {v : Value}
    {f : Failure} (h : v.applyUnary op = .error f) : f.cause.isFallback = false := by
  unfold applyUnary at h
  split at h
  · split at h <;> cases h
    rfl
  · cases h
  · simp_all [Kind.unaryOperators]

theorem not_isFallback_of_applyBinary {op : Token} (hop : op.kind ∈ Kind.binaryOperators)
    {v u : Value} {f : Failure} (h : v.applyBinary op u = .error f) :
    f.cause.isFallback = false := by
  rw [applyBinary] at h
  split at h
  case h_1 | h_2 => cases h
  case h_3 =>
    unfold add at h
    split at h <;> cases h <;> rfl
  case h_6 =>
    obtain rfl | ⟨a, b, cause, hg, rfl⟩ := error_of_arithmetic h
    · rfl
    · split at hg <;> cases hg
      rfl
  case h_11 => simp_all [Kind.binaryOperators]
  all_goals
    obtain rfl | ⟨a, b, cause, hg, rfl⟩ := error_of_arithmetic h
    · rfl
    · cases hg

end Value

/-! ### The invariant -/

namespace Invariant

/-- All functions are proper, and no failure lies in the form of a tree. -/
def proper : Invariant where
  cause c := c.isFallback = false
  expression := ProperExpression
  statement := ProperStatement
  home _ := True
  store s := s.scopes.Proper
  lax := False

theorem proper_holds_iff {v : Value} : proper.Holds v ↔ v.Proper := by
  constructor
  · rintro hv f rfl n hn
    cases hv with
    | function hf => exact (List.forall₂_same.mp hf.body n hn).2
  · intro hv
    refine .self (fun _ _ _ => rfl) fun f hf => ?_
    exact ⟨rfl, rfl, rfl, List.forall₂_same.mpr fun t _ => ⟨rfl, rfl⟩,
      List.forall₂_same.mpr fun n hn => ⟨rfl, hv f hf n hn⟩, rfl⟩

theorem proper_expressions {n : Node} (h : n.ProperExpression) :
    proper.simulation.Expressions () n n := by
  cases h with
  | @literal l hl =>
    cases l with
    | unsupported shown => exact hl.elim
    | _ => exact .literal (.ok (proper_holds_iff.mpr fun _ h => nomatch h))
  | grouping hn => exact .grouping ⟨rfl, hn⟩
  | unary hop hn =>
    exact .unary ⟨rfl, rfl, rfl⟩
      (fun v f hf => ⟨rfl, Value.not_isFallback_of_applyUnary hop hf⟩) ⟨rfl, hn⟩
  | binary hl hop hr =>
    exact .binary ⟨rfl, hl⟩ ⟨rfl, rfl, rfl⟩
      (fun v u f hf => ⟨rfl, Value.not_isFallback_of_applyBinary hop hf⟩) ⟨rfl, hr⟩
  | logical op hl hr => exact .logical ⟨rfl, hl⟩ rfl ⟨rfl, hr⟩
  | ternary question hc ht he => exact .ternary ⟨rfl, hc⟩ ⟨rfl, ht⟩ ⟨rfl, he⟩
  | reference name => exact .reference ⟨rfl, rfl⟩
  | assign name hn => exact .assign ⟨rfl, rfl⟩ ⟨rfl, hn⟩
  | call paren hc hns =>
    exact .call ⟨rfl, hc⟩ rfl (List.forall₂_same.mpr fun n hn => ⟨rfl, hns n hn⟩)

theorem proper_optionRel {P : Node → Prop} {o : Option Node} (h : ∀ n ∈ o, P n) :
    Option.Rel (fun n n' => n = n' ∧ P n) o o := by
  cases o with
  | none => exact .none
  | some n => exact .some ⟨rfl, h n rfl⟩

theorem proper_statements {n : Node} (h : n.ProperStatement) :
    proper.simulation.Statements () n n := by
  cases h with
  | expression hn => exact .expression ⟨rfl, hn⟩
  | print hn => exact .print ⟨rfl, hn⟩
  | declare name hn => exact .declare ⟨rfl, rfl⟩ (proper_optionRel hn)
  | block hns => exact .block (List.forall₂_same.mpr fun n hn => ⟨rfl, hns n hn⟩)
  | branch hc ht he => exact .branch ⟨rfl, hc⟩ ⟨rfl, ht⟩ (proper_optionRel he)
  | loop hc hn => exact .loop ⟨rfl, hc⟩ ⟨rfl, hn⟩
  | function name params hbody =>
    exact .function ⟨rfl, rfl⟩ rfl (List.forall₂_same.mpr fun t _ => ⟨rfl, rfl⟩)
      (List.forall₂_same.mpr fun n hn => ⟨rfl, hbody n hn⟩)
  | returning keyword hn => exact .returning rfl (proper_optionRel hn)

theorem proper_kept : proper.Kept where
  expressions := proper_expressions
  statements := proper_statements
  cause := id
  get? hs hv := proper_holds_iff.mpr (hs.get? hv)
  assign hs _ hv := hs.define _ _ (proper_holds_iff.mp hv)
  define hs _ hv := hs.define _ _ (proper_holds_iff.mp hv)
  push hs ht := hs.push fun b hb => proper_holds_iff.mp (ht b hb)
  home_extend _ _ := trivial
  printLine _ hs := hs
  note _ hs := hs
  identify hs := hs

end Invariant

/-! ### Steps that do not fail for the form of a tree -/

/-- A step that leaves proper values behind, and does not fail for the form of a tree. -/
def Run.Clean {α : Type} (r : Run α) : Prop :=
  ∀ m : Machine, m.scopes.Proper → (endState (r m)).scopes.Proper ∧
    ∀ f m', r m = .error (.failed f) m' → f.cause.isFallback = false

theorem Invariant.clean_of_agree {α : Type} {r : Run α} {Q : Unit → α → α → Prop}
    (h : ∀ p, proper.simulation.Agree p p () Q r r) : Run.Clean r := by
  intro m hm
  have hends : proper.simulation.Ends m.place m.place () Q (r m) (r m) :=
    h m.place m.store m.store ⟨rfl, hm⟩
  refine ⟨store_of_ends id hends, fun f m' hr => ?_⟩
  rw [hr] at hends
  obtain ⟨_, -, hinterrupts⟩ := hends.interrupts id
  cases hinterrupts with
  | failed hf => exact hf.cause.2

namespace Run

variable (host : Host)

theorem clean_executeAll {ns : List Node} (hns : ∀ n ∈ ns, n.ProperStatement) :
    Clean (executeAll host ns) := by
  have hlawful := Invariant.proper_kept.lawful
  exact Invariant.clean_of_agree fun p => hlawful.executeAll (hlawful.ofDepth host (.inr rfl))
    (List.forall₂_same.mpr fun n hn => ⟨rfl, hns n hn⟩) ⟨⟨rfl, trivial⟩, .rfl⟩

theorem clean_evaluate {e : Node} (he : e.ProperExpression) : Clean (evaluate host e) := by
  have hlawful := Invariant.proper_kept.lawful
  exact Invariant.clean_of_agree fun p =>
    (hlawful.ofDepth host (.inr rfl)).evaluate ⟨rfl, he⟩ ⟨rfl, .rfl⟩

theorem clean_call {callee : Value} {arguments : List Value} (paren : Token)
    (hcallee : callee.Proper) (harguments : ∀ v ∈ arguments, v.Proper) :
    Clean (Engine.call host host.engine callee arguments paren) := by
  have hlawful := Invariant.proper_kept.lawful
  exact Invariant.clean_of_agree fun p => hlawful.call (hlawful.ofDepth host (.inr rfl))
    (Invariant.proper_holds_iff.mpr hcallee)
    (List.forall₂_same.mpr fun v hv => Invariant.proper_holds_iff.mpr (harguments v hv)) rfl

end Run

/-! ### What is left behind by programs -/

namespace Node

/-- A function is declared somewhere in a tree. -/
inductive Declares (f : Closure) : Node → Prop
  | here : Declares f (.function f.name f.params f.body)
  | inBlock {n : Node} {ns : List Node} : n ∈ ns → Declares f n → Declares f (.block ns)
  | inThen {c t : Node} {e : Option Node} : Declares f t → Declares f (.branch c t e)
  | inElse {c t e : Node} : Declares f e → Declares f (.branch c t (some e))
  | inLoop {c n : Node} : Declares f n → Declares f (.loop c n)
  | inBody {name : Token} {params : List Token} {n : Node} {body : List Node} :
      n ∈ body → Declares f n → Declares f (.function name params body)

theorem Declares.proper {f : Closure} {n : Node} (h : n.Declares f) (hn : n.ProperStatement) :
    ∀ n' ∈ f.body, n'.ProperStatement := by
  induction h with
  | here =>
    cases hn with
    | function _ _ hbody => exact hbody
  | inBlock hmem _ ih =>
    cases hn with
    | block hns => exact ih (hns _ hmem)
  | inThen _ ih =>
    cases hn with
    | branch _ ht _ => exact ih ht
  | inElse _ ih =>
    cases hn with
    | branch _ _ he => exact ih (he _ rfl)
  | inLoop _ ih =>
    cases hn with
    | loop _ hn => exact ih hn
  | inBody hmem _ ih =>
    cases hn with
    | function _ _ hbody => exact ih (hbody _ hmem)

end Node

/-- A value that can be called or passed on with a machine: no function, a function that is held in
some scope, or any function that is declared in some text. -/
def Value.AtHand (m : Machine) (v : Value) : Prop :=
  ∀ f, v = .function f →
    (∃ id name, (name, v) ∈ m.scopes.table id) ∨
      ∃ source, ∃ n ∈ (Program.ofText source).statements, n.Declares f

theorem Value.AtHand.proper {m : Machine} {v : Value} (h : v.AtHand m) (hm : m.scopes.Proper) :
    v.Proper := by
  rintro f rfl
  obtain ⟨id, name, hmem⟩ | ⟨source, n, hn, hdeclares⟩ := h f rfl
  · exact hm id _ hmem f rfl
  · exact hdeclares.proper (Program.proper_ofText source n hn)

/-- The machines that arise from a new one when programs that have been read are executed, with or
without errors in their texts, when entries are evaluated, and when values are called, in any
sequence and whatever each of these ends with. -/
inductive Machine.Arises (host : Host) : Machine → Prop
  | fresh : Arises host (.fresh host.natives)
  | program {m : Machine} (source : String) :
      Arises host m →
      Arises host (endState (Run.executeAll host (Program.ofText source).statements m))
  | entry {m : Machine} {text : String} {e : Node} :
      (Fragment.ofText text).expression = some e → Arises host m →
      Arises host (endState (Run.evaluate host e m))
  | call {m : Machine} {callee : Value} {arguments : List Value} (paren : Token) :
      callee.AtHand m → (∀ v ∈ arguments, v.AtHand m) → Arises host m →
      Arises host (endState (Engine.call host host.engine callee arguments paren m))

namespace Machine

theorem proper_fresh (natives : List Native) : (Machine.fresh natives).scopes.Proper := by
  refine Scopes.Proper.push (fun id b hb => ?_) fun b hb => ?_
  · rw [Scopes.table_of_next_le (Nat.zero_le id)] at hb
    cases hb
  · obtain ⟨n, -, rfl⟩ := List.mem_map.mp hb
    exact fun _ h => nomatch h

/-- Only proper functions are ever held in scopes. -/
theorem Arises.proper {host : Host} {m : Machine} (h : m.Arises host) : m.scopes.Proper := by
  induction h with
  | fresh => exact proper_fresh host.natives
  | program source _ ih =>
    exact (Run.clean_executeAll host (Program.proper_ofText source) _ ih).1
  | entry he _ ih => exact (Run.clean_evaluate host (Fragment.proper_ofText he) _ ih).1
  | call paren hcallee harguments _ ih =>
    exact (Run.clean_call host paren (hcallee.proper ih) (fun v hv => (harguments v hv).proper ih)
      _ ih).1

end Machine

/-- In a session only such machines occur. -/
theorem Session.arises_obey {host : Host} {s : Session} (h : s.machine.Arises host)
    (orders : List Order) : (obey host orders s).machine.Arises host :=
  leads_obey (R := fun m m' => m.Arises host → m'.Arises host) host (fun _ => id)
    (fun h h' hm => h' (h hm)) (fun source _ => .program source) (fun _ _ he _ => .entry he)
    orders s h

/-- No execution fails for the form of a tree. In a machine that arises from a new one by any
sequence of programs, entries and calls, and so in any session, the execution of what has been read
from a text, whether or not the text is free of errors, does not fail because of an expression or a
statement that is none, an operator that is none, or a literal that has no value. Neither does the
evaluation of an entry, nor the call of any function that is held in a scope or declared in some
text. What has been read can be shown in all ways. -/
theorem no_fallback (host : Host) :
    (∀ m : Machine, m.Arises host →
      (∀ source f m', Run.executeAll host (Program.ofText source).statements m
        = .error (.failed f) m' → f.cause.isFallback = false) ∧
      (∀ text e f m', (Fragment.ofText text).expression = some e →
        Run.evaluate host e m = .error (.failed f) m' → f.cause.isFallback = false) ∧
      ∀ callee arguments paren f m', callee.AtHand m → (∀ v ∈ arguments, v.AtHand m) →
        Engine.call host host.engine callee arguments paren m = .error (.failed f) m' →
        f.cause.isFallback = false) ∧
    (∀ reporter settings orders,
      (Session.obey host orders (.fresh host reporter settings)).machine.Arises host) ∧
    ∀ source rendering, ∃ text,
      Rendering.program rendering (Program.ofText source).statements = .ok text := by
  refine ⟨fun m hm => ⟨?_, ?_, ?_⟩, ?_, ?_⟩
  · intro source f m'
    exact (Run.clean_executeAll host (Program.proper_ofText source) m hm.proper).2 f m'
  · intro text e f m' he
    exact (Run.clean_evaluate host (Fragment.proper_ofText he) m hm.proper).2 f m'
  · intro callee arguments paren f m' hcallee harguments
    have harguments' (v : Value) (hv : v ∈ arguments) : v.Proper :=
      (harguments v hv).proper hm.proper
    exact (Run.clean_call host paren (hcallee.proper hm.proper) harguments' m hm.proper).2 f m'
  · exact fun reporter settings orders => Session.arises_obey .fresh orders
  · exact fun source rendering => rendering.exists_program_eq (Program.proper_ofText source)

namespace Mistaken

/-- A text with a mistake, and after it a function that fails. -/
def source : String := "print ; fun f() { return -nil; }"

/-- The machine after what could be read of the text. -/
def machine : Machine :=
  endState (Run.executeAll CalledBack.host (Program.ofText source).statements
    (.fresh CalledBack.host.natives))

/-- The function that the text declares. -/
def callee : Value := (machine.globals.get? "f").getD .nil

/-- What the call of the function ends with. -/
def ending : EStateM.Result Interrupt Machine Value :=
  Engine.call CalledBack.host CalledBack.host.engine callee [] ⟨.rightParen, ")", .nil, 1⟩ machine

/-- The failure that a call ends with. -/
def failure? : EStateM.Result Interrupt Machine Value → Option Failure
  | .error (.failed f) _ => some f
  | _ => none

theorem atHand_callee : callee.AtHand machine := by
  rintro f hf
  cases hget : machine.globals.get? "f" with
  | none =>
    rw [callee, hget] at hf
    cases hf
  | some v =>
    rw [callee, hget]
    exact .inl ⟨_, _, Table.mem_of_get?_eq_some hget⟩

/-- A function that is declared after a mistake can be called, and fails for what it does. -/
theorem no_fallback_mistaken :
    (Program.ofText source).diagnostics ≠ [] ∧
    ∃ f m', ending = .error (.failed f) m' ∧ f.cause = .operandNotNumber ∧
      f.cause.isFallback = false := by
  have hcause : (failure? ending).map (·.cause) = some .operandNotNumber := by decide +kernel
  refine ⟨by decide +kernel, ?_⟩
  match hending : ending with
  | .error (.failed f) m' =>
    rw [hending] at hcause
    have harises : machine.Arises CalledBack.host := .program source .fresh
    have hcall := ((no_fallback CalledBack.host).1 machine harises).2.2 _ _ _ _ _ atHand_callee
      (List.forall_mem_nil _) hending
    exact ⟨f, m', rfl, Option.some.inj hcause, hcall⟩
  | .error (.returned _) _ | .error .overflow _ | .error .unfinished _ | .error (.broken _) _
  | .ok _ _ =>
    rw [hending] at hcause
    cases hcause

end Mistaken

end Lox
