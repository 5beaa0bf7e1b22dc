import Lox.Prompt
import Lox.Proofs.Execution.Chronology
import Lox.Proofs.Execution.Levels
import Lox.Proofs.Grammar.Composition
import Lox.Proofs.Token.Visible

/-!
# Echoing and printing

An expression that is entered at the prompt is evaluated, and its value is echoed. The same
expression may be entered in a program that prints it. The two do the same in every session, with
the one difference that the print statement takes a level for itself: it prints what is echoed on a
host with one level less. What does not overflow does not notice.

Nothing is said of the error stream while traces are written. They tell how the host has got to the
failure, and it gets there by another way.

## Main definitions

* `Host.deeper`: a host with a further level.
* `Run.shown`: what comes of an evaluation whose value is shown.
* `Session.besideTraces`: a session without an error stream that holds traces.

## Main results

* `Prompt.runEntry_expression`, `Prompt.runEntry_printing`: an expression is evaluated in both
  cases, and its value is shown.
* `Prompt.echo_agrees_with_printing`: echoing and printing agree.
-/

namespace Lox

/-- An expression is not blank, so that only its last character could make it a program. -/
theorem Session.not_endsStatement {entry : String} {n : Node}
    (hlast : ∀ c ∈ (Blank.strip entry.toList).getLast?, c ≠ ';' ∧ c ≠ '\x7d')
    (hn : (Fragment.ofText entry).expression = some n)
    (hclean : (Fragment.ofText entry).diagnostics = []) : endsStatement entry = false := by
  have hopens := (Fragment.spells_of_diagnostics hn hclean).2.opens
  obtain ⟨t, ht⟩ : ∃ t, t ∈ Scan.words entry := by
    cases hwords : Scan.words entry with
    | nil => exact absurd hopens (by rw [hwords]; exact id)
    | cons t ts => exact ⟨t, List.mem_cons_self⟩
  obtain ⟨c, hc⟩ := Scan.exists_mem_strip ht
  rw [endsStatement]
  cases hend : (Blank.strip entry.toList).getLast? with
  | none => rw [List.getLast?_eq_none_iff.mp hend] at hc; cases hc
  | some c =>
    have hne := hlast c hend
    simp [hne.1, hne.2]

/-! ### Levels -/

/-- The host with a further level. -/
def Host.deeper (host : Host) : Host := { host with depth := host.depth + 1 }

theorem Engine.ofDepth_deeper (host : Host) (depth : Nat) :
    ofDepth host.deeper depth = ofDepth host depth := by
  induction depth with
  | zero => rfl
  | succ depth ih =>
    rw [ofDepth, ih]
    rfl

/-- What comes of an evaluation whose value is shown. -/
def Run.shown :
    EStateM.Result Interrupt Machine Value → EStateM.Result Interrupt Machine Unit
  | .ok v m => .ok () { m with output := m.output ++ v.text ++ "\n" }
  | .error e m => .error e m

/-! ### Traces -/

/-- A session as far as it can be compared with one that has got here by another way: where traces are
written, the error stream is left out. What has been reported, and all else, is kept. -/
def Session.besideTraces (s : Session) : Session :=
  if s.settings.tracing then { s with reporter := { s.reporter with written := "" } } else s

/-- What is done in a session, apart from traces. -/
def Session.endBesideTraces {α : Type} :
    EStateM.Result Interrupt Session α → EStateM.Result Interrupt Session α
  | .ok a s => .ok a s.besideTraces
  | .error e s => .error e s.besideTraces

namespace Prompt

open Session (endBesideTraces)

section

variable (host : Host) (s : Session) {entry : String} {n : Node}

/-- An entry is run, and its value is shown if it has one. -/
theorem runEntry_eq (entry : String) :
    runEntry host entry s =
      match Session.enter host entry { s with reporter := s.reporter.reset } with
      | .ok (some v) s' => showLine v.text s'
      | .ok none s' => .ok () s'
      | .error e s' => .error e s' := by
  change EStateM.bind (Session.enter host entry) _ { s with reporter := s.reporter.reset } = _
  rw [EStateM.bind]
  cases Session.enter host entry { s with reporter := s.reporter.reset } with
  | error e s' => rfl
  | ok o s' => cases o <;> rfl

/-- An entry that is a program is run, and nothing is shown. -/
theorem runEntry_of_program
    (h : Session.enter host entry = (do Session.run host entry; return none)) :
    runEntry host entry s = Session.run host entry { s with reporter := s.reporter.reset } := by
  have henter (s : Session) : Session.enter host entry s =
      match Session.run host entry s with
      | .ok _ s' => .ok none s'
      | .error e s' => .error e s' := by
    rw [h]
    change EStateM.bind (Session.run host entry) (fun _ => pure none) s = _
    rw [EStateM.bind]
    cases Session.run host entry s <;> rfl
  rw [runEntry_eq, henter]
  cases Session.run host entry { s with reporter := s.reporter.reset } <;> rfl

theorem endsStatement_printing (entry : String) :
    Session.endsStatement (printing entry) = true := by
  have hlast : (printing entry).toList.getLast? = some ';' := by
    rw [printing, String.toList_append, List.getLast?_append]
    rfl
  rw [Session.endsStatement, Blank.getLast?_strip, Blank.getLast?_seen hlast (by decide)]
  rfl

/-- A print statement evaluates its expression one level further down. -/
theorem executeAll_print (n : Node) (m : Machine) :
    Run.executeAll host [.print n] m =
      Run.shown ((Engine.ofDepth host (host.depth - 1)).evaluate n m) := by
  have hall : Run.executeAll host [.print n] =
      host.engine.execute (.print n) >>= fun _ => pure () := rfl
  rw [hall, Host.engine]
  cases host.depth with
  | zero => rfl
  | succ depth =>
    have hprint : (Engine.ofDepth host (depth + 1)).execute (.print n) =
        (Engine.ofDepth host depth).evaluate n >>= fun v => Run.printLine v.text := rfl
    rw [hprint, Nat.add_sub_cancel]
    cases hv : (Engine.ofDepth host depth).evaluate n m with
    | ok v m' =>
      rw [bind_assoc, Run.bind_of_ok hv]
      rfl
    | error e m' => exact Run.bind_of_error (Run.bind_of_error hv)

/-- An expression that overflows takes the statement with it that prints it. -/
theorem overflows_print {n : Node} {m : Machine}
    (h : (Engine.ofDepth host (host.depth - 1)).Overflows (.evaluate n) m) :
    (Run.execute host (.print n)).Overflows m := by
  rw [Run.execute, Host.engine]
  generalize host.depth = depth at h ⊢
  cases depth with
  | zero => exact ⟨m, rfl⟩
  | succ depth =>
    have hprint :
        Engine.Starts host (.ofDepth host depth) (.execute (.print n)) m (.evaluate n) m := .print
    exact hprint.overflows h

section Expression

variable (hn : (Fragment.ofText entry).expression = some n)
  (hclean : (Fragment.ofText entry).diagnostics = [])

include hn hclean

theorem enter_expression (hends : Session.endsStatement entry = false) :
    Session.enter host entry = Session.guarded (Session.step (Run.evaluate host n)) := by
  rw [Session.enter]
  simp [hends, hn, hclean]

/-- An expression is evaluated and its value is shown. -/
theorem runEntry_expression (hends : Session.endsStatement entry = false) :
    runEntry host entry s = { s with reporter := s.reporter.reset }.concluded
      (Run.shown (Run.evaluate host n s.machine)) := by
  rw [runEntry_eq, enter_expression host hn hclean hends]
  simp only [Session.guarded, Session.step]
  cases Run.evaluate host n s.machine with
  | ok v m =>
    rw [Run.shown, String.append_assoc]
    rfl
  | error e m => cases e <;> rfl

theorem run_printing (hs : s.reporter.hadError = false) :
    Session.run host (printing entry) s =
      s.concluded (Run.shown ((Engine.ofDepth host (host.depth - 1)).evaluate n s.machine)) := by
  have hprogram := Program.ofText_printing hn hclean
  rw [Session.run_eq_concluded host (by rw [hprogram]) hs, hprogram, executeAll_print]

/-- In a program that prints it, an expression is evaluated one level further down. -/
theorem runEntry_printing :
    runEntry host (printing entry) s = { s with reporter := s.reporter.reset }.concluded
      (Run.shown ((Engine.ofDepth host (host.depth - 1)).evaluate n s.machine)) := by
  have hprogram : Session.enter host (printing entry)
      = (do Session.run host (printing entry); return none) :=
    if_pos (endsStatement_printing entry)
  rw [runEntry_of_program host s hprogram]
  exact run_printing host { s with reporter := s.reporter.reset } hn hclean rfl

end Expression

end

/-- An expression is entered, or a program that prints it. On a host with a level more for the print
statement the session ends in the same state in both cases, whatever the expression does: what is
shown and reported, the variables, the flags and the place are the same, and so is the error stream
unless there are traces on it. On the same host it does so unless the print statement overflows. A
value is echoed exactly if the evaluation succeeds, and nil is echoed as any other value. -/
theorem echo_agrees_with_printing (host : Host) (s : Session) {entry : String} {n : Node}
    (hlast : ∀ c ∈ (Blank.strip entry.toList).getLast?, c ≠ ';' ∧ c ≠ '\x7d')
    (hn : (Fragment.ofText entry).expression = some n)
    (hclean : (Fragment.ofText entry).diagnostics = []) :
    endBesideTraces (runEntry host.deeper (printing entry) s)
        = endBesideTraces (runEntry host entry s) ∧
      (¬ (Run.execute host (.print n)).Overflows s.machine →
        endBesideTraces (runEntry host (printing entry) s)
          = endBesideTraces (runEntry host entry s)) ∧
      (∀ v s', Session.enter host entry s = .ok (some v) s' ↔
        ∃ m, Run.evaluate host n s.machine = .ok v m ∧ s' = { s with machine := m }) ∧
      ∀ m, Run.evaluate host n s.machine = .ok .nil m →
        (endState (runEntry host entry s)).machine.output = m.output ++ "nil\n" := by
  have hends := Session.not_endsStatement hlast hn hclean
  refine ⟨?_, fun hlevels => ?_, fun v s' => ?_, fun m hm => ?_⟩
  · rw [runEntry_printing host.deeper s hn hclean, runEntry_expression host s hn hclean hends,
      Engine.ofDepth_deeper]
    rfl
  · rw [runEntry_printing host s hn hclean, runEntry_expression host s hn hclean hends]
    have hsame : Engine.Agree (Engine.ofDepth host (host.depth - 1)) host.engine (.evaluate n)
        s.machine :=
      Engine.agree_ofDepth (Nat.sub_le host.depth 1) fun hoverflow =>
        hlevels (overflows_print host hoverflow)
    exact congrArg (endBesideTraces ∘ Session.concluded _ ∘ Run.shown) hsame
  · rw [enter_expression host hn hclean hends]
    simp only [Session.guarded, Session.step]
    cases Run.evaluate host n s.machine with
    | ok u m =>
      constructor
      · rintro ⟨⟩
        exact ⟨m, rfl, rfl⟩
      · rintro ⟨_, ⟨⟩, rfl⟩
        rfl
    | error e m => cases e <;> simp
  · rw [runEntry_expression host s hn hclean hends, hm]
    exact String.append_assoc

namespace Descending

/-- A function that calls itself without end and writes down each call. -/
def prelude : String := "var calls = \"\"; fun f() \x7b calls = calls + \"x\"; f(); \x7d"

/-- A host with few levels. -/
def host : Host := ⟨[], 12, 1⟩

/-- The session in which the function has been declared. -/
def session : Session := endState (runEntry host prelude (.fresh host .speaking .unset))

/-- The texts of the global variables behind an entry. -/
def globalsBehind (entry : String) : List (String × String) :=
  (endState (runEntry host entry session)).machine.globals.map fun b => (b.1, b.2.text)

theorem apart_of_getLast? {cs : List Char} {c : Char} (h : cs.getLast? = some c)
    (hc : c ≠ ';' ∧ c ≠ '\x7d') : ∀ c ∈ cs.getLast?, c ≠ ';' ∧ c ≠ '\x7d' := by
  rw [h]
  rintro _ ⟨⟩
  exact hc

theorem call_apart : ∀ c ∈ (Blank.strip "f()".toList).getLast?, c ≠ ';' ∧ c ≠ '\x7d' :=
  apart_of_getLast? (c := ')') (by decide +kernel) (by decide)

theorem function_apart : ∀ c ∈ (Blank.strip "f".toList).getLast?, c ≠ ';' ∧ c ≠ '\x7d' :=
  apart_of_getLast? (c := 'f') (by decide +kernel) (by decide)

/-- A call that overflows gets further down when it is echoed than when it is printed. -/
theorem not_echo_agrees_with_printing :
    (∀ c ∈ (Blank.strip "f()".toList).getLast?, c ≠ ';' ∧ c ≠ '\x7d') ∧
      (Fragment.ofText "f()").expression.isSome ∧ (Fragment.ofText "f()").diagnostics = [] ∧
      globalsBehind (printing "f()") ≠ globalsBehind "f()" := by
  refine ⟨call_apart, by decide +kernel, by decide +kernel, by decide +kernel⟩

/-- The function, as an expression. -/
def function : Node := .reference ⟨.identifier, "f", .nil, 1⟩

/-- With one level more the call gets as far when it is printed. The function itself is printed as
it is echoed, since that does not overflow. -/
theorem echo_agrees_with_printing_descending :
    endBesideTraces (runEntry host.deeper (printing "f()") session)
        = endBesideTraces (runEntry host "f()" session) ∧
      ¬ (Run.execute host (.print function)).Overflows session.machine ∧
      endBesideTraces (runEntry host (printing "f") session)
        = endBesideTraces (runEntry host "f" session) := by
  obtain ⟨call, hcall⟩ := Option.isSome_iff_exists.mp
    (by decide +kernel : (Fragment.ofText "f()").expression.isSome)
  have hdeeper := echo_agrees_with_printing host session call_apart hcall (by decide +kernel)
  have hfunction : (Fragment.ofText "f").expression = some function := rfl
  have hlevels : ¬ (Run.execute host (.print function)).Overflows session.machine := by
    decide +kernel
  have hsame := echo_agrees_with_printing host session function_apart hfunction (by decide +kernel)
  exact ⟨hdeeper.1, hlevels, hsame.2.1 hlevels⟩

end Descending

end Prompt

end Lox
