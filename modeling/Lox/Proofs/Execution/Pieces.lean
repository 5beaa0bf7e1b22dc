import Lox.Proofs.Execution.Chronology
import Lox.Proofs.Execution.Lockstep
import Lox.Proofs.Grammar.Composition

/-!
# Programs run in pieces

A program is run in a session, and then another one, or both are run as one text. The session cannot
be told apart afterwards but by the lines of what is reported on the second program, which stands
further down in the one text. It is as if the second program had been run with that many blank lines
above it.

Functions of the second program remember its tokens, and with these the lines. Of what has been
declared before, in the first program or in an earlier one, the lines are the same in both cases. So
a failure is blamed on the same token in both, or on a token of the second program and the same
token further down.

## Main definitions

* `Moving.simulation`: two runs of which the second may meet tokens that have moved.
* `Session.Follows`: what can be seen of two sessions is the same but for tokens further down.

## Main results

* `Moving.lawful`: the steps of the machine do not look at where tokens stand.
* `Session.follows_lowered`: a program is run as itself and further down.
* `Session.run_append`: two programs are run one after the other and as one text.
-/

namespace Lox

/-! ### Tokens that have moved -/

/-- A relabeling that leaves tokens as they are written. -/
structure Moving (f : Token → Token) : Prop extends Relabeling f where
  lexeme (t : Token) : (f t).lexeme = t.lexeme

/-- The tokens of a text stand further down, all others where they are. -/
def Token.moved (ts : List Token) (lines : Nat) (t : Token) : Token :=
  if t ∈ ts then t.down lines else t

theorem Token.moving_moved (ts : List Token) (lines : Nat) : Moving (moved ts lines) where
  kind t := by
    rw [moved]
    split <;> rfl
  literal t := by
    rw [moved]
    split <;> rfl
  lexeme t := by
    rw [moved]
    split <;> rfl

namespace Moving

/-- Everything corresponds to itself, and tokens and trees to those that have moved as well. What has
been declared before is the same in both runs, and a host function may blame a failure on any token,
so that no token corresponds only to the one that has moved. -/
def likeness (f : Token → Token) : Likeness Unit where
  chain _ := Eq
  identity _ := Eq
  spelling := Eq
  blame t t' := t' = t ∨ t' = f t
  cause := Eq
  expression _ n n' := n' = n ∨ n' = n.relabel f
  statement _ n n' := n' = n ∨ n' = n.relabel f

theorem likeness_reflexive (f : Token → Token) : (likeness f).Reflexive where
  chain _ _ := rfl
  identity _ _ := rfl
  spelling _ := rfl
  blame _ := .inl rfl
  cause _ := rfl
  expression _ _ := .inl rfl
  statement _ _ := .inl rfl

/-- Two runs of which the second may meet tokens that have moved. -/
def simulation (f : Token → Token) : Simulation Unit where
  toLikeness := likeness f
  home _ := Eq
  store _ := (likeness f).Stores
  lax := False

theorem simulation_inStep (f : Token → Token) : (simulation f).InStep :=
  ⟨.rfl, .rfl, .rfl, .rfl, .rfl, .rfl⟩

theorem forall₂_relabel (f : Token → Token) (ns : List Node) :
    List.Forall₂ (fun n n' => n' = n ∨ n' = n.relabel f) ns (ns.map (.relabel f)) :=
  List.forall₂_map_right_iff.mpr (List.forall₂_same.mpr fun _ _ => .inr rfl)

theorem rel_relabel (f : Token → Token) (o : Option Node) :
    Option.Rel (fun n n' => n' = n ∨ n' = n.relabel f) o (o.map (.relabel f)) := by
  cases o with
  | none => exact .none
  | some n => exact .some (.inr rfl)

section

variable {f : Token → Token} (hf : Moving f)

include hf

theorem words (t : Token) : (likeness f).Words t (f t) :=
  ⟨(hf.kind t).symm, (hf.lexeme t).symm, .inr rfl⟩

theorem names (t : Token) : (likeness f).Names t (f t) := ⟨(hf.lexeme t).symm, .inr rfl⟩

/-- A tree and the one that has moved are of one form, and the parts of the one are those of the
other that have moved. -/
theorem expressions {n n' : Node} (h : n' = n ∨ n' = n.relabel f) :
    (likeness f).Expressions () n n' := by
  obtain rfl | rfl := h
  · exact (likeness_reflexive f).expressions () n'
  · cases n with
    | literal l => exact .literal ((likeness_reflexive f).outcomes () l.value)
    | grouping inner => exact .grouping (.inr rfl)
    | unary op operand => exact .unary (hf.words op) (fun _ _ _ => rfl) (.inr rfl)
    | binary l op r =>
      exact .binary (.inr rfl) (hf.words op) (fun _ _ _ _ => rfl) (.inr rfl)
    | logical l op r => exact .logical (.inr rfl) (hf.kind op).symm (.inr rfl)
    | ternary c question t e => exact .ternary (.inr rfl) (.inr rfl) (.inr rfl)
    | reference name => exact .reference (hf.names name)
    | assign name value => exact .assign (hf.names name) (.inr rfl)
    | call callee paren arguments =>
      rw [Node.relabel, Node.relabelAll_eq]
      exact .call (.inr rfl) (.inr rfl) (forall₂_relabel f arguments)
    | _ => exact .other rfl rfl rfl

theorem statements {n n' : Node} (h : n' = n ∨ n' = n.relabel f) :
    (likeness f).Statements () n n' := by
  obtain rfl | rfl := h
  · exact (likeness_reflexive f).statements () n'
  · cases n with
    | expression inner => exact .expression (.inr rfl)
    | print inner => exact .print (.inr rfl)
    | declare name initializer =>
      rw [Node.relabel, Node.relabelOption_eq]
      exact .declare (hf.names name) (rel_relabel f initializer)
    | block ns =>
      rw [Node.relabel, Node.relabelAll_eq]
      exact .block (forall₂_relabel f ns)
    | branch c t e =>
      rw [Node.relabel, Node.relabelOption_eq]
      exact .branch (.inr rfl) (.inr rfl) (rel_relabel f e)
    | loop c body => exact .loop (.inr rfl) (.inr rfl)
    | function name params body =>
      rw [Node.relabel, Node.relabelAll_eq]
      refine .function (hf.names name) (hf.lexeme name).symm ?_ (forall₂_relabel f body)
      exact List.forall₂_map_right_iff.mpr (List.forall₂_same.mpr fun t _ => hf.names t)
    | returning keyword value =>
      rw [Node.relabel, Node.relabelOption_eq]
      exact .returning (.inr rfl) (rel_relabel f value)
    | _ => exact .other rfl rfl rfl

/-- The steps of the machine do not look at where tokens stand. -/
theorem lawful : (simulation f).Lawful :=
  ⟨(simulation_inStep f).steady hf.expressions hf.statements, fun _ => .inl rfl⟩

/-- Statements and those that have moved end alike. -/
theorem executeAll (host : Host) (ns : List Node) (m : Machine) :
    (simulation f).Ends m.place m.place () Simulation.Any (Run.executeAll host ns m)
      (Run.executeAll host (ns.map (.relabel f)) m) :=
  hf.lawful.executeAll (hf.lawful.ofDepth host (.inr rfl)) (forall₂_relabel f ns) ⟨rfl, .rfl⟩ _ _
    (.refl (likeness_reflexive f) m.store)

end

end Moving

/-! ### What is reported -/

/-- Two reports that are the same, or runtime errors with one message of which the first is on the
line of a token among `ts` and the second so many lines further down. -/
inductive Diagnostic.Follows (ts : List Token) (lines : Nat) : Diagnostic → Diagnostic → Prop
  | same (d : Diagnostic) : Follows ts lines d d
  | moved (message : String) {t : Token} : t ∈ ts →
      Follows ts lines (.runtime message (some t.line)) (.runtime message (some (t.line + lines)))

theorem Diagnostic.follows_ofFailure {ts : List Token} {lines : Nat} {f f' : Failure}
    (h : (Moving.likeness (.moved ts lines)).Failures f f') :
    Follows ts lines (.ofFailure f) (.ofFailure f') := by
  obtain ⟨cause, token⟩ := f
  obtain ⟨cause', token'⟩ := f'
  obtain rfl : cause = cause' := h.cause
  have htoken : Option.Rel (fun t t' => t' = t ∨ t' = t.moved ts lines) token token' := h.token
  cases htoken with
  | none => exact .same _
  | @some t t' ht =>
    obtain rfl | rfl := ht
    · exact .same _
    · rw [Token.moved]
      split
      · exact .moved _ ‹t ∈ ts›
      · exact .same _

namespace Session

/-- Sessions of which the same can be seen but for tokens further down: what was printed, the place,
the texts of the global variables, the flags, the settings, and what was reported. -/
structure Follows (ts : List Token) (lines : Nat) (s s' : Session) : Prop where
  output : s.machine.output = s'.machine.output
  place : s.machine.place = s'.machine.place
  globals : s.machine.globals.map (fun b => (b.1, b.2.text)) =
    s'.machine.globals.map fun b => (b.1, b.2.text)
  hadError : s.reporter.hadError = s'.reporter.hadError
  hadRuntimeError : s.reporter.hadRuntimeError = s'.reporter.hadRuntimeError
  settings : s.settings = s'.settings
  diagnostics :
    List.Forall₂ (Diagnostic.Follows ts lines) s.reporter.diagnostics s'.reporter.diagnostics

/-- Two results of which the same can be seen: both end normally or neither does. -/
structure EndsFollowing (ts : List Token) (lines : Nat)
    (x x' : EStateM.Result Interrupt Session Unit) : Prop where
  normally : (∃ s, x = .ok () s) ↔ ∃ s, x' = .ok () s
  session : (endState x).Follows ts lines (endState x')

section

variable {ts : List Token} {lines : Nat}

namespace Follows

theorem refl (ts : List Token) (lines : Nat) (s : Session) : s.Follows ts lines s :=
  ⟨rfl, rfl, rfl, rfl, rfl, rfl, List.forall₂_same.mpr fun d _ => .same d⟩

theorem ofStores (s : Session) (p : Place) {σ σ' : Store}
    (h : (Moving.likeness (.moved ts lines)).Stores σ σ') :
    Follows ts lines { s with machine := σ.at p } { s with machine := σ'.at p } where
  output := h.output
  place := rfl
  globals := (h.tables _).map_text id
  hadError := rfl
  hadRuntimeError := rfl
  settings := rfl
  diagnostics := (refl ts lines s).diagnostics

theorem noteFailure {s s' : Session} (h : s.Follows ts lines s') {f f' : Failure}
    (hf : (Moving.likeness (.moved ts lines)).Failures f f') :
    (noteFailure f s).Follows ts lines (Session.noteFailure f' s') where
  output := h.output
  place := h.place
  globals := h.globals
  hadError := by rw [hadError_noteFailure, hadError_noteFailure, h.hadError]
  hadRuntimeError := by rw [hadRuntimeError_noteFailure, hadRuntimeError_noteFailure]
  settings := h.settings
  diagnostics := by
    rw [diagnostics_noteFailure, diagnostics_noteFailure]
    exact List.rel_append h.diagnostics (.cons (Diagnostic.follows_ofFailure hf) .nil)

end Follows

theorem endsFollowing_concluded (s : Session) {p : Place}
    {r r' : EStateM.Result Interrupt Machine Unit}
    (h : (Moving.simulation (.moved ts lines)).Ends p p () Simulation.Any r r') :
    EndsFollowing ts lines (s.concluded r) (s.concluded r') := by
  cases h with
  | @ok _ σ σ' _ _ _ hs _ => exact ⟨by simp [concluded], .ofStores s p hs⟩
  | @error _ σ σ' _ _ _ hs he =>
    have hfollows := Follows.ofStores s p hs
    cases he with
    | failed hf => exact ⟨by simp [concluded], hfollows.noteFailure hf⟩
    | overflow => exact ⟨by simp [concluded], hfollows.noteFailure ⟨rfl, .none⟩⟩
    | _ => exact ⟨by simp [concluded], hfollows⟩
  | left hlax => exact hlax.elim
  | right hlax => exact hlax.elim

end

/-! ### One program after the other -/

section

variable (host : Host) {s : Session} {p q : String}

/-- A program that stands further down does what it does as it is, and the same is reported but for
its tokens. -/
theorem follows_lowered (hs : s.reporter.hadError = false)
    (hq : (Program.ofText q).diagnostics = []) (lines : Nat) :
    EndsFollowing (Scan.ofText q).tokens lines (run host q s) (run host (lowered lines q) s) := by
  have hlowered := Program.ofText_lowered hq lines
  -- Only tokens of the program have to move, so that a report tells whose line it is.
  have hmoved : (Program.ofText q).statements.map (Node.down lines) =
      (Program.ofText q).statements.map (Node.relabel (.moved (Scan.ofText q).tokens lines)) := by
    refine Program.map_relabel_congr (Token.relabeling_down lines)
      (Token.moving_moved _ lines).toRelabeling hq fun t ht => ?_
    rw [Token.moved, if_pos ht]
  rw [run_eq_concluded host hq hs, run_eq_concluded host (by rw [hlowered]) hs, hlowered, hmoved]
  exact endsFollowing_concluded s ((Token.moving_moved _ lines).executeAll host _ s.machine)

theorem hadError_run (hs : s.reporter.hadError = false)
    (hp : (Program.ofText p).diagnostics = []) :
    (endState (run host p s)).reporter.hadError = false := by
  rw [run_eq_concluded host hp hs]
  cases Run.executeAll host (Program.ofText p).statements s.machine with
  | ok u m => exact hs
  | error e m =>
    cases e with
    | failed f => exact (hadError_noteFailure f _).trans hs
    | overflow => exact (hadError_noteFailure _ _).trans hs
    | _ => exact hs

/-- Two programs as one text do what the first does and then the second, that much further down,
provided that nothing is reported on the first. -/
theorem run_append_eq (hs : s.reporter.hadError = false) (hp : (Program.ofText p).diagnostics = [])
    (hq : (Program.ofText q).diagnostics = [])
    (hsilent : (endState (run host p s)).reporter.diagnostics = s.reporter.diagnostics) :
    run host (p ++ "\n" ++ q) s =
      (do run host p; run host (lowered (Scan.linesAbove p) q) : Act Unit) s := by
  have happend := Program.ofText_append hp hq
  have hlowered := Program.ofText_lowered hq (Scan.linesAbove p)
  have hrun := run_eq_concluded host hp hs
  have hsplit (ns ns' : List Node) : Run.executeAll host (ns ++ ns') =
      Run.executeAll host ns >>= fun _ => Run.executeAll host ns' := Engine.executeAll_append ns ns'
  rw [run_eq_concluded host (by rw [happend]) hs, happend, hsplit]
  change _ = EStateM.bind (run host p) _ s
  rw [EStateM.bind]
  cases hm : Run.executeAll host (Program.ofText p).statements s.machine with
  | ok u m =>
    have hbehind := run_eq_concluded (s := { s with machine := m }) host (by rw [hlowered]) hs
    rw [hm] at hrun
    rw [hlowered] at hbehind
    rw [hrun, Run.bind_of_ok hm]
    exact hbehind.symm
  | error e m =>
    rw [hm] at hrun
    rw [hrun, Run.bind_of_error hm]
    rw [hrun] at hsilent
    -- What is reported would have been reported on the first program; anything else ends both.
    cases e with
    | failed f => exact absurd (diagnostics_noteFailure f _ ▸ hsilent) (by simp)
    | overflow =>
      exact absurd (diagnostics_noteFailure ⟨.stackOverflow, none⟩ _ ▸ hsilent) (by simp)
    | _ => rfl

/-- Two programs that are read without a report are run one after the other in a session, and as one
text. If nothing is reported on the first, the one text does exactly what the first does and then
the second with as many blank lines above it. This prints the same, leaves the same texts of the
global variables, the same flags and the same place, and ends normally in the same cases as the
first program and then the second as it is. The same is reported, but for tokens of the second
program, which stand that many lines further down. -/
theorem run_append (hs : s.reporter.hadError = false) (hp : (Program.ofText p).diagnostics = [])
    (hq : (Program.ofText q).diagnostics = [])
    (hsilent : (endState (run host p s)).reporter.diagnostics = s.reporter.diagnostics) :
    run host (p ++ "\n" ++ q) s =
        (do run host p; run host (lowered (Scan.linesAbove p) q) : Act Unit) s ∧
      EndsFollowing (Scan.ofText q).tokens (Scan.linesAbove p)
        ((do run host p; run host q : Act Unit) s) (run host (p ++ "\n" ++ q) s) := by
  have hwhole := run_append_eq host hs hp hq hsilent
  refine ⟨hwhole, ?_⟩
  rw [hwhole]
  change EndsFollowing _ _ (EStateM.bind (run host p) _ s) (EStateM.bind (run host p) _ s)
  rw [EStateM.bind, EStateM.bind]
  have hbetween := hadError_run host hs hp
  cases hrun : run host p s with
  | ok u s₁ =>
    rw [hrun] at hbetween
    exact follows_lowered host hbetween hq _
  | error e s₁ => exact ⟨by simp, .refl _ _ s₁⟩

end

namespace Continued

/-- A program that declares a variable and a function, which fails when it is called. -/
def first : String := "var a = 1;\nfun f() \x7b\n  return b;\n\x7d"

/-- A program that fails itself. -/
def second : String := "print a;\nprint c;"

/-- A host with few levels. -/
def host : Host := ⟨[], 12, 8⟩

/-- A session before its first program. -/
def session : Session := .fresh host .quiet .unset

/-- What has been reported when a program has been run behind the first one, and as one text with
it. -/
def reported (q : String) : List Diagnostic × List Diagnostic :=
  ((endState ((do run host first; run host q : Act Unit) session)).reporter.diagnostics,
    (endState (run host (first ++ "\n" ++ q) session)).reporter.diagnostics)

/-- What fails in the second program does so further down in the one text. What fails in a function
of the first program stays where it is. -/
theorem run_append_continued :
    reported second = ([.runtime "Undefined variable 'c'." (some 2)],
        [.runtime "Undefined variable 'c'." (some 6)]) ∧
      reported "f();" = ([.runtime "Undefined variable 'b'." (some 3)],
        [.runtime "Undefined variable 'b'." (some 3)]) ∧
      EndsFollowing (Scan.ofText second).tokens 4
        ((do run host first; run host second : Act Unit) session)
        (run host (first ++ "\n" ++ second) session) := by
  have happend := run_append (s := session) (p := first) (q := second) host rfl (by decide +kernel)
    (by decide +kernel) (by decide +kernel)
  exact ⟨by decide +kernel, by decide +kernel, happend.2⟩

end Continued

end Session

end Lox
