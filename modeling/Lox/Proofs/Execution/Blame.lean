import Lox.Native.Library
import Lox.Proofs.Execution.Fallback
import Lox.Proofs.Execution.Lockstep
import Lox.Proofs.Execution.Raising
import Lox.Proofs.Execution.Verdict
import Lox.Proofs.Grammar.Origin

/-!
# What runtime errors are blamed on

Every diagnostic points into the program. What is found before the execution stands on a line of the
text. A runtime error is blamed on a token of the text: either it is raised with one, from a tree
that has been read, or it is raised without one, by a host function or because of its answer, and
then a call by the program is in progress, whose closing parenthesis is blamed. Only a stack
overflow, which is no runtime error of any construct, is blamed on nothing.

That all tokens are of the text is an invariant of the run: functions are made of trees of the
program, so that scopes hold no other tokens.

## Main definitions

* `Host.Tokenless`: the functions of a host fail without saying where.
* `Blame.likeness`: a run beside itself, in which some tokens occur only.
* `Diagnostic.PointsInto`: a diagnostic that names a line of a text.

## Main results

* `Blame.mem_of_failed`: a program fails with tokens of its trees only.
* `diagnostics_point_into_text`: the diagnostics of a program, the tokens its runtime errors are
  blamed on, and where these come from.
-/

namespace Lox

/-- The functions of a host fail without saying where. -/
def Host.Tokenless (host : Host) : Prop := host.Blames fun _ => False

theorem Host.Tokenless.blames {host : Host} (h : host.Tokenless) (P : Token → Prop) :
    host.Blames P :=
  fun n hn views => (h n hn views).mono fun _ => False.elim

/-! ### Only tokens of some trees -/

namespace Blame

section

variable (ts : List Token)

/-- Nothing corresponds but what is the same, and trees and failures have some tokens only. -/
def likeness : Likeness Unit where
  chain _ := Eq
  identity _ := Eq
  spelling := Eq
  blame t t' := t = t' ∧ t ∈ ts
  cause := Eq
  expression _ n n' := n = n' ∧ n.tokens ⊆ ts
  statement _ n n' := n = n' ∧ n.tokens ⊆ ts

/-- A run beside itself. -/
def simulation : Simulation Unit where
  toLikeness := likeness ts
  home _ := Eq
  store _ := (likeness ts).Stores
  lax := False

end

variable {ts : List Token} {n : Node}

theorem words {t : Token} (ht : t ∈ ts) : (likeness ts).Words t t := ⟨rfl, rfl, rfl, ht⟩

theorem names {t : Token} (ht : t ∈ ts) : (likeness ts).Names t t := ⟨rfl, rfl, ht⟩

theorem forall₂_expression {ns : List Node} (h : Node.tokensAll ns ⊆ ts) :
    List.Forall₂ (fun n n' => n = n' ∧ n.tokens ⊆ ts) ns ns :=
  List.forall₂_same.mpr fun n hn =>
    ⟨rfl, fun _ ht => h (Node.mem_tokensAll.mpr ⟨n, hn, ht⟩)⟩

theorem expressions (h : n.tokens ⊆ ts) : (likeness ts).Expressions () n n := by
  cases n with
  | literal l => exact .literal (.literal (fun _ _ _ => rfl) fun _ => rfl)
  | grouping inner => exact .grouping ⟨rfl, h⟩
  | unary op operand =>
    obtain ⟨hop, hoperand⟩ := List.cons_subset.mp h
    exact .unary (words hop) (fun _ _ _ => rfl) ⟨rfl, hoperand⟩
  | binary l op r =>
    obtain ⟨hop, hparts⟩ := List.cons_subset.mp h
    obtain ⟨hl, hr⟩ := List.append_subset.mp hparts
    exact .binary ⟨rfl, hl⟩ (words hop) (fun _ _ _ _ => rfl) ⟨rfl, hr⟩
  | logical l op r =>
    obtain ⟨-, hparts⟩ := List.cons_subset.mp h
    obtain ⟨hl, hr⟩ := List.append_subset.mp hparts
    exact .logical ⟨rfl, hl⟩ rfl ⟨rfl, hr⟩
  | ternary c question t e =>
    obtain ⟨-, hparts⟩ := List.cons_subset.mp h
    obtain ⟨hc, hbranches⟩ := List.append_subset.mp hparts
    obtain ⟨ht, he⟩ := List.append_subset.mp hbranches
    exact .ternary ⟨rfl, hc⟩ ⟨rfl, ht⟩ ⟨rfl, he⟩
  | reference name => exact .reference (names (h List.mem_cons_self))
  | assign name value =>
    obtain ⟨hname, hvalue⟩ := List.cons_subset.mp h
    exact .assign (names hname) ⟨rfl, hvalue⟩
  | call callee paren arguments =>
    obtain ⟨hparen, hparts⟩ := List.cons_subset.mp h
    obtain ⟨hcallee, harguments⟩ := List.append_subset.mp hparts
    exact .call ⟨rfl, hcallee⟩ ⟨rfl, hparen⟩ (forall₂_expression harguments)
  | _ => exact .other rfl rfl rfl

theorem statements (h : n.tokens ⊆ ts) : (likeness ts).Statements () n n := by
  cases n with
  | expression inner => exact .expression ⟨rfl, h⟩
  | print inner => exact .print ⟨rfl, h⟩
  | declare name initializer =>
    cases initializer with
    | none => exact .declare (names (h List.mem_cons_self)) .none
    | some e =>
      obtain ⟨hname, he⟩ := List.cons_subset.mp h
      exact .declare (names hname) (.some ⟨rfl, he⟩)
  | block ns => exact .block (forall₂_expression h)
  | branch c t e =>
    cases e with
    | none =>
      obtain ⟨hc, ht⟩ := List.append_subset.mp h
      exact .branch ⟨rfl, hc⟩ ⟨rfl, ht⟩ .none
    | some e =>
      obtain ⟨hc, hbranches⟩ := List.append_subset.mp h
      obtain ⟨ht, he⟩ := List.append_subset.mp hbranches
      exact .branch ⟨rfl, hc⟩ ⟨rfl, ht⟩ (.some ⟨rfl, he⟩)
  | loop c body =>
    obtain ⟨hc, hbody⟩ := List.append_subset.mp h
    exact .loop ⟨rfl, hc⟩ ⟨rfl, hbody⟩
  | function name params body =>
    obtain ⟨hname, hparts⟩ := List.cons_subset.mp h
    obtain ⟨hparams, hbody⟩ := List.append_subset.mp hparts
    exact .function (names hname) rfl (List.forall₂_same.mpr fun t ht => names (hparams ht))
      (forall₂_expression hbody)
  | returning keyword value =>
    cases value with
    | none => exact .returning ⟨rfl, h List.mem_cons_self⟩ .none
    | some e =>
      obtain ⟨hkeyword, he⟩ := List.cons_subset.mp h
      exact .returning ⟨rfl, hkeyword⟩ (.some ⟨rfl, he⟩)
  | _ => exact .other rfl rfl rfl

/-- The steps of the machine bring in no other tokens. -/
theorem steady (ts : List Token) : (simulation ts).Steady :=
  have hinStep : (simulation ts).InStep := ⟨.rfl, .rfl, .rfl, .rfl, .rfl, .rfl⟩
  hinStep.steady (by rintro n _ ⟨rfl, hn⟩; exact expressions hn)
    (by rintro n _ ⟨rfl, hn⟩; exact statements hn)

/-- A program fails with tokens of its trees only, if the functions of the host do not bring in
others. -/
theorem mem_of_failed {host : Host} (hhost : host.Blames (· ∈ ts)) {ns : List Node}
    (hns : ∀ n ∈ ns, n.tokens ⊆ ts) {f : Failure}
    (h : (Run.executeAll host ns).Breaks (.failed f) (.fresh host.natives)) :
    ∀ t ∈ f.token, t ∈ ts := by
  obtain ⟨m, h⟩ := h
  have hblames : host.Blames fun t => (simulation ts).blame t t :=
    fun n hn views => (hhost n hn views).mono fun t ht => ⟨rfl, ht⟩
  have hends : (simulation ts).Ends (Machine.fresh host.natives).place
      (Machine.fresh host.natives).place () Simulation.Any
      (Run.executeAll host ns (.fresh host.natives))
      (Run.executeAll host ns (.fresh host.natives)) :=
    (steady ts).executeAll ((steady ts).ofDepth hblames (.inr rfl))
      (List.forall₂_same.mpr fun n hn => ⟨rfl, hns n hn⟩) ⟨rfl, .rfl⟩ _ _ (.fresh fun _ _ => rfl)
  -- The failure corresponds to itself, which a token does only if it is one of these.
  rw [h] at hends
  obtain ⟨_, -, hinterrupts⟩ := hends.interrupts id
  cases hinterrupts with
  | failed hf =>
    intro t ht
    have hblame := hf.token
    rw [Option.mem_def.mp ht] at hblame
    cases hblame with
    | some hmem => exact hmem.2

end Blame

/-! ### Diagnostics -/

/-- A diagnostic that names a line of a text. A stack overflow has none. -/
def Diagnostic.PointsInto (source : String) : Diagnostic → Prop
  | static line _ _ => Scan.IsLine source line
  | runtime _ (some line) => Scan.IsLine source line
  | runtime message none => message = "Stack overflow."

/-- When a program ends, its runtime error is reported or a stack overflow, if there is one. -/
theorem Session.diagnostics_concluded (s : Session) (r : EStateM.Result Interrupt Machine Unit) :
    ∃ new, (endState (s.concluded r)).reporter.diagnostics = s.reporter.diagnostics ++ new ∧
      ∀ d ∈ new, d = .ofFailure ⟨.stackOverflow, none⟩ ∨
        ∃ f m, r = .error (.failed f) m ∧ d = .ofFailure f := by
  cases r with
  | ok u m => exact ⟨[], (List.append_nil _).symm, List.forall_mem_nil _⟩
  | error e m =>
    cases e with
    | failed f =>
      refine ⟨[.ofFailure f], diagnostics_noteFailure f _, fun d hd => ?_⟩
      exact .inr ⟨f, m, rfl, List.mem_singleton.mp hd⟩
    | overflow =>
      refine ⟨[.ofFailure ⟨.stackOverflow, none⟩], diagnostics_noteFailure _ _, fun d hd => ?_⟩
      exact .inl (List.mem_singleton.mp hd)
    | _ => exact ⟨[], (List.append_nil _).symm, List.forall_mem_nil _⟩

section Programs

variable {host : Host} (hhost : host.Tokenless) (source : String)

include hhost

/-- A program fails with one of its tokens: with the one that the error has been raised with, or
with the closing parenthesis of the innermost call by the program that has been in progress
then. -/
theorem RaisedIn.token {parens : List Token} {f : Failure}
    (h : RaisedIn host (Program.ofText source).statements (.fresh host.natives) parens f) :
    ∃ t ∈ (Scan.ofText source).tokens, (f.through parens).token = some t ∧
      (∀ u, f.token = some u → t = u) ∧ (f.token = none → parens.head? = some t) := by
  have hbreaks := Run.breaks_executeAll_iff.mpr ⟨parens, f, h, rfl⟩
  have hmem := Blame.mem_of_failed (hhost.blames _) Program.tokens_subset hbreaks
  obtain ⟨m, hfailed⟩ := hbreaks
  have hcause := (Run.clean_executeAll host (Program.proper_ofText source) _
    (Machine.proper_fresh _)).2 _ m hfailed
  rw [Failure.cause_through] at hcause
  rw [Failure.token_through] at hmem ⊢
  cases htoken : f.token with
  | some u =>
    rw [htoken] at hmem
    exact ⟨u, hmem u rfl, rfl, fun _ => Option.some.inj, nofun⟩
  | none =>
    rw [htoken] at hmem
    obtain ⟨before, n, after, m', -, -, hraised⟩ := h
    obtain hne | ⟨g, vs, hinvoke⟩ := hraised.parens_ne_nil htoken hcause
    · obtain ⟨paren, rest, rfl⟩ := List.exists_cons_of_ne_nil hne
      exact ⟨paren, hmem paren rfl, rfl, fun _ => nofun, fun _ => rfl⟩
    · cases hinvoke

theorem exists_token_of_failed {f : Failure}
    (h : (Run.executeAll host (Program.ofText source).statements).Breaks (.failed f)
      (.fresh host.natives)) :
    ∃ t ∈ (Scan.ofText source).tokens, f.token = some t := by
  obtain ⟨parens, f₀, hraised, rfl⟩ := Run.breaks_executeAll_iff.mp h
  obtain ⟨t, ht, htoken, -⟩ := hraised.token hhost
  exact ⟨t, ht, htoken⟩

/-- Whatever is reported on a program names a line of its text, but for a stack overflow. -/
theorem pointsInto_of_run (reporter : Reporter) (settings : Settings) :
    ∃ new,
      (endState (Session.run host source (.fresh host reporter settings))).reporter.diagnostics
        = reporter.diagnostics ++ new ∧ ∀ d ∈ new, d.PointsInto source := by
  have hstatic (d : Diagnostic) (hd : d ∈ (Program.ofText source).diagnostics) :
      d.PointsInto source := by
    obtain ⟨line, place, message, rfl, hline⟩ := Program.isLine_of_mem_diagnostics hd
    exact hline
  cases herror : (reporter.reportAll (Program.ofText source).diagnostics).hadError with
  | true =>
    refine ⟨(Program.ofText source).diagnostics, ?_, hstatic⟩
    rw [Session.run_of_hadError host herror]
    exact reporter.diagnostics_reportAll _
  | false =>
    rw [Reporter.hadError_reportAll, Bool.or_eq_false_iff] at herror
    have hclean : (Program.ofText source).diagnostics = [] := by simpa using herror.2
    rw [Session.run_eq_concluded host hclean herror.1]
    obtain ⟨new, hnew, hreports⟩ := Session.diagnostics_concluded (.fresh host reporter settings)
      (Run.executeAll host (Program.ofText source).statements (.fresh host.natives))
    refine ⟨new, hnew, fun d hd => ?_⟩
    obtain rfl | ⟨f, m, hfailed, rfl⟩ := hreports d hd
    · rfl
    · obtain ⟨t, ht, htoken⟩ := exists_token_of_failed hhost source ⟨m, hfailed⟩
      rw [Diagnostic.ofFailure, Failure.line, htoken]
      exact Scan.isLine_of_mem_tokens ht

end Programs

/-- Every diagnostic points into the program, if the functions of the host fail without saying
where. Whatever the text, what is reported when it is run with a new machine names a line of it, but
for a stack overflow. Its execution fails with a runtime error exactly if this has been raised
somewhere, on its way out of the calls by the program that are in progress there; this is the error
that is reported. The token it is blamed on then is one of the text: that which it has been raised
with, and if there is none, the closing parenthesis of the innermost of these calls. -/
theorem diagnostics_point_into_text {host : Host} (hhost : host.Tokenless) (source : String)
    (reporter : Reporter) (settings : Settings) :
    (∃ new,
      (endState (Session.run host source (.fresh host reporter settings))).reporter.diagnostics
        = reporter.diagnostics ++ new ∧ ∀ d ∈ new, d.PointsInto source) ∧
    (∀ f, (Run.executeAll host (Program.ofText source).statements).Breaks (.failed f)
        (.fresh host.natives) →
      (Program.ofText source).diagnostics = [] → reporter.hadError = false →
      (endState (Session.run host source (.fresh host reporter settings))).reporter.diagnostics
        = reporter.diagnostics ++ [.ofFailure f]) ∧
    (∀ f, (Run.executeAll host (Program.ofText source).statements).Breaks (.failed f)
        (.fresh host.natives) ↔
      ∃ parens f₀,
        RaisedIn host (Program.ofText source).statements (.fresh host.natives) parens f₀ ∧
          f = f₀.through parens) ∧
    ∀ parens f, RaisedIn host (Program.ofText source).statements (.fresh host.natives) parens f →
      ∃ t ∈ (Scan.ofText source).tokens, (f.through parens).token = some t ∧
        (∀ u, f.token = some u → t = u) ∧ (f.token = none → parens.head? = some t) := by
  refine ⟨pointsInto_of_run hhost source reporter settings, fun f hf hclean herror => ?_,
    fun _ => Run.breaks_executeAll_iff, fun _ _ h => h.token hhost source⟩
  obtain ⟨m, hm⟩ := hf
  rw [Session.run_eq_concluded host hclean herror]
  change (endState (Session.concluded _
    (Run.executeAll host _ (.fresh host.natives)))).reporter.diagnostics = _
  rw [hm]
  exact Session.diagnostics_noteFailure f _

namespace Placeless

/-- A host with a function that calls what it is given with a text of its own, and one that fails
with the text it is given, without saying where. -/
def host : Host :=
  ⟨[⟨"call", 1, Action.callWith [.string "No."]⟩,
    ⟨"refuse", 0, fun arguments => .fail .runtime (String.join (arguments.map View.text)) none⟩],
    12, 5⟩

/-- A program that has the one called by the other, inside of a function. -/
def source : String := "fun f() \x7b\n  call(refuse);\n\x7d\nf();"

theorem tokenless_host : host.Tokenless := by
  rintro n hn views
  obtain rfl | rfl : n = _ ∨ n = _ := by simpa [host] using hn
  · change (Action.callWith _ views).Blames _
    rw [Action.callWith]
    split
    · trivial
    · exact fun _ => trivial
  · exact fun t ht => nomatch ht

/-- The error is blamed on the inner call by the program: the one that the host makes has no
parenthesis. -/
theorem diagnostics_point_into_text_placeless :
    host.Tokenless ∧
    (endState (Session.run host source (.fresh host .quiet .unset))).reporter.diagnostics
      = [.runtime "No." (some 2)] ∧
    ∃ parens f t, RaisedIn host (Program.ofText source).statements (.fresh host.natives) parens f ∧
      t ∈ (Scan.ofText source).tokens ∧ (f.through parens).token = some t ∧ t.line = 2 := by
  have hfails : (Run.executeAll host (Program.ofText source).statements).Breaks
      (.failed ⟨.host .runtime "No.", some ⟨.rightParen, ")", .nil, 2⟩⟩) (.fresh host.natives) := by
    decide +kernel
  have hpoints := diagnostics_point_into_text tokenless_host source .quiet .unset
  obtain ⟨parens, f, hraised, hf⟩ := (hpoints.2.2.1 _).mp hfails
  obtain ⟨t, ht, htoken, -⟩ := hpoints.2.2.2 parens f hraised
  refine ⟨tokenless_host, hpoints.2.1 _ hfails (by decide +kernel) rfl, parens, f, t, hraised, ht,
    htoken, ?_⟩
  rw [← hf] at htoken
  cases htoken
  rfl

end Placeless

end Lox
