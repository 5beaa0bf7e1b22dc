import Lox.Proofs.Execution.Lockstep
import Lox.Proofs.Execution.Restoration
import Lox.Proofs.Grammar.Composition

/-!
# Layout carries no meaning

Where the words of a program stand is remembered by their tokens, and with these it gets into trees,
into the functions that are made of them, and into what is reported. Two texts with the same words
on other lines are read as the same trees but for the lines, and what is executed never looks at
them. So two sessions that differ in nothing but lines stay that way, whatever is run in them.

## Main definitions

* `Token.withoutLine`, `Node.withoutLines`, `Diagnostic.withoutLine`: what is left without lines.
* `Layout.simulation`: two runs that differ in the lines of tokens only.
* `Session.Alike`: two sessions that differ in lines only.
* `Session.Indistinct`: what can be seen of two sessions is the same but for lines.

## Main results

* `Layout.lawful`: the steps of the machine do not look at lines.
* `layout_meaningless`: nor does anything that can be seen of a session depend on them.
-/

namespace Lox

/-! ### Without lines -/

/-- A token without its line. -/
def Token.withoutLine (t : Token) : Token := { t with line := 0 }

theorem Token.relabeling_withoutLine : Relabeling Token.withoutLine :=
  ⟨fun _ => rfl, fun _ => rfl⟩

/-- A tree without the lines of its tokens. -/
def Node.withoutLines (n : Node) : Node := n.relabel Token.withoutLine

/-- A report without its line. -/
def Diagnostic.withoutLine : Diagnostic → Diagnostic
  | static _ place message => static 0 place message
  | runtime message line => runtime message (line.map fun _ => 0)

/-! ### Reading -/

/-- Words without lines are read as trees without lines. -/
theorem Parse.program_withoutLine {ts : List Token} (hts : ∃ t ∈ ts, t.kind = .endOfInput) :
    ∃ ns reports rest rest', Parse.program ts = .done ns reports rest ∧
      Parse.program (ts.map Token.withoutLine) =
        .done (ns.map Node.withoutLines) (reports.map (.relabel Token.withoutLine)) rest' := by
  obtain ⟨ns, reports, e, rest, hres, -, -⟩ := Parse.program_total hts
  exact ⟨ns, reports, e :: rest, _, hres, program_relabel Token.relabeling_withoutLine hts hres⟩

/-- Programs that differ in lines only. -/
structure Program.Alike (p p' : Program) : Prop where
  statements : p.statements.map Node.withoutLines = p'.statements.map Node.withoutLines
  diagnostics : p.diagnostics.map Diagnostic.withoutLine = p'.diagnostics.map Diagnostic.withoutLine

/-- Texts with the same words are read alike. -/
theorem Program.alike_ofText {a b : String} (ha : (Scan.ofText a).reports = [])
    (hb : (Scan.ofText b).reports = [])
    (htokens : (Scan.ofText a).tokens.map Token.withoutLine =
      (Scan.ofText b).tokens.map Token.withoutLine) :
    (Program.ofText a).Alike (Program.ofText b) := by
  obtain ⟨ns, reports, rest, _, hres, hwithout⟩ :=
    Parse.program_withoutLine (Scan.endOfInput_mem_tokens a)
  obtain ⟨ns', reports', rest', _, hres', hwithout'⟩ :=
    Parse.program_withoutLine (Scan.endOfInput_mem_tokens b)
  have hsame := (congrArg Parse.program htokens).symm.trans hwithout
  obtain ⟨hns, hreports, -⟩ := Parsed.done.inj (hsame.symm.trans hwithout')
  rw [ofText_eq ha hres, ofText_eq hb hres']
  refine ⟨hns, ?_⟩
  have hdiagnostics := congrArg (List.map Diagnostic.ofSyntax) hreports
  rw [List.map_map, List.map_map] at hdiagnostics ⊢
  exact hdiagnostics

/-! ### Executing -/

namespace Layout

/-- Tokens that differ in their lines only. -/
def Words (t t' : Token) : Prop := t.withoutLine = t'.withoutLine

theorem Words.kind {t t' : Token} (h : Words t t') : t.kind = t'.kind :=
  (Token.mk.inj h).1

theorem Words.lexeme {t t' : Token} (h : Words t t') : t.lexeme = t'.lexeme :=
  (Token.mk.inj h).2.1

/-- Everything corresponds that is the same but for the lines of tokens. -/
def likeness : Likeness Unit where
  chain _ := Eq
  identity _ := Eq
  spelling := Eq
  blame := Words
  cause := Eq
  expression _ n n' := n.withoutLines = n'.withoutLines
  statement _ n n' := n.withoutLines = n'.withoutLines

theorem likeness_reflexive : likeness.Reflexive where
  chain _ _ := rfl
  identity _ _ := rfl
  spelling _ := rfl
  blame _ := rfl
  cause _ := rfl
  expression _ _ := rfl
  statement _ _ := rfl

theorem Words.words {t t' : Token} (h : Words t t') : likeness.Words t t' :=
  ⟨h.kind, h.lexeme, h⟩

theorem Words.names {t t' : Token} (h : Words t t') : likeness.Names t t' := ⟨h.lexeme, h⟩

section Trees

variable {n n' : Node}

/-- Entries that are the same without lines correspond one by one. -/
theorem forall₂_of_map {ns ns' : List Node}
    (h : ns.map Node.withoutLines = ns'.map Node.withoutLines) :
    List.Forall₂ (fun n n' => n.withoutLines = n'.withoutLines) ns ns' := by
  rw [← List.forall₂_eq_eq_eq, List.forall₂_map_left_iff, List.forall₂_map_right_iff] at h
  exact h

theorem forall₂_names {ts ts' : List Token}
    (h : ts.map Token.withoutLine = ts'.map Token.withoutLine) :
    List.Forall₂ likeness.Names ts ts' := by
  rw [← List.forall₂_eq_eq_eq, List.forall₂_map_left_iff, List.forall₂_map_right_iff] at h
  exact h.imp fun _ _ ht => Words.names ht

theorem rel_of_map {o o' : Option Node}
    (h : o.map Node.withoutLines = o'.map Node.withoutLines) :
    Option.Rel (fun n n' => n.withoutLines = n'.withoutLines) o o' := by
  cases o with
  | none =>
    cases o' with
    | none => exact .none
    | some n' => cases h
  | some n =>
    cases o' with
    | none => cases h
    | some n' => exact .some (Option.some.inj h)

/-- Trees that are the same without lines are of one form, with parts that are the same without
lines. -/
theorem expressions (h : n.withoutLines = n'.withoutLines) : likeness.Expressions () n n' := by
  cases n with
  | literal l =>
    cases n' with
    | literal l' =>
      obtain rfl := Node.literal.inj h
      exact .literal (likeness_reflexive.outcomes () _)
    | _ => cases h
  | grouping inner =>
    cases n' with
    | grouping inner' => exact .grouping (Node.grouping.inj h)
    | _ => cases h
  | unary op operand =>
    cases n' with
    | unary op' operand' =>
      obtain ⟨hop, hoperand⟩ := Node.unary.inj h
      exact .unary (Words.words hop) (fun _ _ _ => rfl) hoperand
    | _ => cases h
  | binary l op r =>
    cases n' with
    | binary l' op' r' =>
      obtain ⟨hl, hop, hr⟩ := Node.binary.inj h
      exact .binary hl (Words.words hop) (fun _ _ _ _ => rfl) hr
    | _ => cases h
  | logical l op r =>
    cases n' with
    | logical l' op' r' =>
      obtain ⟨hl, hop, hr⟩ := Node.logical.inj h
      exact .logical hl (Words.kind hop) hr
    | _ => cases h
  | ternary c question t e =>
    cases n' with
    | ternary c' question' t' e' =>
      obtain ⟨hc, -, ht, he⟩ := Node.ternary.inj h
      exact .ternary hc ht he
    | _ => cases h
  | reference name =>
    cases n' with
    | reference name' => exact .reference (Words.names (Node.reference.inj h))
    | _ => cases h
  | assign name value =>
    cases n' with
    | assign name' value' =>
      obtain ⟨hname, hvalue⟩ := Node.assign.inj h
      exact .assign (Words.names hname) hvalue
    | _ => cases h
  | call callee paren ns =>
    cases n' with
    | call callee' paren' ns' =>
      obtain ⟨hcallee, hparen, hns⟩ := Node.call.inj h
      rw [Node.relabelAll_eq, Node.relabelAll_eq] at hns
      exact .call hcallee hparen (forall₂_of_map hns)
    | _ => cases h
  | _ => cases n' <;> first | exact .other rfl rfl rfl | cases h

theorem statements (h : n.withoutLines = n'.withoutLines) : likeness.Statements () n n' := by
  cases n with
  | expression inner =>
    cases n' with
    | expression inner' => exact .expression (Node.expression.inj h)
    | _ => cases h
  | print inner =>
    cases n' with
    | print inner' => exact .print (Node.print.inj h)
    | _ => cases h
  | declare name o =>
    cases n' with
    | declare name' o' =>
      obtain ⟨hname, ho⟩ := Node.declare.inj h
      rw [Node.relabelOption_eq, Node.relabelOption_eq] at ho
      exact .declare (Words.names hname) (rel_of_map ho)
    | _ => cases h
  | block ns =>
    cases n' with
    | block ns' =>
      have hns := Node.block.inj h
      rw [Node.relabelAll_eq, Node.relabelAll_eq] at hns
      exact .block (forall₂_of_map hns)
    | _ => cases h
  | branch c t e =>
    cases n' with
    | branch c' t' e' =>
      obtain ⟨hc, ht, he⟩ := Node.branch.inj h
      rw [Node.relabelOption_eq, Node.relabelOption_eq] at he
      exact .branch hc ht (rel_of_map he)
    | _ => cases h
  | loop c body =>
    cases n' with
    | loop c' body' =>
      obtain ⟨hc, hbody⟩ := Node.loop.inj h
      exact .loop hc hbody
    | _ => cases h
  | function name params body =>
    cases n' with
    | function name' params' body' =>
      obtain ⟨hname, hparams, hbody⟩ := Node.function.inj h
      rw [Node.relabelAll_eq, Node.relabelAll_eq] at hbody
      exact .function (Words.names hname) (Words.lexeme hname) (forall₂_names hparams)
        (forall₂_of_map hbody)
    | _ => cases h
  | returning keyword o =>
    cases n' with
    | returning keyword' o' =>
      obtain ⟨hkeyword, ho⟩ := Node.returning.inj h
      rw [Node.relabelOption_eq, Node.relabelOption_eq] at ho
      exact .returning hkeyword (rel_of_map ho)
    | _ => cases h
  | _ => cases n' <;> first | exact .other rfl rfl rfl | cases h

end Trees

/-! ### Stores -/

/-- Stores that differ in the lines of tokens only. -/
structure Stores (s s' : Store) : Prop where
  nextIdentity : s.nextIdentity = s'.nextIdentity
  output : s.output = s'.output
  notes : s.notes = s'.notes
  next : s.scopes.next = s'.scopes.next
  tables (id : ScopeId) : likeness.Tables () (s.scopes.table id) (s'.scopes.table id)

theorem Stores.iff {s s' : Store} : Stores s s' ↔ likeness.Stores s s' :=
  ⟨fun h => ⟨h.nextIdentity, h.output, h.notes, h.next, h.tables⟩,
    fun h => ⟨h.nextIdentity, h.output, h.notes, h.next, h.tables⟩⟩

theorem Stores.refl (s : Store) : Stores s s := Stores.iff.mpr (.refl likeness_reflexive s)

/-- Two runs that differ in the lines of tokens only. -/
def simulation : Simulation Unit where
  toLikeness := likeness
  home _ := Eq
  store _ := Stores
  lax := False

theorem simulation_inStep : simulation.InStep := ⟨.rfl, .rfl, .rfl, .rfl, .rfl, Stores.iff⟩

/-- The steps of the machine do not look at lines. -/
theorem lawful : simulation.Lawful :=
  ⟨simulation_inStep.steady expressions statements, fun _ => rfl⟩

end Layout

/-! ### Reporters -/

/-- Reporters that differ in the lines of what was reported only, and in what was written. -/
structure Reporter.Alike (r r' : Reporter) : Prop where
  hadError : r.hadError = r'.hadError
  hadRuntimeError : r.hadRuntimeError = r'.hadRuntimeError
  diagnostics : r.diagnostics.map Diagnostic.withoutLine = r'.diagnostics.map Diagnostic.withoutLine

namespace Reporter.Alike

variable {r r' : Reporter}

theorem writeLine (h : r.Alike r') (text text' : String) :
    (r.writeLine text).Alike (r'.writeLine text') := by
  rw [Reporter.writeLine, Reporter.writeLine]
  split <;> split <;> exact ⟨h.hadError, h.hadRuntimeError, h.diagnostics⟩

theorem keep (h : r.Alike r') {d d' : Diagnostic} (hd : d.withoutLine = d'.withoutLine) :
    (r.keep d).Alike (r'.keep d') := by
  have hwritten := h.writeLine d.render d'.render
  refine ⟨hwritten.hadError, hwritten.hadRuntimeError, ?_⟩
  simp only [Reporter.keep, List.map_append, List.map_cons, h.diagnostics, hd]

theorem report (h : r.Alike r') {d d' : Diagnostic} (hd : d.withoutLine = d'.withoutLine) :
    (r.report d).Alike (r'.report d') :=
  ⟨rfl, (h.keep hd).hadRuntimeError, (h.keep hd).diagnostics⟩

theorem reportAll (h : r.Alike r') {ds ds' : List Diagnostic}
    (hds : ds.map Diagnostic.withoutLine = ds'.map Diagnostic.withoutLine) :
    (r.reportAll ds).Alike (r'.reportAll ds') := by
  induction ds generalizing r r' ds' with
  | nil =>
    cases ds' with
    | nil => exact h
    | cons d' ds' => cases hds
  | cons d ds ih =>
    cases ds' with
    | nil => cases hds
    | cons d' ds' =>
      obtain ⟨hd, hds⟩ := List.cons.inj hds
      exact ih (h.report hd) hds

theorem failure (h : r.Alike r') {f f' : Failure} (hf : Layout.likeness.Failures f f') :
    (r.failure f).Alike (r'.failure f') := by
  obtain ⟨cause, token⟩ := f
  obtain ⟨cause', token'⟩ := f'
  obtain rfl : cause = cause' := hf.cause
  have htoken : Option.Rel Layout.Words token token' := hf.token
  have hd : (Diagnostic.ofFailure ⟨cause, token⟩).withoutLine =
      (Diagnostic.ofFailure ⟨cause, token'⟩).withoutLine := by
    cases htoken <;> rfl
  have hkept := h.keep hd
  exact ⟨hkept.hadError, rfl, hkept.diagnostics⟩

theorem traceHeading (h : r.Alike r') (tracing : Bool) :
    (r.traceHeading tracing).Alike (r'.traceHeading tracing) := by
  cases tracing with
  | true => exact h.writeLine _ _
  | false => exact h

end Reporter.Alike

/-! ### Sessions -/

namespace Session

/-- Sessions that differ in lines only, and in what was written to the error stream. -/
structure Alike (s s' : Session) : Prop where
  place : s.machine.place = s'.machine.place
  store : Layout.Stores s.machine.store s'.machine.store
  reporter : s.reporter.Alike s'.reporter
  settings : s.settings = s'.settings

variable {α β : Type}

/-- Two results that are alike: values that correspond or interrupts that differ in lines only, in
sessions that are alike. -/
inductive EndsAlike (Q : α → α → Prop) :
    EStateM.Result Interrupt Session α → EStateM.Result Interrupt Session α → Prop
  | ok {a a' : α} {s s' : Session} :
      s.Alike s' → Q a a' → EndsAlike Q (.ok a s) (.ok a' s')
  | error {e e' : Interrupt} {s s' : Session} :
      s.Alike s' → Layout.likeness.Interrupts () e e' → EndsAlike Q (.error e s) (.error e' s')

/-- What is done in the one session and what is done in the other end alike if they begin alike. -/
def Agree (Q : α → α → Prop) (act act' : Act α) : Prop :=
  ∀ s s', s.Alike s' → EndsAlike Q (act s) (act' s')

variable {Q : α → α → Prop} {Q' : β → β → Prop} {act act' : Act α}

theorem Alike.refl (s : Session) : s.Alike s := ⟨rfl, .refl _, ⟨rfl, rfl, rfl⟩, rfl⟩

theorem EndsAlike.endState {x x' : EStateM.Result Interrupt Session α} (h : EndsAlike Q x x') :
    (Lox.endState x).Alike (Lox.endState x') := by
  cases h with
  | ok hs _ => exact hs
  | error hs _ => exact hs

namespace Agree

theorem pure {a a' : α} (ha : Q a a') : Agree Q (Pure.pure a) (Pure.pure a') :=
  fun _ _ hs => .ok hs ha

theorem get : Agree Alike MonadState.get MonadState.get := fun _ _ hs => .ok hs hs

theorem modifying {f f' : Session → Session} (h : ∀ s s', s.Alike s' → (f s).Alike (f' s')) :
    Agree Eq (modify f) (modify f') :=
  fun _ _ hs => .ok (h _ _ hs) rfl

theorem bind {q q' : α → Act β} (hact : Agree Q act act')
    (hq : ∀ a a', Q a a' → Agree Q' (q a) (q' a')) : Agree Q' (act >>= q) (act' >>= q') := by
  intro s s' hs
  have h := hact s s' hs
  change EndsAlike Q' (EStateM.bind act q s) (EStateM.bind act' q' s')
  unfold EStateM.bind
  generalize act s = x at h ⊢
  generalize act' s' = x' at h ⊢
  cases h with
  | ok hs ha => exact hq _ _ ha _ _ hs
  | error hs he => exact .error hs he

theorem step {r r' : Run α} (h : ∀ p, Layout.simulation.Agree p p () (fun _ => Q) r r') :
    Agree Q (Session.step r) (Session.step r') := by
  intro s s' hs
  have hends := h s.machine.place s.machine.store s'.machine.store hs.store
  have hplace : s'.machine.store.at s.machine.place = s'.machine := by
    rw [hs.place]
    rfl
  rw [hplace] at hends
  change Layout.simulation.Ends _ _ () _ (r s.machine) (r' s'.machine) at hends
  unfold Session.step
  generalize r s.machine = x at hends ⊢
  generalize r' s'.machine = x' at hends ⊢
  cases hends with
  | ok _ hstore ha => exact .ok ⟨rfl, hstore, hs.reporter, hs.settings⟩ ha
  | error _ hstore he => exact .error ⟨rfl, hstore, hs.reporter, hs.settings⟩ he
  | left hlax => exact hlax.elim
  | right hlax => exact hlax.elim

end Agree

theorem Alike.noteFailure {s s' : Session} (hs : s.Alike s') {f f' : Failure}
    (hf : Layout.likeness.Failures f f') : (noteFailure f s).Alike (noteFailure f' s') where
  place := hs.place
  store := hs.store
  reporter := by
    simp only [Session.noteFailure, hs.settings]
    exact (hs.reporter.failure hf).traceHeading _
  settings := hs.settings

namespace Agree

theorem guarded (h : Agree Q act act') :
    Agree (Option.Rel Q) (Session.guarded act) (Session.guarded act') := by
  intro s s' hs
  have hends := h s s' hs
  unfold Session.guarded
  generalize act s = x at hends ⊢
  generalize act' s' = x' at hends ⊢
  cases hends with
  | ok hs ha => exact .ok hs (.some ha)
  | error hs he =>
    cases he with
    | failed hf => exact .ok (hs.noteFailure hf) .none
    | overflow => exact .ok (hs.noteFailure ⟨rfl, .none⟩) .none
    | returned hv => exact .error hs (.returned hv)
    | unfinished => exact .error hs .unfinished
    | broken fault => exact .error hs (.broken fault)

variable (host : Host)

theorem interpret {ns ns' : List Node}
    (hns : ns.map Node.withoutLines = ns'.map Node.withoutLines) :
    Agree Eq (Session.interpret host ns) (Session.interpret host ns') := by
  intro s s' hs
  have hstep : Agree (fun _ _ => True) (Session.step (Run.executeAll host ns))
      (Session.step (Run.executeAll host ns')) :=
    step fun p => Layout.lawful.executeAll (Layout.lawful.ofDepth host (.inr rfl))
      (Layout.forall₂_of_map hns) ⟨rfl, .rfl⟩
  have hends := hstep s s' hs
  unfold Session.interpret
  generalize Session.step (Run.executeAll host ns) s = x at hends ⊢
  generalize Session.step (Run.executeAll host ns') s' = x' at hends ⊢
  cases hends with
  | ok hs _ => exact .ok hs rfl
  | error hs he =>
    cases he with
    | failed hf => exact .ok (hs.noteFailure hf) rfl
    | overflow => exact .error hs .overflow
    | returned hv => exact .error hs (.returned hv)
    | unfinished => exact .error hs .unfinished
    | broken fault => exact .error hs (.broken fault)

theorem run {a b : String} (h : (Program.ofText a).Alike (Program.ofText b)) :
    Agree Eq (Session.run host a) (Session.run host b) := by
  refine (modifying fun s s' hs => ?_).bind fun _ _ _ => get.bind fun s s' hs => ?_
  · exact ⟨hs.place, hs.store, hs.reporter.reportAll h.diagnostics, hs.settings⟩
  · rw [hs.reporter.hadError]
    split
    · exact .pure rfl
    · exact (interpret host h.statements).guarded.bind fun _ _ _ => .pure rfl

theorem enter (text : String) :
    Agree (Option.Rel (Layout.likeness.Values ())) (Session.enter host text)
      (Session.enter host text) := by
  have hprogram : Agree (Option.Rel (Layout.likeness.Values ()))
      (do Session.run host text; return none : Act (Option Value))
      (do Session.run host text; return none) :=
    (run host ⟨rfl, rfl⟩).bind fun _ _ _ => .pure .none
  rw [Session.enter]
  split
  · exact hprogram
  · dsimp only
    split
    · split
      · refine guarded (step fun p => ?_)
        exact (Layout.lawful.ofDepth host (.inr rfl)).evaluate rfl ⟨rfl, .rfl⟩
      · exact hprogram
    · exact hprogram

theorem order (order : Order) : Agree Eq (order.act host) (order.act host) := by
  cases order with
  | program source => exact run host ⟨rfl, rfl⟩
  | entry text => exact (enter host text).bind fun _ _ _ => .pure rfl
  | forget =>
    refine modifying fun s s' hs => ⟨hs.place, hs.store, ?_, hs.settings⟩
    exact ⟨rfl, hs.reporter.hadRuntimeError, hs.reporter.diagnostics⟩

end Agree

theorem Alike.obey (host : Host) (orders : List Order) {s s' : Session} (h : s.Alike s') :
    (Session.obey host orders s).Alike (Session.obey host orders s') := by
  induction orders generalizing s s' with
  | nil => exact h
  | cons order orders ih => exact ih (Agree.order host order s s' h).endState

/-- Sessions of which the same can be seen but for lines: what was printed, the flags, the texts of
the global variables, and what was reported. -/
structure Indistinct (s s' : Session) : Prop where
  output : s.machine.output = s'.machine.output
  hadError : s.reporter.hadError = s'.reporter.hadError
  hadRuntimeError : s.reporter.hadRuntimeError = s'.reporter.hadRuntimeError
  globals : s.machine.globals.map (fun b => (b.1, b.2.text)) =
    s'.machine.globals.map fun b => (b.1, b.2.text)
  diagnostics : s.reporter.diagnostics.map Diagnostic.withoutLine =
    s'.reporter.diagnostics.map Diagnostic.withoutLine

theorem Alike.indistinct {s s' : Session} (h : s.Alike s') : s.Indistinct s' where
  output := h.store.output
  hadError := h.reporter.hadError
  hadRuntimeError := h.reporter.hadRuntimeError
  globals := ((Layout.Stores.iff.mp h.store).tables _).map_text id
  diagnostics := h.reporter.diagnostics

end Session

/-- Two texts that consist of the same words, whatever is between these, are read as the same
declarations but for lines. Run in any session they end alike, and neither then nor after any
further programs and entries can the sessions be told apart but by the lines in what was reported.
-/
theorem layout_meaningless (host : Host) (s : Session) {a b : String}
    (ha : (Scan.ofText a).reports = []) (hb : (Scan.ofText b).reports = [])
    (htokens : (Scan.ofText a).tokens.map Token.withoutLine =
      (Scan.ofText b).tokens.map Token.withoutLine) :
    (Program.ofText a).statements.map Node.withoutLines =
        (Program.ofText b).statements.map Node.withoutLines ∧
      Session.EndsAlike Eq (Session.run host a s) (Session.run host b s) ∧
      ∀ orders, (Session.obey host (.program a :: orders) s).Indistinct
        (Session.obey host (.program b :: orders) s) := by
  have halike := Program.alike_ofText ha hb htokens
  have hrun := Session.Agree.run host halike s s (.refl s)
  exact ⟨halike.statements, hrun, fun orders => (hrun.endState.obey host orders).indistinct⟩

namespace Scattered

/-- A program on one line. -/
def compact : String := "var a = 1; print a + b;"

/-- The same words on several lines, with a comment between them. -/
def scattered : String := "var a\n= 1;\n\nprint a // and\n+ b;"

/-- A session before its first program. -/
def session : Session := .fresh ⟨[], 8, 8⟩ .quiet .unset

theorem layout_meaningless_scattered :
    (Scan.ofText compact).tokens ≠ (Scan.ofText scattered).tokens ∧
      ∀ orders, (Session.obey ⟨[], 8, 8⟩ (.program compact :: orders) session).Indistinct
        (Session.obey ⟨[], 8, 8⟩ (.program scattered :: orders) session) := by
  have htokens : (Scan.ofText compact).tokens.map Token.withoutLine =
      (Scan.ofText scattered).tokens.map Token.withoutLine := by decide +kernel
  have hsame := layout_meaningless ⟨[], 8, 8⟩ session (by decide +kernel) (by decide +kernel) htokens
  exact ⟨by decide +kernel, hsame.2.2⟩

end Scattered

end Lox
