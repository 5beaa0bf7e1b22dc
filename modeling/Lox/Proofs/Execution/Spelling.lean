import Lox.Proofs.Execution.Chronology
import Lox.Proofs.Execution.Lockstep
import Mathlib.Logic.Equiv.Basic

/-!
# Names up to spelling

The variables of a program may be renamed throughout, as long as no two names become one and those
of functions and host functions, which can be printed, stay. A program and the renamed one then make
the same scopes with the same entries under other names, print the same, and end alike. Only where
a variable is looked up that there is none of does the report say how it is spelled.

The functions that a renamed program makes hold renamed parameters and bodies; everything else that
a machine holds is the same.

## Main definitions

* `Node.rename`: a tree with its variables and parameters renamed.
* `Node.functionNames`: the names of the functions that are declared in a tree.
* `Machine.rename`: a machine whose scopes and functions are those of a renamed program.
* `Spelling.simulation`: two runs of which the second is renamed.

## Main results

* `Spelling.lawful`: the steps of the machine do not look at how names are spelled.
* `Spelling.names_up_to_renaming`: a program and the renamed one do the same.
-/

namespace Lox

/-! ### Trees -/

/-- A token that names a variable in another spelling. -/
def Token.rename (ρ : String → String) (t : Token) : Token := { t with lexeme := ρ t.lexeme }

namespace Node

mutual

/-- A tree in which references, assignments, declarations of variables, and parameters are renamed.
-/
def rename (ρ : String → String) : Node → Node
  | literal value => literal value
  | grouping inner => grouping (rename ρ inner)
  | unary operator operand => unary operator (rename ρ operand)
  | binary left operator right => binary (rename ρ left) operator (rename ρ right)
  | logical left operator right => logical (rename ρ left) operator (rename ρ right)
  | ternary condition question thenBranch elseBranch =>
    ternary (rename ρ condition) question (rename ρ thenBranch) (rename ρ elseBranch)
  | reference name => reference (name.rename ρ)
  | assign name value => assign (name.rename ρ) (rename ρ value)
  | call callee paren arguments => call (rename ρ callee) paren (renameAll ρ arguments)
  | expression inner => expression (rename ρ inner)
  | print inner => print (rename ρ inner)
  | declare name initializer => declare (name.rename ρ) (renameOption ρ initializer)
  | block statements => block (renameAll ρ statements)
  | branch condition thenBranch elseBranch =>
    branch (rename ρ condition) (rename ρ thenBranch) (renameOption ρ elseBranch)
  | loop condition body => loop (rename ρ condition) (rename ρ body)
  | function name params body => function name (params.map (.rename ρ)) (renameAll ρ body)
  | returning keyword value => returning keyword (renameOption ρ value)
  | stray token => stray token
  | absent => absent

/-- A renamed tree, if there is one. -/
def renameOption (ρ : String → String) : Option Node → Option Node
  | none => none
  | some n => some (rename ρ n)

/-- Some trees, all of them renamed. -/
def renameAll (ρ : String → String) : List Node → List Node
  | [] => []
  | n :: ns => rename ρ n :: renameAll ρ ns

end

mutual

/-- The names of the functions that are declared in a tree. -/
def functionNames : Node → List String
  | literal _ | reference _ | declare _ none | returning _ none | stray _ | absent => []
  | grouping n | unary _ n | assign _ n | expression n | print n | declare _ (some n)
  | returning _ (some n) => functionNames n
  | binary l _ r | logical l _ r => functionNames l ++ functionNames r
  | ternary c _ t e => functionNames c ++ (functionNames t ++ functionNames e)
  | call c _ ns => functionNames c ++ functionNamesAll ns
  | block ns => functionNamesAll ns
  | branch c t none => functionNames c ++ functionNames t
  | branch c t (some e) => functionNames c ++ (functionNames t ++ functionNames e)
  | loop c n => functionNames c ++ functionNames n
  | function name _ ns => name.lexeme :: functionNamesAll ns

/-- The names of the functions that are declared in some trees. -/
def functionNamesAll : List Node → List String
  | [] => []
  | n :: ns => functionNames n ++ functionNamesAll ns

end

@[simp]
theorem renameOption_eq (ρ : String → String) (o : Option Node) :
    renameOption ρ o = o.map (rename ρ) := by
  cases o <;> rfl

@[simp]
theorem renameAll_eq (ρ : String → String) (ns : List Node) :
    renameAll ρ ns = ns.map (rename ρ) := by
  induction ns with
  | nil => rfl
  | cons n ns ih => rw [renameAll, ih, List.map_cons]

theorem mem_functionNamesAll {ns : List Node} {name : String} :
    name ∈ functionNamesAll ns ↔ ∃ n ∈ ns, name ∈ n.functionNames := by
  induction ns with
  | nil => simp [functionNamesAll]
  | cons n ns ih => simp [functionNamesAll, ih]

end Node

/-! ### Machines -/

/-- A cause that names a variable in another spelling. -/
def Cause.rename (ρ : String → String) : Cause → Cause
  | undefinedVariable name => undefinedVariable (ρ name)
  | c => c

/-- A failure, of a renamed program, on the same line. -/
def Failure.rename (ρ : String → String) (f : Failure) : Failure :=
  { f with cause := f.cause.rename ρ }

/-- A function that a renamed program makes. -/
def Closure.rename (ρ : String → String) (f : Closure) : Closure :=
  { f with params := f.params.map (.rename ρ), body := f.body.map (.rename ρ) }

/-- A value of a renamed program. -/
def Value.rename (ρ : String → String) : Value → Value
  | function f => function (f.rename ρ)
  | v => v

@[simp]
theorem Value.text_rename (ρ : String → String) (v : Value) : (v.rename ρ).text = v.text := by
  cases v <;> rfl

/-- A table under other names. -/
def Table.rename (ρ : String → String) (t : Table) : Table := t.map fun b => (ρ b.1, b.2.rename ρ)

/-- Scopes with other names. -/
def Scopes.rename (ρ : String → String) (s : Scopes) : Scopes := ⟨s.tables.map (Table.rename ρ)⟩

/-- A machine that a renamed program leaves behind. -/
def Machine.rename (ρ : String → String) (m : Machine) : Machine :=
  { m with scopes := m.scopes.rename ρ }

namespace Scopes

theorem ext_table {s s' : Scopes} (hnext : s.next = s'.next) (h : ∀ id, s.table id = s'.table id) :
    s = s' := by
  obtain ⟨ts⟩ := s
  obtain ⟨ts'⟩ := s'
  congr 1
  refine Array.ext hnext fun id hid hid' => ?_
  simpa [table, hid, hid'] using h id

@[simp]
theorem next_rename (ρ : String → String) (s : Scopes) : (s.rename ρ).next = s.next := by
  simp [next, rename]

@[simp]
theorem table_rename (ρ : String → String) (s : Scopes) (id : ScopeId) :
    (s.rename ρ).table id = (s.table id).rename ρ := by
  simp only [table, rename, Array.getElem?_map]
  cases s.tables[id]? <;> rfl

end Scopes

/-- The global variables of a renamed program have other names. -/
theorem Machine.globals_rename (ρ : String → String) (m : Machine) :
    (m.rename ρ).globals = m.globals.rename ρ :=
  m.scopes.table_rename ρ globalScope.here

namespace Spelling

/-! ### What corresponds -/

section

variable (ρ : String → String)

/-- Trees of which the second is the first renamed, where the names of functions stay. -/
def Trees (n n' : Node) : Prop :=
  n' = n.rename ρ ∧ ∀ name ∈ n.functionNames, ρ name = name

/-- Everything corresponds to what it is in a renamed program. A failure may be blamed on any token
of a host function, which is not renamed. -/
def likeness : Likeness Unit where
  chain _ := Eq
  identity _ := Eq
  spelling a a' := a' = ρ a
  blame t t' := t' = t ∨ t' = t.rename ρ
  cause c c' := c' = c.rename ρ
  expression _ := Trees ρ
  statement _ := Trees ρ

/-- Two runs of which the second is that of a renamed program. -/
def simulation : Simulation Unit where
  toLikeness := likeness ρ
  home _ := Eq
  store _ := (likeness ρ).Stores
  lax := False

end

variable {ρ : String → String}

theorem names (t : Token) : (likeness ρ).Names t (t.rename ρ) := ⟨rfl, .inr rfl⟩

theorem forall₂_names (ts : List Token) :
    List.Forall₂ (likeness ρ).Names ts (ts.map (.rename ρ)) :=
  List.forall₂_map_right_iff.mpr (List.forall₂_same.mpr fun t _ => names t)

theorem words (t : Token) : (likeness ρ).Words t t := ⟨rfl, rfl, .inl rfl⟩

/-- All names but the token of a function are renamed, where they are spelled otherwise. -/
theorem eq_rename_of_names {t t' : Token} (h : (likeness ρ).Names t t') : t' = t.rename ρ := by
  obtain ⟨hspelling, rfl | hblame⟩ := h
  · have hlexeme : t'.lexeme = ρ t'.lexeme := hspelling
    rw [Token.rename, ← hlexeme]
  · exact hblame

/-! ### Trees that correspond -/

section Trees

variable {n n' : Node}

theorem forall₂_trees {ns : List Node} (h : ∀ name ∈ Node.functionNamesAll ns, ρ name = name) :
    List.Forall₂ (Trees ρ) ns (ns.map (.rename ρ)) :=
  List.forall₂_map_right_iff.mpr (List.forall₂_same.mpr fun n hn =>
    ⟨rfl, fun name hname => h name (Node.mem_functionNamesAll.mpr ⟨n, hn, hname⟩)⟩)

/-- A tree and the renamed one are of one form, and the parts of the one are those of the other,
renamed. -/
theorem expressions (h : Trees ρ n n') : (likeness ρ).Expressions () n n' := by
  obtain ⟨rfl, hfixed⟩ := h
  have hpart {k : Node} (hk : k.functionNames ⊆ n.functionNames) : Trees ρ k (k.rename ρ) :=
    ⟨rfl, fun name hname => hfixed name (hk hname)⟩
  cases n with
  | literal l => exact .literal (.literal (fun _ _ _ => rfl) fun _ => rfl)
  | grouping inner => exact .grouping (hpart (by simp [Node.functionNames]))
  | unary op operand =>
    refine .unary (words op) (fun v f hf => ?_) (hpart (by simp [Node.functionNames]))
    obtain rfl | rfl := Value.error_of_applyUnary hf <;> rfl
  | binary l op r =>
    refine .binary (hpart (by simp [Node.functionNames])) (words op) (fun v u f hf => ?_)
      (hpart (by simp [Node.functionNames]))
    obtain rfl | rfl | rfl | rfl := Value.error_of_applyBinary hf <;> rfl
  | logical l op r =>
    exact .logical (hpart (by simp [Node.functionNames])) rfl (hpart (by simp [Node.functionNames]))
  | ternary c question t e =>
    refine .ternary (hpart ?_) (hpart ?_) (hpart ?_) <;> intro name <;>
      simp_all [Node.functionNames]
  | reference name => exact .reference (names name)
  | assign name value => exact .assign (names name) (hpart (by simp [Node.functionNames]))
  | call callee paren arguments =>
    rw [Node.rename, Node.renameAll_eq]
    refine .call (hpart (by simp [Node.functionNames])) (.inl rfl) ?_
    refine forall₂_trees fun name hname => ?_
    exact hfixed name (by simp [Node.functionNames, hname])
  | _ => exact .other rfl rfl rfl

theorem statements (h : Trees ρ n n') : (likeness ρ).Statements () n n' := by
  obtain ⟨rfl, hfixed⟩ := h
  have hpart {k : Node} (hk : k.functionNames ⊆ n.functionNames) : Trees ρ k (k.rename ρ) :=
    ⟨rfl, fun name hname => hfixed name (hk hname)⟩
  cases n with
  | expression inner => exact .expression (hpart (by simp [Node.functionNames]))
  | print inner => exact .print (hpart (by simp [Node.functionNames]))
  | declare name initializer =>
    cases initializer with
    | none => exact .declare (names name) .none
    | some e => exact .declare (names name) (.some (hpart (by simp [Node.functionNames])))
  | block ns =>
    rw [Node.rename, Node.renameAll_eq]
    exact .block (forall₂_trees (by simpa only [Node.functionNames] using hfixed))
  | branch c t e =>
    cases e with
    | none =>
      exact .branch (hpart (by simp [Node.functionNames])) (hpart (by simp [Node.functionNames]))
        .none
    | some e =>
      refine .branch (hpart ?_) (hpart ?_) (.some (hpart ?_)) <;> intro name <;>
        simp_all [Node.functionNames]
  | loop c body =>
    exact .loop (hpart (by simp [Node.functionNames])) (hpart (by simp [Node.functionNames]))
  | function name params body =>
    rw [Node.rename, Node.renameAll_eq]
    have hname : name.lexeme = ρ name.lexeme := (hfixed _ (by simp [Node.functionNames])).symm
    refine .function ⟨hname, .inl rfl⟩ rfl (forall₂_names params) (forall₂_trees fun a ha => ?_)
    exact hfixed a (by simp [Node.functionNames, ha])
  | returning keyword value =>
    cases value with
    | none => exact .returning (.inl rfl) .none
    | some e => exact .returning (.inl rfl) (.some (hpart (by simp [Node.functionNames])))
  | _ => exact .other rfl rfl rfl

end Trees

/-- The steps of the machine do not look at how names are spelled, as long as no two become one. -/
theorem lawful (hρ : Function.Injective ρ) : (simulation ρ).Lawful :=
  have hnumbered : (simulation ρ).Numbered := ⟨.rfl, .rfl, .rfl, .rfl⟩
  have hspelling {a a' b b' : String} (ha : a' = ρ a) (hb : b' = ρ b) : a = b ↔ a' = b' := by
    rw [ha, hb, hρ.eq_iff]
  have hcause {c : Cause} (hnaming : c.isNaming = false) : c = c.rename ρ := by
    cases c <;> first | rfl | cases hnaming
  ⟨hnumbered.steady hspelling expressions statements (fun _ => hcause) (congrArg _),
    fun _ => .inl rfl⟩

/-! ### Machines that correspond -/

theorem eq_rename_of_values {v v' : Value} (h : (likeness ρ).Values () v v') : v' = v.rename ρ := by
  cases h with
  | number x ho =>
    cases ho with
    | computed hi => rw [show _ = _ from hi]; rfl
    | _ => rfl
  | @function f f' hf =>
    have hname : f'.name = f.name := by
      obtain hname | hname := hf.name
      · exact hname
      · have htext : f.name.lexeme = ρ f.name.lexeme := hf.text.trans (congrArg Token.lexeme hname)
        rw [hname, Token.rename, ← htext]
    have hparams : f.params.map (.rename ρ) = f'.params := by
      rw [← List.forall₂_eq_eq_eq, List.forall₂_map_left_iff]
      exact hf.params.imp fun _ _ ht => (eq_rename_of_names ht).symm
    have hbody : f.body.map (.rename ρ) = f'.body := by
      rw [← List.forall₂_eq_eq_eq, List.forall₂_map_left_iff]
      exact hf.body.imp fun _ _ hn => hn.1.symm
    obtain ⟨identity, name, params, body, scope⟩ := f
    obtain ⟨identity', name', params', body', scope'⟩ := f'
    obtain rfl : identity = identity' := hf.identity
    obtain rfl : scope = scope' := hf.scope
    obtain rfl : name' = name := hname
    obtain rfl : params.map (.rename ρ) = params' := hparams
    obtain rfl : body.map (.rename ρ) = body' := hbody
    rfl
  | _ => rfl

theorem eq_rename_of_tables {t t' : Table} (h : (likeness ρ).Tables () t t') : t' = t.rename ρ := by
  rw [Table.rename, eq_comm, ← List.forall₂_eq_eq_eq, List.forall₂_map_left_iff]
  refine h.imp fun b b' hb => ?_
  obtain ⟨a, v⟩ := b
  obtain ⟨a', v'⟩ := b'
  obtain rfl : a' = ρ a := hb.1
  exact Prod.ext rfl (eq_rename_of_values hb.2).symm

theorem at_eq_rename {s s' : Store} (h : (likeness ρ).Stores s s') (p : Place) :
    s'.at p = (s.at p).rename ρ := by
  have hscopes : s'.scopes = s.scopes.rename ρ :=
    Scopes.ext_table (by simpa using h.next.symm) fun id => by
      simpa using eq_rename_of_tables (h.tables id)
  simp only [Store.at, Machine.rename, hscopes, h.nextIdentity, h.output, h.notes]

/-! ### Executing -/

/-- How something is executed, and how it is in a renamed program: both end normally, or with
interrupts that correspond, and the second leaves behind the machine of the first, renamed. -/
inductive Completions (ρ : String → String) : EStateM.Result Interrupt Machine Unit →
    EStateM.Result Interrupt Machine Unit → Prop
  | ok (m : Machine) : Completions ρ (.ok () m) (.ok () (m.rename ρ))
  | error {e e' : Interrupt} (m : Machine) :
      (likeness ρ).Interrupts () e e' → Completions ρ (.error e m) (.error e' (m.rename ρ))

theorem completions_of_ends {p : Place} {r r' : EStateM.Result Interrupt Machine Unit}
    (h : (simulation ρ).Ends p p () Simulation.Any r r') : Completions ρ r r' := by
  cases h with
  | ok _ hs _ => exact at_eq_rename hs p ▸ .ok _
  | error _ hs he => exact at_eq_rename hs p ▸ .error _ he
  | left hlax => exact hlax.elim
  | right hlax => exact hlax.elim

section

variable (host : Host) (hρ : Function.Injective ρ) {ns : List Node}
  (hfunctions : ∀ name ∈ Node.functionNamesAll ns, ρ name = name) {s s' : Store}
  (hs : (likeness ρ).Stores s s') (p : Place)

include hρ hs

theorem ends_execute {n : Node} (hn : ∀ name ∈ n.functionNames, ρ name = name) :
    (simulation ρ).Ends p p () Simulation.Any (Run.execute host n (s.at p))
      (Run.execute host (n.rename ρ) (s'.at p)) :=
  ((lawful hρ).ofDepth host (.inr rfl)).execute ⟨rfl, hn⟩ ⟨rfl, .rfl⟩ _ _ hs

include hfunctions

theorem ends_executeAll :
    (simulation ρ).Ends p p () Simulation.Any (Run.executeAll host ns (s.at p))
      (Run.executeAll host (ns.map (.rename ρ)) (s'.at p)) :=
  (lawful hρ).executeAll ((lawful hρ).ofDepth host (.inr rfl)) (forall₂_trees hfunctions)
    ⟨rfl, .rfl⟩ _ _ hs

/-- Statements one after the other, whatever each of them ends with, keep stores alike. -/
theorem stores_afterAll :
    ∃ σ σ' : Store, (likeness ρ).Stores σ σ' ∧
      host.engine.afterAll (ns.map .execute) (s.at p) = σ.at p ∧
      host.engine.afterAll ((ns.map (.rename ρ)).map .execute) (s'.at p) = σ'.at p := by
  induction ns generalizing s s' with
  | nil => exact ⟨s, s', hs, rfl, rfl⟩
  | cons n ns ih =>
    have hn : ∀ name ∈ n.functionNames, ρ name = name := fun name hname =>
      hfunctions name (List.mem_append_left _ hname)
    have hns : ∀ name ∈ Node.functionNamesAll ns, ρ name = name := fun name hname =>
      hfunctions name (List.mem_append_right _ hname)
    have hends := ends_execute host hρ hs p hn
    obtain ⟨σ, σ', hσ, hafter, hafter'⟩ : ∃ σ σ' : Store, (likeness ρ).Stores σ σ' ∧
        host.engine.after (.execute n) (s.at p) = σ.at p ∧
        host.engine.after (.execute (n.rename ρ)) (s'.at p) = σ'.at p := by
      change ∃ σ σ' : Store, _ ∧ endState (Run.execute host n (s.at p)) = _ ∧
        endState (Run.execute host (n.rename ρ) (s'.at p)) = _
      generalize Run.execute host n (s.at p) = r at hends ⊢
      generalize Run.execute host (n.rename ρ) (s'.at p) = r' at hends ⊢
      cases hends with
      | ok _ hs _ => exact ⟨_, _, hs, rfl, rfl⟩
      | error _ hs _ => exact ⟨_, _, hs, rfl, rfl⟩
      | left hlax => exact hlax.elim
      | right hlax => exact hlax.elim
    simp only [List.map_cons, Engine.afterAll, hafter, hafter']
    exact ih hns hσ

end

/-! ### Sessions -/

/-- Sessions that a program and the renamed one leave behind, begun in the same session: the same
is printed, the global variables are the same under other names, the flags are the same, and what is
reported is the same failure, if any, up to the spelling of a variable that there is none of. -/
structure Sessions (ρ : String → String) (before s s' : Session) : Prop where
  output : s'.machine.output = s.machine.output
  globals : s'.machine.globals = s.machine.globals.rename ρ
  hadError : s'.reporter.hadError = s.reporter.hadError
  hadRuntimeError : s'.reporter.hadRuntimeError = s.reporter.hadRuntimeError
  diagnostics : ∃ failure : Option Failure,
    s.reporter.diagnostics = before.reporter.diagnostics ++ (failure.map .ofFailure).toList ∧
    s'.reporter.diagnostics =
      before.reporter.diagnostics ++ (failure.map fun f => .ofFailure (f.rename ρ)).toList

theorem ofFailure_rename {f f' : Failure} (h : (likeness ρ).Failures f f') :
    Diagnostic.ofFailure f' = .ofFailure (f.rename ρ) := by
  obtain ⟨cause, token⟩ := f
  obtain ⟨cause', token'⟩ := f'
  obtain rfl : cause' = cause.rename ρ := h.cause
  have htoken : Option.Rel (fun t t' => t' = t ∨ t' = t.rename ρ) token token' := h.token
  cases htoken with
  | none => rfl
  | some ht => obtain rfl | rfl := ht <;> rfl

theorem sessions_concluded (before : Session) {p : Place}
    {r r' : EStateM.Result Interrupt Machine Unit}
    (h : (simulation ρ).Ends p p () Simulation.Any r r') :
    Sessions ρ before (endState (before.concluded r)) (endState (before.concluded r')) := by
  have hmachines {σ σ' : Store} (hs : (likeness ρ).Stores σ σ') :
      (σ'.at p).output = (σ.at p).output ∧ (σ'.at p).globals = (σ.at p).globals.rename ρ := by
    rw [at_eq_rename hs p]
    exact ⟨rfl, Machine.globals_rename ρ _⟩
  have hsilent {σ σ' : Store} (hs : (likeness ρ).Stores σ σ') :
      Sessions ρ before { before with machine := σ.at p } { before with machine := σ'.at p } :=
    ⟨(hmachines hs).1, (hmachines hs).2, rfl, rfl, none, by simp, by simp⟩
  have hreported {σ σ' : Store} (hs : (likeness ρ).Stores σ σ') {f f' : Failure}
      (hf : (likeness ρ).Failures f f') :
      Sessions ρ before (Session.noteFailure f { before with machine := σ.at p })
        (Session.noteFailure f' { before with machine := σ'.at p }) := by
    refine ⟨(hmachines hs).1, (hmachines hs).2, ?_, ?_, some f, ?_, ?_⟩
    · rw [Session.hadError_noteFailure, Session.hadError_noteFailure]
    · rw [Session.hadRuntimeError_noteFailure, Session.hadRuntimeError_noteFailure]
    · rw [Session.diagnostics_noteFailure]
      rfl
    · rw [Session.diagnostics_noteFailure, ofFailure_rename hf]
      rfl
  cases h with
  | ok _ hs _ => exact hsilent hs
  | error _ hs he =>
    cases he with
    | failed hf => exact hreported hs hf
    | overflow => exact hreported hs ⟨rfl, .none⟩
    | returned _ | unfinished | broken _ => exact hsilent hs
  | left hlax => exact hlax.elim
  | right hlax => exact hlax.elim

/-- A program, and the same with its variables and parameters renamed so that no two names become
one and the names of host functions and of its functions stay. On a fresh machine each of its
statements, executed behind those in front of it whatever these ended in, ends like the renamed one,
and so does the program as a whole. In a session both print the same, leave the same global
variables under other names, and report the same up to the name of a variable that there is none of.
-/
theorem names_up_to_renaming (host : Host) (hρ : Function.Injective ρ)
    (hnatives : ∀ native ∈ host.natives, ρ native.name = native.name) {ns : List Node}
    (hfunctions : ∀ name ∈ Node.functionNamesAll ns, ρ name = name) :
    (∀ before n after, ns = before ++ n :: after →
      Completions ρ
        (Run.execute host n (host.engine.afterAll (before.map .execute) (.fresh host.natives)))
        (Run.execute host (n.rename ρ)
          (host.engine.afterAll ((before.map (.rename ρ)).map .execute) (.fresh host.natives)))) ∧
      Completions ρ (Run.executeAll host ns (.fresh host.natives))
        (Run.executeAll host (ns.map (.rename ρ)) (.fresh host.natives)) ∧
      ∀ reporter settings,
        Sessions ρ (.fresh host reporter settings)
          (endState ((do let _ ← Session.guarded (Session.interpret host ns) : Session.Act Unit)
            (.fresh host reporter settings)))
          (endState ((do
            let _ ← Session.guarded (Session.interpret host (ns.map (.rename ρ))) :
              Session.Act Unit) (.fresh host reporter settings))) := by
  have hfresh := Likeness.Stores.fresh (L := likeness ρ) fun n hn => (hnatives n hn).symm
  let place : Place := (Machine.fresh host.natives).place
  have hall := ends_executeAll host hρ hfunctions hfresh place
  refine ⟨?_, completions_of_ends hall, fun reporter settings => ?_⟩
  · rintro before n after rfl
    have hbefore : ∀ name ∈ Node.functionNamesAll before, ρ name = name := fun name hname => by
      obtain ⟨k, hk, hname⟩ := Node.mem_functionNamesAll.mp hname
      exact hfunctions name (Node.mem_functionNamesAll.mpr ⟨k, by simp [hk], hname⟩)
    have hn : ∀ name ∈ n.functionNames, ρ name = name := fun name hname =>
      hfunctions name (Node.mem_functionNamesAll.mpr ⟨n, by simp, hname⟩)
    obtain ⟨σ, σ', hσ, hafter, hafter'⟩ := stores_afterAll host hρ hbefore hfresh place
    have hends := ends_execute host hρ hσ place hn
    rw [← hafter, ← hafter'] at hends
    exact completions_of_ends hends
  · rw [Session.guarded_interpret, Session.guarded_interpret]
    exact sessions_concluded _ hall

namespace Swapped

/-- A host with one function and few levels. -/
def host : Host := ⟨[⟨"now", 0, fun _ => .done (.string "x")⟩], 12, 8⟩

/-- A program with a function whose parameter hides a variable, and a variable that there is none
of. -/
def program : List Node :=
  (Program.ofText
    "var a = now(); fun f(b) \x7b a = b; return a; \x7d print f(a + a); print c;").statements

/-- Two names are exchanged, and a third one is spelled otherwise. -/
def spelled : Equiv.Perm String := Equiv.swap "a" "b" * Equiv.swap "c" "d"

/-- What is printed by a program, and what is reported. -/
def shown (ns : List Node) : String × List Diagnostic :=
  let s := endState (Session.guarded (Session.interpret host ns) (.fresh host .quiet .unset))
  (s.machine.output, s.reporter.diagnostics)

theorem names_up_to_renaming_swapped :
    Completions spelled (Run.executeAll host program (.fresh host.natives))
        (Run.executeAll host (program.map (.rename spelled)) (.fresh host.natives)) ∧
      shown program = ("xx\n", [.runtime "Undefined variable 'c'." (some 1)]) ∧
      shown (program.map (.rename spelled))
        = ("xx\n", [.runtime "Undefined variable 'd'." (some 1)]) := by
  have hnatives : ∀ native ∈ host.natives, spelled native.name = native.name := by decide +kernel
  have hfunctions : ∀ name ∈ Node.functionNamesAll program, spelled name = name := by
    decide +kernel
  have hsame := names_up_to_renaming host spelled.injective hnatives hfunctions
  exact ⟨hsame.2.1, by decide +kernel, by decide +kernel⟩

end Swapped

end Spelling

end Lox
