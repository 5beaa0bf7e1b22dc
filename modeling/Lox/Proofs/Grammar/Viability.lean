import Lox.Proofs.Grammar.Halting
import Lox.Proofs.Grammar.Lenient

/-!
# What is read can be completed

A reader stays within some words if the tokens that it takes are one of them whenever it gives a
value, and can be completed to one of them wherever it stops at a syntax error. Then no token has
been taken that would have made the error inevitable. For each of the steps that productions are
made of it is said here which words it stays within; that is composed along the productions.

## Main definitions

* `Parse.Within`: a reader stays within some words.

## Main results

* `Parse.Within.haltingProgram`: programs are read within the words that the lenient grammar admits.
-/

namespace Lox

open Grammar (Admits)

/-- Reports of problems that do not interrupt the reading. -/
def Unraised (reports : List SyntaxReport) : Prop := ∀ r ∈ reports, r.problem.isRaised = false

theorem Unraised.append {reports reports' : List SyntaxReport} (h : Unraised reports)
    (h' : Unraised reports') : Unraised (reports ++ reports') := fun r hr =>
  (List.mem_append.mp hr).elim (h r) (h' r)

/-- What an answer says about the tokens taken. In front of a syntax error they can be completed;
the error is reported last, at the token in front, and nothing before interrupts the reading. -/
def Parsed.Within {α : Type} (M : List Kind → Prop) (ts : List Token) : Parsed α → Prop
  | done _ reports rest => Unraised reports ∧ ∃ us, ts = us ++ rest ∧ M (us.map Token.kind)
  | stopped (.rejected report) reports rest =>
    report.problem.isRaised = true ∧ (∃ noted, reports = noted ++ [report] ∧ Unraised noted) ∧
      (∃ back, rest = report.token :: back) ∧
      ∃ us, ts = us ++ rest ∧ ∃ w, M (us.map Token.kind ++ w)
  | stopped .. => True

/-- The reader stays within the words `M`, of which there is one. -/
structure Parse.Within {α : Type} (M : List Kind → Prop) (p : Parse α) : Prop where
  inhabited : ∃ w, M w
  answers (ts : List Token) : (p ts).Within M ts

namespace Parse.Within

variable {α β : Type} {L M : List Kind → Prop} {p : Parse α}

/-! ### The steps of productions -/

theorem mono (hp : p.Within L) (h : ∀ w, L w → M w) : p.Within M where
  inhabited := hp.inhabited.imp h
  answers ts := by
    have hts := hp.answers ts
    cases hres : p ts with
    | done a reports rest =>
      rw [hres] at hts
      obtain ⟨hreports, us, hus, hL⟩ := hts
      exact ⟨hreports, us, hus, h _ hL⟩
    | stopped why reports rest =>
      rw [hres] at hts
      cases why with
      | rejected report =>
        obtain ⟨hraised, hnoted, hfront, us, hus, hw⟩ := hts
        exact ⟨hraised, hnoted, hfront, us, hus, hw.imp fun _ => h _⟩
      | overrun | exhausted => trivial

theorem pure {a : α} (h : M []) : (Pure.pure a : Parse α).Within M :=
  ⟨⟨[], h⟩, fun _ => ⟨List.forall_mem_nil _, [], rfl, h⟩⟩

theorem exhausted (h : ∃ w, M w) : (Parse.exhausted : Parse α).Within M := ⟨h, fun _ => trivial⟩

/-- Behind a token of a kind that is asked for, or in front of another one, it is enough to know how
reading goes on. -/
theorem ofFront (h : ∃ w, M w) (hnil : (p []).Within M [])
    (hcons : ∀ t ts, (p (t :: ts)).Within M (t :: ts)) : p.Within M := by
  refine ⟨h, fun ts => ?_⟩
  cases ts with
  | nil => exact hnil
  | cons t ts => exact hcons t ts

theorem peek : Parse.peek.Within (· = []) :=
  ofFront ⟨[], rfl⟩ trivial fun _ _ => ⟨List.forall_mem_nil _, [], rfl, rfl⟩

theorem check (kinds : List Kind) : (Parse.check kinds).Within (· = []) :=
  ofFront ⟨[], rfl⟩ trivial fun _ _ => ⟨List.forall_mem_nil _, [], rfl, rfl⟩

theorem note (t : Token) {problem : SyntaxProblem} (hproblem : problem.isRaised = false) :
    (Parse.note t problem).Within (· = []) :=
  ⟨⟨[], rfl⟩, fun _ => ⟨List.forall_mem_singleton.mpr hproblem, [], rfl, rfl⟩⟩

theorem reject {problem : SyntaxProblem} (hproblem : problem.isRaised = true) (h : ∃ w, M w) :
    (Parse.reject problem : Parse α).Within M :=
  ofFront h trivial fun _ ts =>
    ⟨hproblem, ⟨[], rfl, List.forall_mem_nil _⟩, ⟨ts, rfl⟩, [], rfl, h⟩

theorem expect (kind : Kind) {problem : SyntaxProblem} (hproblem : problem.isRaised = true) :
    (Parse.expect kind problem).Within (· = [kind]) := by
  refine ofFront ⟨[kind], rfl⟩ trivial fun t ts => ?_
  by_cases ht : t.kind = kind
  · rw [expect_of_eq ht]
    exact ⟨List.forall_mem_nil _, [t], rfl, congrArg (fun k => [k]) ht⟩
  · rw [expect_of_ne ht]
    exact ⟨hproblem, ⟨[], rfl, List.forall_mem_nil _⟩, ⟨ts, rfl⟩, [], rfl, [kind], rfl⟩

/-- What is read in a row are words one behind the other. -/
theorem bind [Inhabited α] {f : α → Parse β} (hp : p.Within L)
    (hf : ∀ a u, L u → (f a).Within fun v => M (u ++ v)) : (p >>= f).Within M where
  inhabited := by
    obtain ⟨u, hu⟩ := hp.inhabited
    obtain ⟨v, hv⟩ := (hf default u hu).inhabited
    exact ⟨u ++ v, hv⟩
  answers ts := by
    have hts := hp.answers ts
    cases hres : p ts with
    | done a reports rest =>
      rw [hres] at hts
      obtain ⟨hreports, us, rfl, hL⟩ := hts
      have hrest := (hf a _ hL).answers rest
      rw [bind_of_done f hres]
      cases hback : f a rest with
      | done b own back =>
        rw [hback] at hrest
        obtain ⟨hown, vs, rfl, hM⟩ := hrest
        refine ⟨hreports.append hown, us ++ vs, (List.append_assoc ..).symm, ?_⟩
        rwa [List.map_append]
      | stopped why own back =>
        rw [hback] at hrest
        cases why with
        | rejected report =>
          obtain ⟨hraised, ⟨noted, rfl, hnoted⟩, hfront, vs, rfl, w, hM⟩ := hrest
          refine ⟨hraised, ⟨reports ++ noted, (List.append_assoc ..).symm, hreports.append hnoted⟩,
            hfront, us ++ vs, (List.append_assoc ..).symm, w, ?_⟩
          rwa [List.map_append, List.append_assoc]
        | overrun | exhausted => trivial
    | stopped why reports rest =>
      rw [hres] at hts
      rw [bind_of_stopped f hres]
      cases why with
      | rejected report =>
        obtain ⟨hraised, hnoted, hfront, us, hus, w, hL⟩ := hts
        obtain ⟨v, hv⟩ := (hf default _ hL).inhabited
        exact ⟨hraised, hnoted, hfront, us, hus, w ++ v, by rwa [← List.append_assoc]⟩
      | overrun | exhausted => trivial

theorem acceptOr {kinds : List Kind} {f : Option Token → Parse β} (hnone : (f none).Within M)
    (hsome : ∀ t, t.kind ∈ kinds → (f (some t)).Within fun v => M (t.kind :: v)) :
    (Parse.accept kinds >>= f).Within M := by
  refine ofFront hnone.inhabited trivial fun t ts => ?_
  by_cases ht : t.kind ∈ kinds
  · rw [accept_bind_of_mem ht]
    have hts := (hsome t ht).answers ts
    cases hres : f (some t) ts with
    | done a reports rest =>
      rw [hres] at hts
      obtain ⟨hreports, us, rfl, hM⟩ := hts
      exact ⟨hreports, t :: us, rfl, hM⟩
    | stopped why reports rest =>
      rw [hres] at hts
      cases why with
      | rejected report =>
        obtain ⟨hraised, hnoted, hfront, us, rfl, hw⟩ := hts
        exact ⟨hraised, hnoted, hfront, t :: us, rfl, hw⟩
      | overrun | exhausted => trivial
  · rw [accept_bind_of_not_mem ht]
    exact hnone.answers _

theorem byLength {q : Nat → Parse α} (hq : ∀ n, (q n).Within M) :
    Parse.Within M fun ts => q ts.length ts :=
  ⟨(hq 0).inhabited, fun ts => (hq ts.length).answers ts⟩

/-- The value does not matter. -/
theorem map [Inhabited α] (hp : p.Within M) (g : α → β) : (g <$> p).Within M := by
  rw [map_eq_pure_bind]
  exact hp.bind fun _ u hu => pure (by rwa [List.append_nil])

theorem behind [Inhabited α] (kind : Kind) (hp : p.Within L) :
    (p.behind kind).Within fun w => w = [] ∨ ∃ v, w = kind :: v ∧ L v := by
  refine acceptOr (pure (.inl rfl)) fun t ht => (hp.map some).mono fun v hv => .inr ⟨v, ?_, hv⟩
  rw [List.mem_singleton.mp ht]

theorem unlessAt [Inhabited α] (kind : Kind) (hp : p.Within L) :
    (p.unlessAt kind).Within fun w => w = [] ∨ L w := by
  refine (check [kind]).bind fun b u hu => ?_
  subst hu
  cases b with
  | true => exact pure (.inl rfl)
  | false => exact (hp.map some).mono fun _ => .inr

theorem noteSurplus (count : Nat) {surplus : SyntaxProblem} (hsurplus : surplus.isRaised = false) :
    (Parse.noteSurplus count surplus).Within (· = []) := by
  rw [Parse.noteSurplus]
  split
  · refine peek.bind fun t u hu => ?_
    subst hu
    exact note t hsurplus
  · exact pure rfl

/-! ### Loops -/

theorem chain {operators : List Kind} {join : Node → Token → Node → Node} {operand : Parse Node}
    (hoperand : operand.Within L)
    (hjoin : ∀ u k v, M u → k ∈ operators → L v → M (u ++ k :: v)) (bound : Nat) {u : List Kind}
    (hu : M u) (left : Node) :
    (Parse.chain operators join operand bound left).Within fun v => M (u ++ v) := by
  have hnil : M (u ++ []) := by rwa [List.append_nil]
  induction bound generalizing u left with
  | zero => exact exhausted ⟨[], hnil⟩
  | succ bound ih =>
    refine acceptOr (pure hnil) fun t ht => hoperand.bind fun right v hv => ?_
    have hlonger := hjoin u t.kind v hu ht hv
    have hback := ih hlonger (join left t right) (by rwa [List.append_nil])
    simpa only [List.append_assoc, List.cons_append] using hback

theorem entries [Inhabited α] {surplus : SyntaxProblem} (hsurplus : surplus.isRaised = false)
    (hp : p.Within L) (bound count : Nat) :
    (Parse.entries p surplus bound count).Within fun w =>
      ∃ ws, ws ≠ [] ∧ w = Grammar.commaSeparated ws ∧ ∀ v ∈ ws, L v := by
  induction bound generalizing count with
  | zero =>
    obtain ⟨w, hw⟩ := hp.inhabited
    exact exhausted ⟨w, [w], by simp, rfl, by simpa using hw⟩
  | succ bound ih =>
    refine (noteSurplus count hsurplus).bind fun _ u hu => hp.bind fun first v hv => ?_
    subst hu
    refine acceptOr (pure ⟨[v], by simp, by simp [Grammar.commaSeparated], by simpa using hv⟩)
      fun t ht => (ih (count + 1)).bind fun others w hw => pure ?_
    obtain ⟨ws, hne, rfl, hws⟩ := hw
    obtain ⟨w, ws, rfl⟩ := List.exists_cons_of_ne_nil hne
    refine ⟨v :: w :: ws, by simp, ?_, List.forall_mem_cons.mpr ⟨hv, hws⟩⟩
    simp [Grammar.commaSeparated, List.mem_singleton.mp ht]

theorem entriesUnlessAt [Inhabited α] (kind : Kind) {surplus : SyntaxProblem}
    (hsurplus : surplus.isRaised = false) (hp : p.Within L) (bound : Nat) :
    (Parse.entriesUnlessAt kind p surplus bound).Within fun w =>
      ∃ ws, w = Grammar.commaSeparated ws ∧ ∀ v ∈ ws, L v := by
  refine (check [kind]).bind fun b u hu => ?_
  subst hu
  cases b with
  | true => exact pure ⟨[], rfl, List.forall_mem_nil _⟩
  | false => exact (entries hsurplus hp bound 0).mono fun w ⟨ws, _, hw⟩ => ⟨ws, hw⟩

theorem upTo (closers : List Kind) {entry : Parse (Option α)} (hentry : entry.Within L)
    (bound : Nat) :
    (Parse.upTo closers entry bound).Within fun w =>
      ∃ ws : List (List Kind), w = ws.flatten ∧ ∀ v ∈ ws, L v := by
  have hnil : ∃ ws : List (List Kind), [] = ws.flatten ∧ ∀ v ∈ ws, L v :=
    ⟨[], rfl, List.forall_mem_nil _⟩
  induction bound with
  | zero => exact exhausted ⟨[], hnil⟩
  | succ bound ih =>
    refine (check closers).bind fun b u hu => ?_
    subst hu
    cases b with
    | true => exact pure hnil
    | false =>
      refine hentry.bind fun first v hv => ih.bind fun others w hw => pure ?_
      obtain ⟨ws, rfl, hws⟩ := hw
      exact ⟨v :: ws, by simp, List.forall_mem_cons.mpr ⟨hv, hws⟩⟩

/-! ### Expressions -/

section Expressions

theorem tier {operand : Parse Node} (hoperand : operand.Within (Admits .unary)) (bound : Nat)
    (levels : List (List Kind × (Node → Token → Node → Node))) :
    (Expression.tier bound operand levels).Within (Admits (.tier (levels.map Prod.fst))) := by
  induction levels with
  | nil => exact hoperand.mono fun _ => .operand
  | cons level tighter ih =>
    refine ih.bind fun left u hu => ?_
    exact chain ih (fun _ _ _ => .join) bound (.tighter hu) left

/-- The words of the productions that are started again. -/
def symbol : Expression.Entry → Grammar.Symbol
  | .assignment => .expression
  | .ternary => .ternary
  | .unary => .unary

variable {again : Expression.Entry → Parse Node}
variable (hagain : ∀ entry, (again entry).Within (Admits (symbol entry))) (bound : Nat)
include hagain

theorem primary : (Expression.primary again).Within (Admits .primary) := by
  refine acceptOr (reject rfl ⟨[.identifier], .constant (by decide)⟩) fun t ht => ?_
  dsimp only
  split
  case h_5 hkind =>
    refine (hagain .assignment).bind fun inner u hu => ?_
    refine (expect .rightParen rfl).bind fun _ v hv => pure ?_
    subst hv
    simpa [hkind] using Admits.grouping hu
  all_goals
    refine pure (.constant ?_)
    simp_all [List.mem_cons]

theorem calls (steps : Nat) {u : List Kind} (hu : Admits .call u) (callee : Node) :
    (Expression.calls bound again steps callee).Within fun v => Admits .call (u ++ v) := by
  have hnil : Admits .call (u ++ []) := by rwa [List.append_nil]
  induction steps generalizing u callee with
  | zero => exact exhausted ⟨[], hnil⟩
  | succ steps ih =>
    refine acceptOr (pure hnil) fun t ht => ?_
    refine (entriesUnlessAt .rightParen rfl (hagain .assignment) bound).bind fun entries v hv => ?_
    refine (expect .rightParen rfl).bind fun paren w hw => ?_
    obtain ⟨ws, rfl, hws⟩ := hv
    subst hw
    have hlonger : Admits .call (u ++ .leftParen :: (Grammar.commaSeparated ws ++ [.rightParen])) :=
      .call hu hws
    have hback := ih hlonger (.call callee paren entries) (by rwa [List.append_nil])
    simpa [List.mem_singleton.mp ht] using hback

theorem unary : (Expression.unary bound again).Within (Admits .unary) := by
  refine acceptOr ?_ fun t ht => ?_
  · refine Within.mono (L := Admits .call) ?_ fun _ => .tight
    refine (primary hagain).bind fun callee u hu => ?_
    exact calls hagain bound bound (.atom hu) callee
  · refine ((hagain .unary).mono fun v hv => ?_).map _
    exact .unary ht hv

theorem ternary : (Expression.ternary bound again).Within (Admits .ternary) := by
  refine (tier (unary hagain bound) bound Expression.tiers).bind fun condition c hc => ?_
  refine acceptOr (pure ?_) fun t ht => ?_
  · rw [List.append_nil]
    exact .joins hc
  · refine (hagain .ternary).bind fun thenBranch a ha => ?_
    refine (expect .colon rfl).bind fun _ v hv => ?_
    refine (hagain .ternary).bind fun elseBranch b hb => pure ?_
    subst hv
    simpa [List.mem_singleton.mp ht] using Admits.ternary hc ha hb

theorem assignment : (Expression.assignment bound again).Within (Admits .expression) := by
  refine (ternary hagain bound).bind fun target u hu => ?_
  refine acceptOr (pure ?_) fun t ht => (hagain .assignment).bind fun value w hw => ?_
  · rw [List.append_nil]
    exact .choice hu
  · have hassigned : Admits .expression (u ++ t.kind :: (w ++ [])) := by
      rw [List.mem_singleton.mp ht, List.append_nil]
      exact .assignment hu hw
    split
    · exact pure hassigned
    · refine (note t rfl).bind fun _ v hv => pure ?_
      subst hv
      exact hassigned

end Expressions

theorem read (bound : Nat) (entry : Expression.Entry) :
    (Expression.read bound entry).Within (Admits (symbol entry)) := by
  induction bound generalizing entry with
  | zero =>
    refine exhausted ⟨[.identifier], ?_⟩
    cases entry with
    | assignment => exact .choice (.ofCall .identifier_call)
    | ternary => exact .ofCall .identifier_call
    | unary => exact .tight .identifier_call
  | succ bound ih =>
    cases entry with
    | assignment => exact assignment ih (bound + 1)
    | ternary => exact ternary ih (bound + 1)
    | unary => exact unary ih (bound + 1)

theorem expression : Parse.expression.Within (Admits .expression) :=
  byLength fun n => read (n + 1) .assignment

/-! ### Statements -/

section Statements

theorem expressionThen (kind : Kind) {problem : SyntaxProblem}
    (hproblem : problem.isRaised = true) :
    (Statement.expressionThen kind problem).Within fun w =>
      ∃ v, w = v ++ [kind] ∧ Admits .expression v := by
  refine expression.bind fun _ v hv => (expect kind hproblem).bind fun _ u hu => pure ?_
  subst hu
  exact ⟨v, by simp, hv⟩

theorem optionalThen (kind : Kind) {problem : SyntaxProblem} (hproblem : problem.isRaised = true) :
    (Statement.optionalThen kind problem).Within fun w =>
      ∃ v, w = v ++ [kind] ∧ Admits .clause v := by
  refine (expression.unlessAt kind).bind fun _ v hv => ?_
  refine (expect kind hproblem).bind fun _ u hu => pure ?_
  subst hu
  refine ⟨v, by simp, ?_⟩
  obtain rfl | hv := hv
  · exact .noClause
  · exact .clause hv

theorem condition {opening closing : SyntaxProblem} (hopening : opening.isRaised = true)
    (hclosing : closing.isRaised = true) :
    (Statement.condition opening closing).Within fun w =>
      ∃ v, w = .leftParen :: (v ++ [.rightParen]) ∧ Admits .expression v := by
  refine (expect .leftParen hopening).bind fun _ u hu => ?_
  subst hu
  refine (expressionThen .rightParen hclosing).mono ?_
  rintro _ ⟨v, rfl, hv⟩
  exact ⟨v, rfl, hv⟩

theorem variableDeclaration :
    Statement.variableDeclaration.Within fun w => Admits .binding (.kwVar :: w) := by
  refine (expect .identifier rfl).bind fun name u hu => ?_
  subst hu
  refine (expression.behind .equal).bind fun initializer v hv => ?_
  refine (expect .semicolon rfl).bind fun _ u hu => pure ?_
  subst hu
  obtain rfl | ⟨v, rfl, hv⟩ := hv
  · exact .bare
  · exact .initialized hv

theorem expressionStatement : Statement.expressionStatement.Within fun w =>
    ∃ v, w = v ++ [.semicolon] ∧ Admits .expression v := by
  refine (expressionThen .semicolon rfl).bind fun _ u hu => pure ?_
  rwa [List.append_nil]

theorem forInitializer : Statement.forInitializer.Within (Admits .initializer) := by
  refine acceptOr ?_ fun t ht => ?_
  · refine (expressionStatement.map some).mono ?_
    rintro _ ⟨v, rfl, hv⟩
    exact .evaluatedFirst hv
  · dsimp only
    split
    · next hkind => exact pure (hkind ▸ .noInitializer)
    · next hkind =>
      have hvar : t.kind = .kwVar := by simpa [hkind] using ht
      rw [hvar]
      exact (variableDeclaration.map some).mono fun _ => .declaredFirst

theorem parameters (bound : Nat) : (Statement.parameters bound).Within fun w =>
    ∃ count, w = Grammar.commaSeparated (List.replicate count [.identifier]) := by
  refine (entriesUnlessAt .rightParen rfl (expect .identifier rfl) bound).mono ?_
  rintro _ ⟨ws, rfl, hws⟩
  exact ⟨ws.length, congrArg _ (List.eq_replicate_iff.mpr ⟨rfl, hws⟩)⟩

/-- Readers of declarations and statements that stay within the words of these. -/
structure Again (again : Statement.Entry) : Prop where
  declaration : again.declaration.Within (Admits .declaration)
  statement : again.statement.Within (Admits .statement)

variable {again : Statement.Entry} (hagain : Again again) (bound : Nat)
include hagain

theorem block : (Statement.block bound again).Within fun w =>
    ∃ v, w = v ++ [.rightBrace] ∧ Admits .program v := by
  refine (hagain.declaration.upTo _ bound).bind fun _ v hv => ?_
  refine (expect .rightBrace rfl).bind fun _ u hu => pure ?_
  subst hu
  obtain ⟨ws, rfl, hws⟩ := hv
  exact ⟨ws.flatten, by simp, .program hws⟩

theorem functionDeclaration : (Statement.functionDeclaration bound again).Within fun w =>
    Admits .declaration (.kwFun :: w) := by
  refine (expect .identifier rfl).bind fun name u hu => ?_
  subst hu
  refine (expect .leftParen rfl).bind fun _ u hu => ?_
  subst hu
  refine (parameters bound).bind fun params ps hps => ?_
  refine (expect .rightParen rfl).bind fun _ u hu => ?_
  subst hu
  refine (expect .leftBrace rfl).bind fun _ u hu => ?_
  subst hu
  refine (block hagain bound).bind fun body v hv => pure ?_
  obtain ⟨count, rfl⟩ := hps
  obtain ⟨v, rfl, hbody⟩ := hv
  have hfunction : Admits .declaration (.kwFun :: .identifier :: .leftParen ::
      (Grammar.commaSeparated (List.replicate count [.identifier]) ++
        .rightParen :: .leftBrace :: (v ++ [.rightBrace]))) := .function hbody
  simpa using hfunction

theorem forLoop : (Statement.forLoop again).Within fun w => Admits .statement (.kwFor :: w) := by
  refine (expect .leftParen rfl).bind fun _ u hu => ?_
  subst hu
  refine forInitializer.bind fun initializer i hi => ?_
  refine (optionalThen .semicolon rfl).bind fun condition c hc => ?_
  refine (optionalThen .rightParen rfl).bind fun increment e he => ?_
  refine hagain.statement.bind fun body w hw => pure ?_
  obtain ⟨c, rfl, hc⟩ := hc
  obtain ⟨e, rfl, he⟩ := he
  simpa using Admits.forLoop hi hc he hw

theorem branch : (Statement.branch again).Within fun w => Admits .statement (.kwIf :: w) := by
  refine (condition rfl rfl).bind fun condition c hc => ?_
  refine hagain.statement.bind fun thenBranch w hw => ?_
  refine (hagain.statement.behind .kwElse).bind fun elseBranch v hv => pure ?_
  obtain ⟨c, rfl, hc⟩ := hc
  obtain rfl | ⟨v, rfl, hv⟩ := hv
  · simpa using Admits.branch hc hw
  · simpa using Admits.branchElse hc hw hv

theorem whileLoop :
    (Statement.whileLoop again).Within fun w => Admits .statement (.kwWhile :: w) := by
  refine (condition rfl rfl).bind fun condition c hc => ?_
  refine hagain.statement.bind fun body w hw => pure ?_
  obtain ⟨c, rfl, hc⟩ := hc
  simpa using Admits.whileLoop hc hw

theorem statement : (Statement.statement bound again).Within (Admits .statement) := by
  refine acceptOr ?_ fun t ht => ?_
  · refine expressionStatement.mono ?_
    rintro _ ⟨v, rfl, hv⟩
    exact .evaluated hv
  · dsimp only
    split
    next hkind => exact hkind ▸ forLoop hagain
    next hkind => exact hkind ▸ whileLoop hagain
    next hkind => exact hkind ▸ branch hagain
    next hkind =>
      rw [hkind]
      refine (expressionThen .semicolon rfl).bind fun _ u hu => pure ?_
      obtain ⟨v, rfl, hv⟩ := hu
      simpa using Admits.print hv
    next hkind =>
      rw [hkind]
      refine (optionalThen .semicolon rfl).bind fun _ u hu => pure ?_
      obtain ⟨v, rfl, hv⟩ := hu
      simpa using Admits.returning hv
    next =>
      have hkind : t.kind = .leftBrace := by simp_all
      rw [hkind]
      refine (block hagain bound).bind fun _ u hu => pure ?_
      obtain ⟨v, rfl, hv⟩ := hu
      simpa using Admits.block hv

theorem strictDeclaration :
    (Statement.strictDeclaration bound again).Within (Admits .declaration) := by
  refine acceptOr ((statement hagain bound).mono fun _ => .stated) fun t ht => ?_
  dsimp only
  split
  · next hkind => exact hkind ▸ functionDeclaration hagain bound
  · next hkind =>
    have hvar : t.kind = .kwVar := by simpa [hkind] using ht
    rw [hvar]
    exact variableDeclaration.mono fun _ => .declared

omit hagain in
/-- Reading that stops at a syntax error stays within the words of declarations and statements. -/
theorem haltingReaders : Again (Statement.haltingReaders bound) := by
  induction bound with
  | zero =>
    have hprogram : Admits .program [] := .program (List.forall_mem_nil _)
    have hstatement : Admits .statement [.leftBrace, .rightBrace] := .block hprogram
    exact ⟨exhausted ⟨_, .stated hstatement⟩, exhausted ⟨_, hstatement⟩⟩
  | succ bound ih =>
    exact ⟨(strictDeclaration ih (bound + 1)).map some, statement ih (bound + 1)⟩

end Statements

/-- Programs are read within the words that the lenient grammar admits. -/
theorem haltingProgram : Parse.haltingProgram.Within (Admits .program) := by
  have hdeclaration : Parse.haltingDeclaration.Within (Admits .declaration) :=
    byLength fun n => (haltingReaders (n + 1)).declaration
  refine byLength (q := fun n => Parse.upTo [.endOfInput] Parse.haltingDeclaration (n + 1))
    fun n => ?_
  refine (hdeclaration.upTo _ (n + 1)).mono ?_
  rintro _ ⟨ws, rfl, hws⟩
  exact .program hws

end Parse.Within

end Lox
