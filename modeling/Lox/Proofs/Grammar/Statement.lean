import Lox.Proofs.Grammar.Expression.Completeness

/-!
# The phrases of statements

Rules for statements and declarations that go along with their trees, as those for expressions.
An `else` belongs to the nearest `if` that can have it. So a statement is open if an `else` behind
it would become part of it; the statement between an `if` and its `else` is closed. What is read
without a report are such phrases.

A `for` loop is spelled as such and has the tree of the loop it stands for.

## Main definitions

* `Statement.Symbol`: the kinds of phrases.
* `Statement.Spells`: tokens spell some trees.
* `Parse.Recognizes`: a reader reads exactly some phrases, whatever follows them.

## Main results

* `Statement.spells_of_reads`: a program that is read without a report is a list of phrases.
-/

namespace Lox

namespace Statement

/-! ### Clauses -/

/-- An expression and a token behind it. -/
def Ended (kind : Kind) (n : Node) (us : List Token) : Prop :=
  ∃ vs t, us = vs ++ [t] ∧ t.kind = kind ∧ Expression.Spells .assignment [n] vs

/-- An expression that may be left out, and a token behind it. -/
inductive OptionallyEnded (kind : Kind) : Option Node → List Token → Prop
  | none {t : Token} (ht : t.kind = kind) : OptionallyEnded kind none [t]
  | some {n : Node} {us : List Token} (h : Ended kind n us) : OptionallyEnded kind (some n) us

/-- An expression in parentheses. -/
def Condition (n : Node) (us : List Token) : Prop :=
  ∃ t vs, us = t :: vs ∧ t.kind = .leftParen ∧ Ended .rightParen n vs

/-- The declaration of a variable behind its keyword. -/
inductive Variable : Node → List Token → Prop
  | bare {name t : Token} (hname : name.kind = .identifier) (ht : t.kind = .semicolon) :
      Variable (.declare name none) [name, t]
  | initialized {name equals : Token} {n : Node} {us : List Token}
      (hname : name.kind = .identifier) (hequals : equals.kind = .equal)
      (h : Ended .semicolon n us) : Variable (.declare name (some n)) (name :: equals :: us)

/-- The first clause of a `for` loop. -/
inductive Initializer : Option Node → List Token → Prop
  | none {t : Token} (ht : t.kind = .semicolon) : Initializer none [t]
  | declared {keyword : Token} {n : Node} {us : List Token} (hkeyword : keyword.kind = .kwVar)
      (h : Variable n us) : Initializer (some n) (keyword :: us)
  | expression {n : Node} {us : List Token} (h : Ended .semicolon n us) :
      Initializer (some (.expression n)) us

/-- The parameters of a function, of which there is at least one. -/
inductive Listed : List Token → List Token → Prop
  | last {p : Token} (hp : p.kind = .identifier) : Listed [p] [p]
  | cons {p comma : Token} {ps us : List Token} (hp : p.kind = .identifier)
      (hcomma : comma.kind = .comma) (h : Listed ps us) : Listed (p :: ps) (p :: comma :: us)

/-- The parameters of a function. -/
inductive Parameters : List Token → List Token → Prop
  | none : Parameters [] []
  | some {ps us : List Token} (hlength : ps.length ≤ maxEntries) (h : Listed ps us) :
      Parameters ps us

/-! ### Statements and declarations -/

/-- The kinds of phrases. A statement is open if an `else` behind it would belong to it. -/
inductive Symbol
  | declarations
  | declaration
  | statement (isOpen : Bool)

/-- The tokens spell the trees as a phrase of some kind. -/
inductive Spells : Symbol → List Node → List Token → Prop
  | nil : Spells .declarations [] []
  | cons {n : Node} {ns : List Node} {us vs : List Token} (h : Spells .declaration [n] us)
      (hns : Spells .declarations ns vs) : Spells .declarations (n :: ns) (us ++ vs)
  | function {keyword name opening closing left right : Token} {params ps us : List Token}
      {body : List Node} (hkeyword : keyword.kind = .kwFun) (hname : name.kind = .identifier)
      (hopening : opening.kind = .leftParen) (hparams : Parameters params ps)
      (hclosing : closing.kind = .rightParen) (hleft : left.kind = .leftBrace)
      (hbody : Spells .declarations body us) (hright : right.kind = .rightBrace) :
      Spells .declaration [.function name params body]
        (keyword :: name :: opening :: (ps ++ closing :: left :: (us ++ [right])))
  | declared {keyword : Token} {n : Node} {us : List Token} (hkeyword : keyword.kind = .kwVar)
      (h : Variable n us) : Spells .declaration [n] (keyword :: us)
  | statement {isOpen : Bool} {n : Node} {us : List Token} (h : Spells (.statement isOpen) [n] us) :
      Spells .declaration [n] us
  | expression {n : Node} {us : List Token} (h : Ended .semicolon n us) :
      Spells (.statement false) [.expression n] us
  | print {keyword : Token} {n : Node} {us : List Token} (hkeyword : keyword.kind = .kwPrint)
      (h : Ended .semicolon n us) : Spells (.statement false) [.print n] (keyword :: us)
  | returning {keyword : Token} {value : Option Node} {us : List Token}
      (hkeyword : keyword.kind = .kwReturn) (h : OptionallyEnded .semicolon value us) :
      Spells (.statement false) [.returning keyword value] (keyword :: us)
  | block {left right : Token} {ns : List Node} {us : List Token} (hleft : left.kind = .leftBrace)
      (hns : Spells .declarations ns us) (hright : right.kind = .rightBrace) :
      Spells (.statement false) [.block ns] (left :: (us ++ [right]))
  | branch {keyword : Token} {isOpen : Bool} {condition thenBranch : Node} {cs us : List Token}
      (hkeyword : keyword.kind = .kwIf) (hcondition : Condition condition cs)
      (hthen : Spells (.statement isOpen) [thenBranch] us) :
      Spells (.statement true) [.branch condition thenBranch none] (keyword :: (cs ++ us))
  | branchElse {keyword keywordElse : Token} {isOpen : Bool} {condition thenBranch elseBranch : Node}
      {cs us vs : List Token} (hkeyword : keyword.kind = .kwIf)
      (hcondition : Condition condition cs) (hthen : Spells (.statement false) [thenBranch] us)
      (hkeywordElse : keywordElse.kind = .kwElse)
      (helse : Spells (.statement isOpen) [elseBranch] vs) :
      Spells (.statement isOpen) [.branch condition thenBranch (some elseBranch)]
        (keyword :: (cs ++ (us ++ keywordElse :: vs)))
  | whileLoop {keyword : Token} {isOpen : Bool} {condition body : Node} {cs us : List Token}
      (hkeyword : keyword.kind = .kwWhile) (hcondition : Condition condition cs)
      (hbody : Spells (.statement isOpen) [body] us) :
      Spells (.statement isOpen) [.loop condition body] (keyword :: (cs ++ us))
  | forLoop {keyword opening : Token} {isOpen : Bool} {initializer condition increment : Option Node}
      {body : Node} {is cs es us : List Token} (hkeyword : keyword.kind = .kwFor)
      (hopening : opening.kind = .leftParen) (hinitializer : Initializer initializer is)
      (hcondition : OptionallyEnded .semicolon condition cs)
      (hincrement : OptionallyEnded .rightParen increment es)
      (hbody : Spells (.statement isOpen) [body] us) :
      Spells (.statement isOpen) [desugarFor initializer condition increment body]
        (keyword :: opening :: (is ++ (cs ++ (es ++ us))))

end Statement

/-! ### What is read of clauses -/

/-- A reader reads exactly the phrases of some kind, as their trees, whatever follows them. -/
def Parse.Recognizes {α : Type} (p : Parse α) (phrase : α → List Token → Prop) : Prop :=
  ∀ ⦃ts rest : List Token⦄ ⦃a : α⦄, p.Reads ts a rest ↔ ∃ us, ts = us ++ rest ∧ phrase a us

namespace Statement

/-- The kinds of tokens that an expression can neither start with nor go on with. -/
abbrev Ends (kind : Kind) : Prop :=
  kind ∉ Expression.openingKinds ∧ kind ∉ Expression.Symbol.assignment.continuing

theorem Ended.opens {kind : Kind} {n : Node} {us : List Token} (h : Ended kind n us) :
    StartsIn Expression.openingKinds us := by
  obtain ⟨vs, t, rfl, -, hspells⟩ := h
  exact StartsIn.append hspells.opens _

theorem Ends.outside {kind : Kind} (hkind : Ends kind) {us : List Token}
    (h : StartsIn Expression.openingKinds us) : StartsOutside [kind] us := by
  refine h.outside fun k hk hmem => hkind.1 ?_
  rwa [← List.mem_singleton.mp hmem]

theorem Ended.reads {kind : Kind} (hkind : Ends kind) {n : Node} {us : List Token}
    (h : Ended kind n us) (rest : List Token) :
    ∃ t, t.kind = kind ∧ Parse.expression.Reads (us ++ rest) n (t :: rest) := by
  obtain ⟨vs, t, rfl, ht, hspells⟩ := h
  refine ⟨t, ht, ?_⟩
  rw [List.append_assoc]
  exact hspells.reads (ht ▸ hkind.2 : t.kind ∉ _)

theorem ended_of_reads {kind : Kind} {n : Node} {ts rest : List Token} {t : Token}
    (h : Parse.expression.Reads ts n (t :: rest)) (ht : t.kind = kind) :
    ∃ us, ts = us ++ rest ∧ Ended kind n us := by
  obtain ⟨us, rfl, hspells⟩ := Expression.spells_of_reads h
  exact ⟨us ++ [t], by simp, us, t, rfl, ht, hspells⟩

theorem recognizes_expressionThen {kind : Kind} (hkind : Ends kind) (problem : SyntaxProblem) :
    (expressionThen kind problem).Recognizes (Ended kind) := by
  intro ts rest n
  simp only [expressionThen, Parse.reads_bind, ↓Parse.reads_expect_bind, Parse.reads_pure]
  constructor
  · rintro ⟨_, mid, readExpression, t, _, rfl, ht, rfl, rfl⟩
    exact ended_of_reads readExpression ht
  · rintro ⟨us, rfl, hended⟩
    obtain ⟨t, ht, readExpression⟩ := hended.reads hkind rest
    exact ⟨n, _, readExpression, t, rest, rfl, ht, rfl, rfl⟩

theorem recognizes_optionalThen {kind : Kind} (hkind : Ends kind) (problem : SyntaxProblem) :
    (optionalThen kind problem).Recognizes (OptionallyEnded kind) := by
  intro ts rest o
  simp only [optionalThen, Parse.reads_bind, ↓Parse.reads_expect_bind, Parse.reads_pure,
    Parse.reads_unlessAt]
  constructor
  · rintro ⟨_, mid, ⟨t, us, rfl, ht, rfl, rfl⟩ | ⟨-, n, readExpression, rfl⟩, u, vs, heq, hu,
      rfl, rfl⟩
    · obtain ⟨rfl, rfl⟩ := List.cons_eq_cons.mp heq
      exact ⟨[t], rfl, .none ht⟩
    · subst heq
      obtain ⟨us, rfl, hended⟩ := ended_of_reads readExpression hu
      exact ⟨us, rfl, .some hended⟩
  · rintro ⟨us, rfl, h⟩
    cases h with
    | @none t ht => exact ⟨none, _, .inl ⟨t, rest, rfl, ht, rfl, rfl⟩, t, rest, rfl, ht, rfl, rfl⟩
    | @some n _ hended =>
      obtain ⟨t, ht, readExpression⟩ := hended.reads hkind rest
      have hopens := hkind.outside (hended.opens.append rest)
      exact ⟨some n, _, .inr ⟨hopens, n, readExpression, rfl⟩, t, rest, rfl, ht, rfl, rfl⟩

theorem recognizes_condition (opening closing : SyntaxProblem) :
    (condition opening closing).Recognizes Condition := by
  intro ts rest n
  simp only [condition, ↓Parse.reads_expect_bind]
  constructor
  · rintro ⟨t, mid, rfl, ht, h⟩
    obtain ⟨us, rfl, hended⟩ := (recognizes_expressionThen (by decide) closing).mp h
    exact ⟨t :: us, rfl, t, us, rfl, ht, hended⟩
  · rintro ⟨_, rfl, t, us, rfl, ht, hended⟩
    exact ⟨t, us ++ rest, rfl, ht,
      (recognizes_expressionThen (by decide) closing).mpr ⟨us, rfl, hended⟩⟩

theorem recognizes_variableDeclaration : variableDeclaration.Recognizes Variable := by
  intro ts rest n
  rw [variableDeclaration, Parse.reads_expect_bind]
  simp only [↓Parse.reads_expect_bind, Parse.reads_bind, Parse.reads_behind, Parse.reads_pure]
  constructor
  · rintro ⟨name, back, rfl, hname, o, mid, hbehind, t, _, rfl, ht, rfl, rfl⟩
    obtain ⟨equals, us, rfl, hequals, e, readExpression, rfl⟩ | ⟨-, rfl, rfl⟩ := hbehind
    · obtain ⟨us, rfl, hended⟩ := ended_of_reads readExpression ht
      exact ⟨name :: equals :: us, rfl, .initialized hname hequals hended⟩
    · exact ⟨[name, t], rfl, .bare hname ht⟩
  · rintro ⟨us, rfl, h⟩
    cases h with
    | @bare name t hname ht =>
      exact ⟨name, t :: rest, rfl, hname, none, t :: rest, .inr ⟨by simp [ht], rfl, rfl⟩, t, rest,
        rfl, ht, rfl, rfl⟩
    | @initialized name equals e _ hname hequals hended =>
      obtain ⟨t, ht, readExpression⟩ := hended.reads (by decide) rest
      exact ⟨name, _, rfl, hname, some e, _, .inl ⟨equals, _, rfl, hequals, e, readExpression, rfl⟩,
        t, rest, rfl, ht, rfl, rfl⟩

theorem recognizes_forInitializer : forInitializer.Recognizes Initializer := by
  intro ts rest o
  simp only [forInitializer, ↓Parse.reads_accept_bind, Parse.reads_map, expressionStatement,
    ↓Parse.reads_bind_pure]
  constructor
  · rintro (⟨t, us, rfl, ht, h⟩ | ⟨-, n, ⟨e, readExpression, rfl⟩, rfl⟩)
    · split at h
      · rename_i hsemicolon
        obtain ⟨rfl, rfl⟩ := Parse.reads_pure.mp h
        exact ⟨[t], rfl, .none hsemicolon⟩
      · rename_i hsemicolon
        obtain ⟨n, readVariable, rfl⟩ := Parse.reads_map.mp h
        obtain ⟨us, rfl, hvariable⟩ := recognizes_variableDeclaration.mp readVariable
        exact ⟨t :: us, rfl, .declared (by simpa [hsemicolon] using ht) hvariable⟩
    · obtain ⟨us, rfl, hended⟩ := (recognizes_expressionThen (by decide) _).mp readExpression
      exact ⟨us, rfl, .expression hended⟩
  · rintro ⟨_, rfl, h⟩
    cases h with
    | @none t ht => exact .inl ⟨t, rest, rfl, by simp [ht], by simp [ht]⟩
    | @declared keyword n us hkeyword hvariable =>
      refine .inl ⟨keyword, us ++ rest, rfl, by simp [hkeyword], ?_⟩
      rw [hkeyword, if_neg (by decide)]
      exact Parse.reads_map.mpr ⟨n, recognizes_variableDeclaration.mpr ⟨us, rfl, hvariable⟩, rfl⟩
    | expression hended =>
      refine .inr ⟨(hended.opens.append rest).outside (by decide), _, ⟨_, ?_, rfl⟩, rfl⟩
      exact (recognizes_expressionThen (by decide) _).mpr ⟨_, rfl, hended⟩

/-! ### What is read is a phrase -/

theorem listed_of_reads {problem surplus : SyntaxProblem} {bound count : Nat}
    {ts rest ps : List Token}
    (h : (Parse.entries (Parse.expect .identifier problem) surplus bound count).Reads ts ps rest) :
    ∃ us, ts = us ++ rest ∧ Listed ps us ∧ count + ps.length ≤ maxEntries := by
  induction bound generalizing count ts ps with
  | zero => exact absurd h Parse.not_reads_exhausted
  | succ bound ih =>
    obtain ⟨hcount, p, mid, hexpect, hbehind⟩ := Parse.reads_entries_succ.mp h
    obtain ⟨hp, rfl⟩ := Parse.reads_expect.mp hexpect
    obtain ⟨comma, back, rfl, hcomma, others, readOthers, rfl⟩ | ⟨-, rfl, rfl⟩ := hbehind
    · obtain ⟨us, rfl, hothers, hlength⟩ := ih readOthers
      refine ⟨p :: comma :: us, rfl, .cons hp hcomma hothers, ?_⟩
      rw [List.length_cons]
      omega
    · exact ⟨[p], rfl, .last hp, hcount⟩

theorem parameters_of_reads {bound : Nat} {ts rest ps : List Token}
    (h : (parameters bound).Reads ts ps rest) :
    ∃ us, ts = us ++ rest ∧ Parameters ps us := by
  obtain ⟨t, us, rfl, -, rfl, rfl⟩ | ⟨-, readEntries⟩ := Parse.reads_entriesUnlessAt.mp h
  · exact ⟨[], rfl, .none⟩
  · obtain ⟨us, rfl, hlisted, hlength⟩ := listed_of_reads readEntries
    exact ⟨us, rfl, .some (by omega) hlisted⟩

/-- What a reader reads without a report is a declaration. -/
def SoundDeclaration (p : Parse Node) : Prop :=
  ∀ ⦃ts rest : List Token⦄ ⦃n : Node⦄, p.Reads ts n rest →
    ∃ us, ts = us ++ rest ∧ Spells .declaration [n] us

/-- What a reader reads without a report is a statement, and behind an open one there is no
`else`. -/
def SoundStatement (p : Parse Node) : Prop :=
  ∀ ⦃ts rest : List Token⦄ ⦃n : Node⦄, p.Reads ts n rest →
    ∃ isOpen us, ts = us ++ rest ∧ Spells (.statement isOpen) [n] us ∧
      (isOpen = true → StartsOutside [.kwElse] rest)

/-- The readers that productions start again read phrases. -/
structure SoundEntry (again : Entry) : Prop where
  declaration : ∃ p : Parse Node, again.declaration = p.recovering ∧ p.Reporting ∧
    SoundDeclaration p
  statement : SoundStatement again.statement

section Sound

variable {bound : Nat} {again : Entry}

theorem spells_of_reads_upTo {closers : List Kind} {p : Parse Node} (hp : p.Reporting)
    (hsound : SoundDeclaration p) {ts rest : List Token} {ns : List Node}
    (h : (Parse.upTo closers p.recovering bound).Reads ts ns rest) :
    ∃ us, ts = us ++ rest ∧ Spells .declarations ns us ∧ StartsIn closers rest := by
  induction bound generalizing ts ns with
  | zero => exact absurd h Parse.not_reads_exhausted
  | succ bound ih =>
    obtain ⟨t, us, rfl, ht, rfl, rfl⟩ | ⟨-, o, mid, readFirst, others, readOthers, rfl⟩ :=
      Parse.reads_upTo_succ.mp h
    · exact ⟨[], rfl, .nil, ht⟩
    · obtain ⟨n, rfl, readStrict⟩ := (Parse.reads_recovering hp).mp readFirst
      obtain ⟨us, rfl, hn⟩ := hsound readStrict
      obtain ⟨vs, rfl, hns, hrest⟩ := ih readOthers
      exact ⟨us ++ vs, (List.append_assoc ..).symm, .cons hn hns, hrest⟩

theorem spells_of_reads_block (hagain : SoundEntry again) {ts rest : List Token} {ns : List Node}
    (h : (block bound again).Reads ts ns rest) :
    ∃ us right, ts = us ++ right :: rest ∧ Spells .declarations ns us ∧
      right.kind = .rightBrace := by
  obtain ⟨p, hp, hreporting, hsound⟩ := hagain.declaration
  simp only [block, hp, Parse.reads_bind, Parse.reads_expect, Parse.reads_pure] at h
  obtain ⟨ns, mid, readDeclarations, right, _, ⟨hright, rfl⟩, rfl, rfl⟩ := h
  obtain ⟨us, rfl, hns, -⟩ := spells_of_reads_upTo hreporting hsound readDeclarations
  exact ⟨us, right, rfl, hns, hright⟩

theorem SoundDeclaration.functionDeclaration (hagain : SoundEntry again) {ts rest : List Token}
    {n : Node} (h : (functionDeclaration bound again).Reads ts n rest) {keyword : Token}
    (hkeyword : keyword.kind = .kwFun) :
    ∃ us, keyword :: ts = us ++ rest ∧ Spells .declaration [n] us := by
  rw [Statement.functionDeclaration, Parse.reads_expect_bind] at h
  obtain ⟨name, _, rfl, hname, h⟩ := h
  obtain ⟨opening, _, rfl, hopening, h⟩ := Parse.reads_expect_bind.mp h
  obtain ⟨params, _, readParameters, h⟩ := Parse.reads_bind.mp h
  obtain ⟨closing, _, rfl, hclosing, h⟩ := Parse.reads_expect_bind.mp h
  obtain ⟨left, _, rfl, hleft, h⟩ := Parse.reads_expect_bind.mp h
  obtain ⟨body, readBody, rfl⟩ := Parse.reads_bind_pure.mp h
  obtain ⟨ps, rfl, hparams⟩ := parameters_of_reads readParameters
  obtain ⟨us, right, rfl, hbody, hright⟩ := spells_of_reads_block hagain readBody
  exact ⟨keyword :: name :: opening :: (ps ++ closing :: left :: (us ++ [right])), by simp,
    .function hkeyword hname hopening hparams hclosing hleft hbody hright⟩

theorem spells_of_reads_branch (hagain : SoundEntry again) {ts rest : List Token} {n : Node}
    (h : (branch again).Reads ts n rest) {keyword : Token} (hkeyword : keyword.kind = .kwIf) :
    ∃ isOpen us, keyword :: ts = us ++ rest ∧ Spells (.statement isOpen) [n] us ∧
      (isOpen = true → StartsOutside [.kwElse] rest) := by
  obtain ⟨condition, _, readCondition, h⟩ := Parse.reads_bind.mp h
  obtain ⟨thenBranch, mid, readThen, h⟩ := Parse.reads_bind.mp h
  obtain ⟨o, readBehind, rfl⟩ := Parse.reads_bind_pure.mp h
  obtain ⟨cs, rfl, hcondition⟩ := (recognizes_condition _ _).mp readCondition
  obtain ⟨isOpen, us, rfl, hthen, hopen⟩ := hagain.statement readThen
  obtain ⟨keywordElse, back, rfl, hkeywordElse, elseBranch, readElse, rfl⟩ | ⟨hrest, rfl, rfl⟩ :=
    Parse.reads_behind.mp readBehind
  · -- An `else` is behind the first branch, which therefore is closed.
    obtain rfl : isOpen = false := by
      cases isOpen with
      | false => rfl
      | true => exact absurd (hopen rfl) (by simp [hkeywordElse])
    obtain ⟨isOpen, vs, rfl, helse, hopen⟩ := hagain.statement readElse
    exact ⟨isOpen, keyword :: (cs ++ (us ++ keywordElse :: vs)), by simp,
      .branchElse hkeyword hcondition hthen hkeywordElse helse, hopen⟩
  · exact ⟨true, keyword :: (cs ++ us), by simp, .branch hkeyword hcondition hthen,
      fun _ => hrest⟩

theorem spells_of_reads_whileLoop (hagain : SoundEntry again) {ts rest : List Token} {n : Node}
    (h : (whileLoop again).Reads ts n rest) {keyword : Token} (hkeyword : keyword.kind = .kwWhile) :
    ∃ isOpen us, keyword :: ts = us ++ rest ∧ Spells (.statement isOpen) [n] us ∧
      (isOpen = true → StartsOutside [.kwElse] rest) := by
  obtain ⟨condition, _, readCondition, h⟩ := Parse.reads_bind.mp h
  obtain ⟨body, readBody, rfl⟩ := Parse.reads_bind_pure.mp h
  obtain ⟨cs, rfl, hcondition⟩ := (recognizes_condition _ _).mp readCondition
  obtain ⟨isOpen, us, rfl, hbody, hopen⟩ := hagain.statement readBody
  exact ⟨isOpen, keyword :: (cs ++ us), by simp, .whileLoop hkeyword hcondition hbody, hopen⟩

theorem spells_of_reads_forLoop (hagain : SoundEntry again) {ts rest : List Token} {n : Node}
    (h : (forLoop again).Reads ts n rest) {keyword : Token} (hkeyword : keyword.kind = .kwFor) :
    ∃ isOpen us, keyword :: ts = us ++ rest ∧ Spells (.statement isOpen) [n] us ∧
      (isOpen = true → StartsOutside [.kwElse] rest) := by
  rw [forLoop, Parse.reads_expect_bind] at h
  obtain ⟨opening, _, rfl, hopening, h⟩ := h
  obtain ⟨initializer, _, readInitializer, h⟩ := Parse.reads_bind.mp h
  obtain ⟨condition, _, readCondition, h⟩ := Parse.reads_bind.mp h
  obtain ⟨increment, _, readIncrement, h⟩ := Parse.reads_bind.mp h
  obtain ⟨body, readBody, rfl⟩ := Parse.reads_bind_pure.mp h
  obtain ⟨is, rfl, hinitializer⟩ := recognizes_forInitializer.mp readInitializer
  obtain ⟨cs, rfl, hcondition⟩ := (recognizes_optionalThen (by decide) _).mp readCondition
  obtain ⟨es, rfl, hincrement⟩ := (recognizes_optionalThen (by decide) _).mp readIncrement
  obtain ⟨isOpen, us, rfl, hbody, hopen⟩ := hagain.statement readBody
  exact ⟨isOpen, keyword :: opening :: (is ++ (cs ++ (es ++ us))), by simp,
    .forLoop hkeyword hopening hinitializer hcondition hincrement hbody, hopen⟩

theorem SoundStatement.statement (hagain : SoundEntry again) :
    SoundStatement (Statement.statement bound again) := by
  intro ts rest n h
  rw [Statement.statement, Parse.reads_accept_bind] at h
  obtain ⟨t, mid, rfl, ht, h⟩ | ⟨-, h⟩ := h
  · dsimp only at h
    split at h
    case h_1 hkind => exact spells_of_reads_forLoop hagain h hkind
    case h_2 hkind => exact spells_of_reads_whileLoop hagain h hkind
    case h_3 hkind => exact spells_of_reads_branch hagain h hkind
    case h_4 hkind =>
      obtain ⟨e, readExpression, rfl⟩ := Parse.reads_bind_pure.mp h
      obtain ⟨us, rfl, hended⟩ := (recognizes_expressionThen (by decide) _).mp readExpression
      exact ⟨false, t :: us, rfl, .print hkind hended, by simp⟩
    case h_5 hkind =>
      obtain ⟨value, readValue, rfl⟩ := Parse.reads_bind_pure.mp h
      obtain ⟨us, rfl, hvalue⟩ := (recognizes_optionalThen (by decide) _).mp readValue
      exact ⟨false, t :: us, rfl, .returning hkind hvalue, by simp⟩
    case h_6 hfor hwhile hif hprint hreturn =>
      obtain ⟨ns, readBlock, rfl⟩ := Parse.reads_bind_pure.mp h
      obtain ⟨us, right, rfl, hns, hright⟩ := spells_of_reads_block hagain readBlock
      have hkind : t.kind = .leftBrace := by
        simp only [List.mem_cons, List.not_mem_nil, or_false] at ht
        grind
      exact ⟨false, t :: (us ++ [right]), by simp, .block hkind hns hright, by simp⟩
  · obtain ⟨e, readExpression, rfl⟩ := Parse.reads_bind_pure.mp h
    obtain ⟨us, rfl, hended⟩ := (recognizes_expressionThen (by decide) _).mp readExpression
    exact ⟨false, us, rfl, .expression hended, by simp⟩

theorem SoundDeclaration.strictDeclaration (hagain : SoundEntry again) :
    SoundDeclaration (Statement.strictDeclaration bound again) := by
  intro ts rest n h
  rw [Statement.strictDeclaration, Parse.reads_accept_bind] at h
  obtain ⟨t, mid, rfl, ht, h⟩ | ⟨-, h⟩ := h
  · dsimp only at h
    split at h
    · rename_i hkind
      exact SoundDeclaration.functionDeclaration hagain h hkind
    · rename_i hkind
      obtain ⟨us, rfl, hvariable⟩ := recognizes_variableDeclaration.mp h
      exact ⟨t :: us, rfl, .declared (by simpa [hkind] using ht) hvariable⟩
  · obtain ⟨isOpen, us, rfl, hspells, -⟩ := SoundStatement.statement hagain h
    exact ⟨us, rfl, .statement hspells⟩

end Sound

theorem soundEntry_readers (bound : Nat) : SoundEntry (readers bound) := by
  induction bound with
  | zero =>
    have hnone : SoundDeclaration Parse.exhausted := fun _ _ _ h => absurd h Parse.not_reads_exhausted
    exact ⟨⟨Parse.exhausted, rfl, Parse.Reporting.handedOn.exhausted true, hnone⟩,
      fun _ _ _ h => absurd h Parse.not_reads_exhausted⟩
  | succ bound ih =>
    have hreporting := Parse.Reporting.handedOn.strictDeclaration
      (Parse.Reporting.handedOn.readers bound)
    exact ⟨⟨_, rfl, hreporting, .strictDeclaration ih⟩, SoundStatement.statement ih⟩

/-- A program that is read without a report is a list of phrases in front of an end of input. -/
theorem spells_of_reads {ts rest : List Token} {ns : List Node}
    (h : Parse.program.Reads ts ns rest) :
    ∃ us, ts = us ++ rest ∧ Spells .declarations ns us ∧ StartsIn [.endOfInput] rest := by
  have hsound : SoundDeclaration Parse.strictDeclaration := by
    intro us back n hread
    exact SoundDeclaration.strictDeclaration (soundEntry_readers us.length) hread
  have readDeclarations : (Parse.upTo [.endOfInput] Parse.strictDeclaration.recovering
      (ts.length + 1)).Reads ts ns rest := h
  exact spells_of_reads_upTo Parse.Reporting.strictDeclaration hsound readDeclarations

end Statement

end Lox
