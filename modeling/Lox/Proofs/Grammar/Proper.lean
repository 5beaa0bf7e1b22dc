import Lox.Grammar
import Lox.Node.Rendering
import Lox.Token.Piece.Lossless
import Mathlib.Tactic.SplitIfs

/-!
# What is read is made of what can be executed

A tree that is built by other means may hold a statement in the place of an expression, an operator
that is none, or a literal of a kind that there are no values of. What the grammar reads holds no
such thing, whatever was reported about the text: a declaration with a syntax error is dropped as
a whole, and what is kept after an error that does not stop the reading is a proper tree.

For each of the steps that productions are made of it is said here what its values are like, if the
tokens are like those of a scanned text; each production is then a short step.

## Main definitions

* `Node.ProperExpression`, `Node.ProperStatement`: trees that can be evaluated and executed.
* `Parse.Ensures`: what the values of a reader are like.

## Main results

* `Program.proper_ofText`, `Fragment.proper_ofText`: what is read from a text is proper.
* `Rendering.exists_program_eq`: a proper program can be shown in all ways.
-/

namespace Lox

/-- Literals that can be written in a text: they have a value, and it is not the outcome of some
computation. -/
def Literal.IsWritten : Literal → Prop
  | .unsupported _ => False
  | .number n => n.origin = .plain
  | _ => True

namespace Kind

/-- The operators of one operand. -/
def unaryOperators : List Kind := [.bang, .minus]

/-- The operators of two operands that are both evaluated. -/
def binaryOperators : List Kind :=
  [.bangEqual, .equalEqual, .greater, .greaterEqual, .less, .lessEqual, .minus, .plus, .slash,
    .star]

end Kind

namespace Node

/-- Trees that can be evaluated. -/
inductive ProperExpression : Node → Prop
  | literal {l : Literal} : l.IsWritten → ProperExpression (.literal l)
  | grouping {n : Node} : ProperExpression n → ProperExpression (.grouping n)
  | unary {op : Token} {n : Node} :
      op.kind ∈ Kind.unaryOperators → ProperExpression n → ProperExpression (.unary op n)
  | binary {l r : Node} {op : Token} :
      ProperExpression l → op.kind ∈ Kind.binaryOperators → ProperExpression r →
      ProperExpression (.binary l op r)
  | logical {l r : Node} (op : Token) :
      ProperExpression l → ProperExpression r → ProperExpression (.logical l op r)
  | ternary {c t e : Node} (question : Token) :
      ProperExpression c → ProperExpression t → ProperExpression e →
      ProperExpression (.ternary c question t e)
  | reference (name : Token) : ProperExpression (.reference name)
  | assign (name : Token) {n : Node} : ProperExpression n → ProperExpression (.assign name n)
  | call {c : Node} (paren : Token) {ns : List Node} :
      ProperExpression c → (∀ n ∈ ns, ProperExpression n) → ProperExpression (.call c paren ns)

/-- Trees that can be executed. -/
inductive ProperStatement : Node → Prop
  | expression {n : Node} : n.ProperExpression → ProperStatement (.expression n)
  | print {n : Node} : n.ProperExpression → ProperStatement (.print n)
  | declare (name : Token) {n : Option Node} :
      (∀ e ∈ n, ProperExpression e) → ProperStatement (.declare name n)
  | block {ns : List Node} : (∀ n ∈ ns, ProperStatement n) → ProperStatement (.block ns)
  | branch {c t : Node} {e : Option Node} :
      c.ProperExpression → ProperStatement t → (∀ n ∈ e, ProperStatement n) →
      ProperStatement (.branch c t e)
  | loop {c n : Node} : c.ProperExpression → ProperStatement n → ProperStatement (.loop c n)
  | function (name : Token) (params : List Token) {body : List Node} :
      (∀ n ∈ body, ProperStatement n) → ProperStatement (.function name params body)
  | returning (keyword : Token) {n : Option Node} :
      (∀ e ∈ n, ProperExpression e) → ProperStatement (.returning keyword n)

end Node

/-! ### What the values of readers are like -/

/-- An answer whose value, if there is one, has a property, and that leaves tokens of some sort. -/
inductive Parsed.Ensures {α : Type} (T : Token → Prop) (Q : α → Prop) : Parsed α → Prop
  | done {a : α} {reports : List SyntaxReport} {rest : List Token} :
      Q a → (∀ t ∈ rest, T t) → Ensures T Q (.done a reports rest)
  | stopped {why : Stop} {reports : List SyntaxReport} {rest : List Token} :
      (∀ t ∈ rest, T t) → Ensures T Q (.stopped why reports rest)

theorem Parsed.Ensures.of_value? {α : Type} {T : Token → Prop} {Q : α → Prop} {r : Parsed α}
    (h : r.Ensures T Q) : ∀ a ∈ r.value?, Q a := by
  cases h with
  | done ha _ =>
    rintro _ ⟨⟩
    exact ha
  | stopped _ => exact fun _ h => nomatch h

/-- A reader whose values have a property if the tokens are of some sort. -/
def Parse.Ensures {α : Type} (T : Token → Prop) (Q : α → Prop) (p : Parse α) : Prop :=
  ∀ ts, (∀ t ∈ ts, T t) → (p ts).Ensures T Q

namespace Parse

variable {α β : Type} {T : Token → Prop} {Q : α → Prop} {Q' : β → Prop} {p : Parse α}

namespace Ensures

theorem pure {a : α} (ha : Q a) : (Pure.pure a : Parse α).Ensures T Q :=
  fun _ hts => .done ha hts

theorem exhausted : (Parse.exhausted : Parse α).Ensures T Q := fun _ hts => .stopped hts

theorem bind {f : α → Parse β} (hp : p.Ensures T Q) (hf : ∀ a, Q a → (f a).Ensures T Q') :
    (p >>= f).Ensures T Q' := by
  intro ts hts
  have hparsed := hp ts hts
  rw [bind_apply]
  cases hpts : p ts with
  | done a reports rest =>
    rw [hpts] at hparsed
    cases hparsed with
    | done ha hrest =>
      have hnext := hf a ha rest hrest
      dsimp only
      cases hfa : f a rest with
      | done b reports' rest' =>
        rw [hfa] at hnext
        cases hnext with
        | done hb hrest' => exact .done hb hrest'
      | stopped why reports' rest' =>
        rw [hfa] at hnext
        cases hnext with
        | stopped hrest' => exact .stopped hrest'
  | stopped why reports rest =>
    rw [hpts] at hparsed
    cases hparsed with
    | stopped hrest => exact .stopped hrest

theorem map {f : α → β} (hp : p.Ensures T Q) (hf : ∀ a, Q a → Q' (f a)) :
    (f <$> p).Ensures T Q' := by
  rw [map_eq_pure_bind]
  exact hp.bind fun a ha => .pure (hf a ha)

/-! ### The steps of productions -/

theorem peek : Parse.peek.Ensures T fun _ => True := by
  rintro (_ | ⟨t, ts⟩) hts
  · exact .stopped hts
  · exact .done trivial hts

theorem check (kinds : List Kind) : (Parse.check kinds).Ensures T fun _ => True := by
  rintro (_ | ⟨t, ts⟩) hts
  · exact .stopped hts
  · exact .done trivial hts

theorem accept (kinds : List Kind) :
    (Parse.accept kinds).Ensures T fun o => ∀ t ∈ o, t.kind ∈ kinds ∧ T t := by
  rintro (_ | ⟨t, ts⟩) hts
  · exact .stopped hts
  · obtain ⟨ht, hrest⟩ := List.forall_mem_cons.mp hts
    rw [Parse.accept]
    split
    · rename_i hkind
      refine .done ?_ hrest
      rintro _ ⟨⟩
      exact ⟨List.contains_iff_mem.mp hkind, ht⟩
    · exact .done (fun _ h => by cases h) hts

theorem note (t : Token) (problem : SyntaxProblem) :
    (Parse.note t problem).Ensures T fun _ => True :=
  fun _ hts => .done trivial hts

theorem reject (problem : SyntaxProblem) : (Parse.reject problem : Parse α).Ensures T Q := by
  rintro (_ | ⟨t, ts⟩) hts
  · exact .stopped hts
  · exact .stopped hts

theorem expect (kind : Kind) (problem : SyntaxProblem) :
    (Parse.expect kind problem).Ensures T fun _ => True := by
  rintro (_ | ⟨t, ts⟩) hts
  · exact .stopped hts
  · rw [Parse.expect]
    split
    · exact .done trivial (List.forall_mem_cons.mp hts).2
    · exact .stopped hts

theorem behind (kind : Kind) (hp : p.Ensures T Q) :
    (p.behind kind).Ensures T fun o => ∀ a ∈ o, Q a := by
  refine (accept [kind]).bind fun o _ => ?_
  split
  · exact .pure (fun _ h => nomatch h)
  · exact hp.map fun a ha => by rintro _ ⟨⟩; exact ha

theorem unlessAt (kind : Kind) (hp : p.Ensures T Q) :
    (p.unlessAt kind).Ensures T fun o => ∀ a ∈ o, Q a := by
  refine (check [kind]).bind fun b _ => ?_
  split
  · exact .pure (fun _ h => nomatch h)
  · exact hp.map fun a ha => by rintro _ ⟨⟩; exact ha

theorem noteSurplus (count : Nat) (surplus : SyntaxProblem) :
    (Parse.noteSurplus count surplus).Ensures T fun _ => True := by
  rw [Parse.noteSurplus]
  split
  · exact peek.bind fun _ _ => note _ _
  · exact .pure trivial

/-- What joins two operands keeps the property. -/
theorem chain {Q : Node → Prop} {operators : List Kind} {join : Node → Token → Node → Node}
    {operand : Parse Node} (hoperand : operand.Ensures T Q)
    (hjoin : ∀ l op r, Q l → op.kind ∈ operators → Q r → Q (join l op r)) (bound : Nat)
    {left : Node} (hleft : Q left) :
    (Parse.chain operators join operand bound left).Ensures T Q := by
  induction bound generalizing left with
  | zero => exact exhausted
  | succ bound ih =>
    refine (accept operators).bind fun o ho => ?_
    split
    · exact .pure hleft
    · rename_i op
      exact hoperand.bind fun right hright => ih (hjoin _ _ _ hleft (ho op rfl).1 hright)

theorem entries (hp : p.Ensures T Q) (surplus : SyntaxProblem) (bound count : Nat) :
    (Parse.entries p surplus bound count).Ensures T fun as => ∀ a ∈ as, Q a := by
  induction bound generalizing count with
  | zero => exact exhausted
  | succ bound ih =>
    refine (noteSurplus _ _).bind fun _ _ => hp.bind fun first hfirst => ?_
    refine (accept _).bind fun o _ => ?_
    split
    · exact .pure (List.forall_mem_singleton.mpr hfirst)
    · exact (ih _).bind fun others hothers =>
        .pure (List.forall_mem_cons.mpr ⟨hfirst, hothers⟩)

theorem entriesUnlessAt (kind : Kind) (hp : p.Ensures T Q) (surplus : SyntaxProblem)
    (bound : Nat) :
    (Parse.entriesUnlessAt kind p surplus bound).Ensures T fun as => ∀ a ∈ as, Q a := by
  refine (check _).bind fun b _ => ?_
  split
  · exact .pure (List.forall_mem_nil _)
  · exact hp.entries surplus bound 0

theorem upTo (closers : List Kind) {entry : Parse (Option α)}
    (hentry : entry.Ensures T fun o => ∀ a ∈ o, Q a) (bound : Nat) :
    (Parse.upTo closers entry bound).Ensures T fun as => ∀ a ∈ as, Q a := by
  induction bound with
  | zero => exact exhausted
  | succ bound ih =>
    refine (check _).bind fun b _ => ?_
    split
    · exact .pure (List.forall_mem_nil _)
    · refine hentry.bind fun first hfirst => ih.bind fun others hothers => .pure ?_
      simpa [or_imp, forall_and] using ⟨hfirst, hothers⟩

/-- What is given up has no value. -/
theorem recovering (hp : p.Ensures T Q) : p.recovering.Ensures T fun o => ∀ a ∈ o, Q a := by
  intro ts hts
  have hparsed := hp ts hts
  cases hpts : p ts with
  | done a reports rest =>
    rw [hpts] at hparsed
    rw [recovering_of_done hpts]
    cases hparsed with
    | done ha hrest =>
      refine .done ?_ hrest
      rintro _ ⟨⟩
      exact ha
  | stopped why reports rest =>
    rw [hpts] at hparsed
    cases hparsed with
    | stopped hrest =>
      by_cases hwhy : ∃ report, why = .rejected report
      · obtain ⟨report, rfl⟩ := hwhy
        cases hresume : resume? rest with
        | none =>
          rw [recovering_of_not_resumed hpts hresume]
          exact .stopped (List.forall_mem_nil _)
        | some rest' =>
          rw [recovering_of_rejected hpts hresume]
          have hsub := (suffix_of_resume? hresume).subset
          exact .done (fun _ h => nomatch h) fun t ht => hrest t (hsub ht)
      · rw [recovering_of_stopped hpts fun report h => hwhy ⟨report, h⟩]
        exact .stopped hrest

theorem byLength {q : Nat → Parse α} (hq : ∀ n, (q n).Ensures T Q) :
    Parse.Ensures T Q fun ts => q ts.length ts :=
  fun ts hts => hq ts.length ts hts

end Ensures

end Parse

/-! ### Expressions -/

namespace Expression

open Node (ProperExpression)

variable {T : Token → Prop} {bound : Nat} {again : Entry → Parse Node}

/-- The operators of a tier join proper expressions to a proper one. -/
theorem proper_join {operators : List Kind} {join : Node → Token → Node → Node}
    (hlevel : (operators, join) ∈ tiers) {l r : Node} {op : Token} (hl : l.ProperExpression)
    (hop : op.kind ∈ operators) (hr : r.ProperExpression) : (join l op r).ProperExpression := by
  simp only [tiers, List.mem_cons, Prod.mk.injEq, List.not_mem_nil, or_false] at hlevel
  obtain ⟨rfl, rfl⟩ | ⟨rfl, rfl⟩ | ⟨rfl, rfl⟩ | ⟨rfl, rfl⟩ | ⟨rfl, rfl⟩ | ⟨rfl, rfl⟩ := hlevel
  · exact .logical op hl hr
  · exact .logical op hl hr
  all_goals
    refine .binary hl ?_ hr
    revert hop
    generalize op.kind = kind
    revert kind
    decide

theorem ensures_tier {operand : Parse Node} (hoperand : operand.Ensures T ProperExpression)
    (level : List (List Kind × (Node → Token → Node → Node))) (hlevel : level ⊆ tiers) :
    (tier bound operand level).Ensures T ProperExpression := by
  induction level with
  | nil => exact hoperand
  | cons t tighter ih =>
    obtain ⟨operators, join⟩ := t
    have htighter := ih fun t ht => hlevel (.tail _ ht)
    refine htighter.bind fun left hleft => htighter.chain ?_ bound hleft
    exact fun l op r hl hop hr => proper_join (hlevel (.head _)) hl hop hr

variable (hT : ∀ t, T t → t.literal.IsWritten)
variable (hagain : ∀ entry, (again entry).Ensures T ProperExpression)

include hagain

theorem ensures_arguments :
    (arguments bound again).Ensures T fun ns => ∀ n ∈ ns, n.ProperExpression :=
  (hagain _).entriesUnlessAt _ _ _

include hT in
theorem ensures_primary : (primary again).Ensures T ProperExpression := by
  refine (Parse.Ensures.accept _).bind fun o ho => ?_
  split
  · exact .reject _
  · rename_i t
    split
    · exact .pure (.literal trivial)
    · exact .pure (.literal trivial)
    · exact .pure (.literal trivial)
    · exact .pure (.reference t)
    · exact (hagain _).bind fun inner hinner =>
        (Parse.Ensures.expect _ _).bind fun _ _ => .pure (.grouping hinner)
    · exact .pure (.literal (hT t (ho t rfl).2))

theorem ensures_calls (steps : Nat) {callee : Node} (hcallee : callee.ProperExpression) :
    (calls bound again steps callee).Ensures T ProperExpression := by
  induction steps generalizing callee with
  | zero => exact .exhausted
  | succ steps ih =>
    refine (Parse.Ensures.accept _).bind fun o _ => ?_
    split
    · exact .pure hcallee
    · refine (ensures_arguments hagain).bind fun entries hentries => ?_
      exact (Parse.Ensures.expect _ _).bind fun paren _ => ih (.call paren hcallee hentries)

include hT in
theorem ensures_unary : (unary bound again).Ensures T ProperExpression := by
  refine (Parse.Ensures.accept _).bind fun o ho => ?_
  split
  · rename_i operator
    exact (hagain _).bind fun operand hoperand => .pure (.unary (ho operator rfl).1 hoperand)
  · exact (ensures_primary hT hagain).bind fun callee hcallee => ensures_calls hagain _ hcallee

include hT in
theorem ensures_ternary : (ternary bound again).Ensures T ProperExpression := by
  have hcondition : (tier bound (unary bound again) tiers).Ensures T ProperExpression :=
    ensures_tier (ensures_unary hT hagain) tiers fun _ h => h
  refine hcondition.bind fun condition hcondition => ?_
  refine (Parse.Ensures.accept _).bind fun o _ => ?_
  split
  · exact .pure hcondition
  · rename_i question _
    refine (hagain _).bind fun thenBranch hthen => (Parse.Ensures.expect _ _).bind fun _ _ => ?_
    exact (hagain _).bind fun elseBranch helse => .pure (.ternary question hcondition hthen helse)

include hT in
/-- Where the left side is no variable, it is kept alone; it is proper all the same. -/
theorem ensures_assignment : (assignment bound again).Ensures T ProperExpression := by
  refine (ensures_ternary hT hagain).bind fun target htarget => ?_
  refine (Parse.Ensures.accept _).bind fun o _ => ?_
  split
  · exact .pure htarget
  · refine (hagain _).bind fun value hvalue => ?_
    split
    · rename_i name
      exact .pure (.assign name hvalue)
    · exact (Parse.Ensures.note _ _).bind fun _ _ => .pure htarget

omit hagain in
include hT in
theorem ensures_read (bound : Nat) (entry : Entry) :
    (read bound entry).Ensures T ProperExpression := by
  induction bound generalizing entry with
  | zero => exact .exhausted
  | succ bound ih =>
    cases entry with
    | assignment => exact ensures_assignment hT ih
    | ternary => exact ensures_ternary hT ih
    | unary => exact ensures_unary hT ih

end Expression

section

variable {T : Token → Prop} (hT : ∀ t, T t → t.literal.IsWritten)

include hT

theorem Parse.ensures_expression : Parse.expression.Ensures T Node.ProperExpression :=
  .byLength (q := fun n => Expression.read (n + 1) .assignment) fun n =>
    Expression.ensures_read hT (n + 1) .assignment

/-! ### Statements -/

namespace Statement

open Node (ProperExpression ProperStatement)

theorem ensures_expressionThen (kind : Kind) (problem : SyntaxProblem) :
    (expressionThen kind problem).Ensures T ProperExpression :=
  (Parse.ensures_expression hT).bind fun _ he =>
    (Parse.Ensures.expect _ _).bind fun _ _ => .pure he

theorem ensures_optionalThen (kind : Kind) (problem : SyntaxProblem) :
    (optionalThen kind problem).Ensures T fun o => ∀ e ∈ o, ProperExpression e :=
  ((Parse.ensures_expression hT).unlessAt kind).bind fun _ ho =>
    (Parse.Ensures.expect _ _).bind fun _ _ => .pure ho

theorem ensures_condition (opening closing : SyntaxProblem) :
    (condition opening closing).Ensures T ProperExpression :=
  (Parse.Ensures.expect _ _).bind fun _ _ => ensures_expressionThen hT _ _

theorem ensures_variableDeclaration : variableDeclaration.Ensures T ProperStatement :=
  (Parse.Ensures.expect _ _).bind fun name _ =>
    ((Parse.ensures_expression hT).behind .equal).bind fun _ hinitializer =>
      (Parse.Ensures.expect _ _).bind fun _ _ => .pure (.declare name hinitializer)

theorem ensures_expressionStatement : expressionStatement.Ensures T ProperStatement :=
  (ensures_expressionThen hT _ _).bind fun _ he => .pure (.expression he)

theorem ensures_forInitializer :
    forInitializer.Ensures T fun o => ∀ n ∈ o, ProperStatement n := by
  have hsome (n : Node) (hn : n.ProperStatement) : ∀ n' ∈ some n, n'.ProperStatement := by
    rintro _ ⟨⟩
    exact hn
  refine (Parse.Ensures.accept _).bind fun o _ => ?_
  split
  · exact (ensures_expressionStatement hT).map hsome
  · split
    · exact .pure (fun _ h => nomatch h)
    · exact (ensures_variableDeclaration hT).map hsome

omit hT in
/-- What loops, blocks and expressions keep holds of the `while` loop that a `for` loop stands for.
Without a condition it goes on for ever. -/
theorem desugarFor_induction {E S : Node → Prop} (htrue : E (.literal (.bool true)))
    (hexpression : ∀ e, E e → S (.expression e))
    (hblock : ∀ ns, (∀ n ∈ ns, S n) → S (.block ns))
    (hloop : ∀ c n, E c → S n → S (.loop c n)) {initializer condition increment : Option Node}
    {body : Node} (hinitializer : ∀ n ∈ initializer, S n) (hcondition : ∀ e ∈ condition, E e)
    (hincrement : ∀ e ∈ increment, E e) (hbody : S body) :
    S (desugarFor initializer condition increment body) := by
  have hholds : E (condition.getD (.literal (.bool true))) := by
    cases condition with
    | none => exact htrue
    | some e => exact hcondition e rfl
  have hincremented (e : Node) (he : e ∈ increment) : S (.block [body, .expression e]) :=
    hblock _ (by simpa using ⟨hbody, hexpression e (hincrement e he)⟩)
  have hinitialized (i repeated : Node) (hi : i ∈ initializer) (h : S repeated) :
      S (.block [i, repeated]) := hblock _ (by simpa using ⟨hinitializer i hi, h⟩)
  cases increment with
  | none =>
    cases initializer with
    | none => exact hloop _ _ hholds hbody
    | some i => exact hinitialized i _ rfl (hloop _ _ hholds hbody)
  | some e =>
    cases initializer with
    | none => exact hloop _ _ hholds (hincremented e rfl)
    | some i => exact hinitialized i _ rfl (hloop _ _ hholds (hincremented e rfl))

omit hT in
/-- A `for` loop stands for a proper `while` loop. -/
theorem proper_desugarFor {initializer condition increment : Option Node} {body : Node}
    (hinitializer : ∀ n ∈ initializer, ProperStatement n)
    (hcondition : ∀ e ∈ condition, ProperExpression e)
    (hincrement : ∀ e ∈ increment, ProperExpression e) (hbody : body.ProperStatement) :
    (desugarFor initializer condition increment body).ProperStatement :=
  desugarFor_induction (.literal trivial) (fun _ => .expression) (fun _ => .block)
    (fun _ _ => .loop) hinitializer hcondition hincrement hbody

/-- The readers that productions start again have proper values only. -/
structure EnsuresProper (T : Token → Prop) (again : Entry) : Prop where
  declaration : again.declaration.Ensures T fun o => ∀ n ∈ o, ProperStatement n
  statement : again.statement.Ensures T ProperStatement

variable {bound : Nat} {again : Entry} (hagain : EnsuresProper T again)

include hagain

omit hT in
theorem ensures_block :
    (block bound again).Ensures T fun ns => ∀ n ∈ ns, ProperStatement n :=
  (hagain.declaration.upTo _ bound).bind fun _ hstatements =>
    (Parse.Ensures.expect _ _).bind fun _ _ => .pure hstatements

omit hT in
theorem ensures_functionDeclaration :
    (functionDeclaration bound again).Ensures T ProperStatement := by
  refine (Parse.Ensures.expect _ _).bind fun name _ => ?_
  refine (Parse.Ensures.expect _ _).bind fun _ _ => ?_
  refine ((Parse.Ensures.expect _ _).entriesUnlessAt _ _ _).bind fun params _ => ?_
  refine (Parse.Ensures.expect _ _).bind fun _ _ => ?_
  refine (Parse.Ensures.expect _ _).bind fun _ _ => ?_
  exact (ensures_block hagain).bind fun body hbody => .pure (.function name params hbody)

theorem ensures_forLoop : (forLoop again).Ensures T ProperStatement := by
  refine (Parse.Ensures.expect _ _).bind fun _ _ => ?_
  refine (ensures_forInitializer hT).bind fun initializer hinitializer => ?_
  refine (ensures_optionalThen hT _ _).bind fun condition hcondition => ?_
  refine (ensures_optionalThen hT _ _).bind fun increment hincrement => ?_
  exact hagain.statement.bind fun body hbody =>
    .pure (proper_desugarFor hinitializer hcondition hincrement hbody)

theorem ensures_branch : (branch again).Ensures T ProperStatement := by
  refine (ensures_condition hT _ _).bind fun condition hcondition => ?_
  refine hagain.statement.bind fun thenBranch hthen => ?_
  exact (hagain.statement.behind _).bind fun elseBranch helse =>
    .pure (.branch hcondition hthen helse)

theorem ensures_whileLoop : (whileLoop again).Ensures T ProperStatement :=
  (ensures_condition hT _ _).bind fun _ hcondition =>
    hagain.statement.bind fun _ hbody => .pure (.loop hcondition hbody)

theorem ensures_statement : (statement bound again).Ensures T ProperStatement := by
  refine (Parse.Ensures.accept _).bind fun o _ => ?_
  split
  · exact ensures_expressionStatement hT
  · rename_i t _
    split
    · exact ensures_forLoop hT hagain
    · exact ensures_whileLoop hT hagain
    · exact ensures_branch hT hagain
    · exact (ensures_expressionThen hT _ _).bind fun e he => .pure (.print he)
    · exact (ensures_optionalThen hT _ _).bind fun e he => .pure (.returning t he)
    · exact (ensures_block hagain).bind fun ns hns => .pure (.block hns)

theorem ensures_declaration :
    (declaration bound again).Ensures T fun o => ∀ n ∈ o, ProperStatement n := by
  refine Parse.Ensures.recovering ?_
  refine (Parse.Ensures.accept _).bind fun o _ => ?_
  split
  · exact ensures_statement hT hagain
  · split
    · exact ensures_functionDeclaration hagain
    · exact ensures_variableDeclaration hT

omit hagain in
theorem ensures_readers (bound : Nat) : EnsuresProper T (readers bound) := by
  induction bound with
  | zero => exact ⟨.exhausted, .exhausted⟩
  | succ bound ih => exact ⟨ensures_declaration hT ih, ensures_statement hT ih⟩

end Statement

/-! ### Programs -/

theorem Parse.ensures_program :
    Parse.program.Ensures T fun ns => ∀ n ∈ ns, Node.ProperStatement n := by
  have hdeclaration : Parse.declaration.Ensures T fun o => ∀ n ∈ o, Node.ProperStatement n :=
    .byLength (q := fun n => (Statement.readers (n + 1)).declaration) fun n =>
      (Statement.ensures_readers hT (n + 1)).declaration
  exact .byLength (q := fun n => Parse.upTo [.endOfInput] Parse.declaration (n + 1)) fun n =>
    hdeclaration.upTo _ (n + 1)

theorem Parse.ensures_onlyExpression :
    Parse.onlyExpression.Ensures T Node.ProperExpression := by
  refine (Parse.ensures_expression hT).bind fun e he => ?_
  refine (Parse.Ensures.check _).bind fun b _ => ?_
  split
  · exact .pure he
  · exact .reject _

end

/-! ### Scanned texts -/

namespace Piece

/-- The literals of tokens can be written. -/
def IsWritten : Piece → Prop
  | token _ _ literal => literal.IsWritten
  | _ => True

theorem isWritten_numberNext (cs : List Char) : (numberNext cs).1.IsWritten := by
  rw [numberNext]
  split
  · split
    · exact rfl
    · exact rfl
  · exact rfl

theorem isWritten_stringNext (cs : List Char) : (stringNext cs).1.IsWritten := by
  rw [stringNext]
  split
  · trivial
  · trivial

theorem isWritten_next (c : Char) (cs : List Char) : (next c cs).1.IsWritten := by
  unfold next
  split_ifs
  · trivial
  · trivial
  · split <;> trivial
  · exact isWritten_stringNext cs
  · exact isWritten_numberNext (c :: cs)
  · trivial
  · split <;> trivial

theorem isWritten_of_mem_splitWithin {size : Nat} {cs : List Char} {p : Piece}
    (hp : p ∈ splitWithin size cs) : p.IsWritten := by
  obtain ⟨c, rest, -, rfl⟩ := exists_next_of_mem_splitWithin hp
  exact isWritten_next c rest

theorem isWritten_of_mem_tokensFrom {line : Int} {ps : List Piece}
    (hps : ∀ p ∈ ps, p.IsWritten) : ∀ t ∈ tokensFrom line ps, t.literal.IsWritten := by
  induction ps generalizing line with
  | nil => exact List.forall_mem_singleton.mpr trivial
  | cons p ps ih =>
    obtain ⟨hp, hrest⟩ := List.forall_mem_cons.mp hps
    cases p with
    | token kind lexeme literal => exact List.forall_mem_cons.mpr ⟨hp, ih hrest⟩
    | _ => exact ih hrest

end Piece

theorem Scan.isWritten_of_mem_tokens {source : String} {t : Token}
    (ht : t ∈ (Scan.ofText source).tokens) : t.literal.IsWritten :=
  Piece.isWritten_of_mem_tokensFrom (fun _ => Piece.isWritten_of_mem_splitWithin) t ht

/-- What is read from a text can be executed, whatever was reported. -/
theorem Program.proper_ofText (source : String) :
    ∀ n ∈ (Program.ofText source).statements, n.ProperStatement := by
  have hparsed := Parse.ensures_program (fun _ ht => ht) (Scan.ofText source).tokens
    fun _ => Scan.isWritten_of_mem_tokens
  change ∀ n ∈ (Parse.program (Scan.ofText source).tokens).value?.getD [], n.ProperStatement
  cases hvalue : (Parse.program (Scan.ofText source).tokens).value? with
  | none => exact fun _ h => nomatch h
  | some ns => exact hparsed.of_value? ns hvalue

theorem Fragment.proper_ofText {text : String} {e : Node}
    (he : (Fragment.ofText text).expression = some e) : e.ProperExpression :=
  (Parse.ensures_onlyExpression (fun _ ht => ht) (Scan.ofText text).tokens
    fun _ => Scan.isWritten_of_mem_tokens).of_value? e he

/-! ### Renderings -/

namespace Node

theorem exists_outlines_eq {ns : List Node} (h : ∀ n ∈ ns, ∃ o, n.outline = .ok o) :
    ∃ os, outlines ns = .ok os := by
  induction ns with
  | nil => exact ⟨[], rfl⟩
  | cons n ns ih =>
    obtain ⟨hn, hns⟩ := List.forall_mem_cons.mp h
    obtain ⟨o, ho⟩ := hn
    obtain ⟨os, hos⟩ := ih hns
    refine ⟨o :: os, ?_⟩
    rw [outlines, ho, hos]
    rfl

theorem ProperExpression.exists_outline_eq {n : Node} (h : n.ProperExpression) :
    ∃ o, n.outline = .ok o := by
  induction h with
  | literal _ => exact ⟨_, rfl⟩
  | grouping _ ih =>
    obtain ⟨o, ho⟩ := ih
    exact ⟨_, by rw [outline, ho]; rfl⟩
  | unary _ _ ih =>
    obtain ⟨o, ho⟩ := ih
    exact ⟨_, by rw [outline, ho]; rfl⟩
  | binary _ _ _ ihl ihr | logical _ _ _ ihl ihr =>
    obtain ⟨ol, hl⟩ := ihl
    obtain ⟨or, hr⟩ := ihr
    exact ⟨_, by rw [outline, hl, hr]; rfl⟩
  | ternary _ _ _ _ ihc iht ihe =>
    obtain ⟨oc, hc⟩ := ihc
    obtain ⟨ot, ht⟩ := iht
    obtain ⟨oe, he⟩ := ihe
    exact ⟨_, by rw [outline, hc, ht, he]; rfl⟩
  | reference _ => exact ⟨_, rfl⟩
  | assign _ _ ih =>
    obtain ⟨o, ho⟩ := ih
    exact ⟨_, by rw [outline, ho]; rfl⟩
  | call _ _ _ ihc ihs =>
    obtain ⟨oc, hc⟩ := ihc
    obtain ⟨os, hs⟩ := exists_outlines_eq ihs
    exact ⟨_, by rw [outline, hc, hs]; rfl⟩

theorem ProperStatement.exists_outline_eq {n : Node} (h : n.ProperStatement) :
    ∃ o, n.outline = .ok o := by
  induction h with
  | expression hn | print hn =>
    obtain ⟨o, ho⟩ := hn.exists_outline_eq
    exact ⟨_, by rw [outline, ho]; rfl⟩
  | @declare name n hn =>
    cases n with
    | none => exact ⟨_, rfl⟩
    | some e =>
      obtain ⟨o, ho⟩ := (hn e rfl).exists_outline_eq
      exact ⟨_, by rw [outline, ho]; rfl⟩
  | block _ ih =>
    obtain ⟨os, hs⟩ := exists_outlines_eq ih
    exact ⟨_, by rw [outline, hs]; rfl⟩
  | @branch c t e hc _ _ iht ihe =>
    obtain ⟨oc, hoc⟩ := hc.exists_outline_eq
    obtain ⟨ot, hot⟩ := iht
    cases e with
    | none => exact ⟨_, by rw [outline, hoc, hot]; rfl⟩
    | some e =>
      obtain ⟨oe, hoe⟩ := ihe e rfl
      exact ⟨_, by rw [outline, hoc, hot, hoe]; rfl⟩
  | loop hc _ ih =>
    obtain ⟨oc, hoc⟩ := hc.exists_outline_eq
    obtain ⟨o, ho⟩ := ih
    exact ⟨_, by rw [outline, hoc, ho]; rfl⟩
  | function _ _ _ ih =>
    obtain ⟨os, hs⟩ := exists_outlines_eq ih
    exact ⟨_, by rw [outline, hs]; rfl⟩
  | @returning keyword n hn =>
    cases n with
    | none => exact ⟨_, rfl⟩
    | some e =>
      obtain ⟨o, ho⟩ := (hn e rfl).exists_outline_eq
      exact ⟨_, by rw [outline, ho]; rfl⟩

end Node

/-- A proper program can be shown in all ways. -/
theorem Rendering.exists_program_eq {ns : List Node} (h : ∀ n ∈ ns, n.ProperStatement)
    (r : Rendering) : ∃ text, r.program ns = .ok text := by
  obtain ⟨os, hos⟩ := Node.exists_outlines_eq fun n hn => (h n hn).exists_outline_eq
  exact ⟨_, by rw [Rendering.program, hos]; rfl⟩

end Lox
