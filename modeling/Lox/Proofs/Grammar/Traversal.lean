import Lox.Grammar

/-!
# Properties of all readers

A property of readers holds of every production if the steps of productions have it and their
combinations hand it on. The walk through the productions is made once, with a bound on the
number of tokens and with the record of which readers take a token before they give a value:
behind such a reader the bound is smaller, which is what the recursion on the bound needs.

## Main definitions

* `Parse.strictDeclaration`: a declaration that is not given up.
* `Parse.HandedOn`: a property which the combinations of readers hand on.

## Main results

* `Parse.HandedOn.expression`, `Parse.HandedOn.program`: what is handed on reaches every reader.
-/

namespace Lox

namespace Parse

/-- Reads a declaration and stops at a syntax error. -/
def strictDeclaration : Parse Node := fun ts =>
  Statement.strictDeclaration (ts.length + 1) (Statement.readers ts.length) ts

/-- A property of readers which combinations of readers hand on. It is relative to a bound on
the number of tokens and to whether the reader takes a token before it gives a value. -/
structure HandedOn (P : ∀ {α : Type}, (bound : Nat) → (strict : Bool) → Parse α → Prop) :
    Prop where
  weaken {α : Type} {p : Parse α} {bound bound' : Nat} {strict : Bool} :
    P bound strict p → bound' ≤ bound → P bound' strict p
  lax {α : Type} {p : Parse α} {bound : Nat} {strict : Bool} :
    P bound strict p → P bound false p
  pure {α : Type} (bound : Nat) (a : α) : P bound false (pure a : Parse α)
  exhausted {α : Type} (strict : Bool) : P 0 strict (exhausted : Parse α)
  peek (bound : Nat) : P bound false peek
  check (bound : Nat) (kinds : List Kind) : P bound false (check kinds)
  note (bound : Nat) (t : Token) (problem : SyntaxProblem) : P bound false (note t problem)
  reject {α : Type} (bound : Nat) (strict : Bool) (problem : SyntaxProblem) :
    P bound strict (reject problem : Parse α)
  expect {kind : Kind} (bound : Nat) (problem : SyntaxProblem) :
    kind ≠ .endOfInput → P bound true (expect kind problem)
  bind {α β : Type} {p : Parse α} {f : α → Parse β} {bound : Nat} {strict : Bool} :
    P bound false p → (∀ a, P bound strict (f a)) → P bound strict (p >>= f)
  andThen {α β : Type} {p : Parse α} {f : α → Parse β} {bound : Nat} :
    P bound true p → (∀ a, P (bound - 1) false (f a)) → P bound true (p >>= f)
  acceptOr {β : Type} {kinds : List Kind} {f : Option Token → Parse β} {bound : Nat}
    {strict : Bool} :
    .endOfInput ∉ kinds → P bound strict (f none) →
      (∀ t, t.kind ∈ kinds → P (bound - 1) false (f (some t))) →
      P bound strict (accept kinds >>= f)
  recoverUnless {α β : Type} {kinds : List Kind} {p : Parse α} {q : Parse β}
    {f : Option α → Parse β} {bound : Nat} :
    .endOfInput ∈ kinds → P bound false q → P bound true p →
      (∀ o, P (bound - 1) false (f o)) →
      P bound false (Parse.check kinds >>= fun b => if b then q else p.recovering >>= f)
  recovering {α : Type} {p : Parse α} {bound : Nat} : P bound true p → P bound false p.recovering
  byLength {α : Type} {p : Nat → Parse α} {bound : Nat} {strict : Bool} :
    (∀ n, P n strict (p n)) → P bound strict (fun ts => p ts.length ts)

namespace HandedOn

variable {P : ∀ {α : Type}, Nat → Bool → Parse α → Prop} (h : HandedOn P)
variable {α β : Type} {p : Parse α} {bound n : Nat} {strict : Bool}

include h

/-- Behind a reader that takes a token the rest may be anything with a smaller bound. -/
theorem thenLax {f : α → Parse β} (hp : P bound true p)
    (hf : ∀ a, P (bound - 1) false (f a)) : P bound false (p >>= f) :=
  h.lax (h.andThen hp hf)

theorem map {f : α → β} (hp : P bound strict p) : P bound strict (f <$> p) := by
  rw [map_eq_pure_bind]
  cases strict with
  | true => exact h.andThen hp fun _ => h.pure _ _
  | false => exact h.bind hp fun _ => h.pure _ _

theorem behind {kind : Kind} (hkind : kind ≠ .endOfInput) (hp : P (bound - 1) false p) :
    P bound false (p.behind kind) := by
  refine h.acceptOr ?_ (h.pure _ _) fun _ _ => h.map hp
  simpa using hkind.symm

theorem unlessAt {kind : Kind} (hp : P bound false p) : P bound false (p.unlessAt kind) := by
  refine h.bind (h.check _ _) fun b => ?_
  split
  · exact h.pure _ _
  · exact h.map hp

theorem noteSurplus (count : Nat) (surplus : SyntaxProblem) :
    P bound false (noteSurplus count surplus) := by
  rw [Parse.noteSurplus]
  split
  · exact h.bind (h.peek _) fun _ => h.note _ _ _
  · exact h.pure _ _

/-! ### Loops -/

theorem chain {operators : List Kind} {join : Node → Token → Node → Node} {operand : Parse Node}
    (hoperators : .endOfInput ∉ operators) (hoperand : P n true operand) (left : Node)
    (hn : n ≤ bound) : P n false (chain operators join operand bound left) := by
  induction bound generalizing n left with
  | zero =>
    obtain rfl : n = 0 := by omega
    exact h.exhausted _
  | succ bound ih =>
    refine h.acceptOr hoperators (h.pure _ _) fun _ _ => h.lax (h.andThen ?_ fun right => ?_)
    · exact h.weaken hoperand (by omega)
    · exact ih (h.weaken hoperand (by omega)) _ (by omega)

theorem entries {entry : Parse α} (surplus : SyntaxProblem) (hentry : P n true entry)
    (count : Nat) (hn : n ≤ bound) : P n true (entries entry surplus bound count) := by
  induction bound generalizing n count with
  | zero =>
    obtain rfl : n = 0 := by omega
    exact h.exhausted _
  | succ bound ih =>
    refine h.bind (h.noteSurplus _ _) fun _ => h.andThen hentry fun first => ?_
    refine h.acceptOr (by simp) (h.pure _ _) fun _ _ => ?_
    exact h.thenLax (ih (h.weaken hentry (by omega)) _ (by omega)) fun _ => h.pure _ _

theorem entriesUnlessAt {kind : Kind} {entry : Parse α} (surplus : SyntaxProblem)
    (hentry : P n true entry) (hn : n ≤ bound) :
    P n false (entriesUnlessAt kind entry surplus bound) := by
  refine h.bind (h.check _ _) fun b => ?_
  split
  · exact h.pure _ _
  · exact h.lax (h.entries surplus hentry _ hn)

theorem upTo {closers : List Kind} (hclosers : .endOfInput ∈ closers) (hp : P n true p)
    (hn : n ≤ bound) : P n false (upTo closers p.recovering bound) := by
  induction bound generalizing n with
  | zero =>
    obtain rfl : n = 0 := by omega
    exact h.exhausted _
  | succ bound ih =>
    refine h.recoverUnless hclosers (h.pure _ _) hp fun first => ?_
    exact h.bind (ih (h.weaken hp (by omega)) (by omega)) fun _ => h.pure _ _

/-! ### Expressions -/

section Expressions

variable {again : Expression.Entry → Parse Node}

theorem tier (level : List (List Kind × (Node → Token → Node → Node)))
    (hlevel : level ⊆ Expression.tiers) {operand : Parse Node} (hoperand : P n true operand)
    (hn : n ≤ bound + 1) : P n true (Expression.tier (bound + 1) operand level) := by
  induction level with
  | nil => exact hoperand
  | cons t tighter ih =>
    obtain ⟨operators, join⟩ := t
    have htighter := ih fun t ht => hlevel (.tail _ ht)
    refine h.andThen htighter fun left => h.chain ?_ (h.weaken htighter (by omega)) _ (by omega)
    have hmem : (operators, join) ∈ Expression.tiers := hlevel (.head _)
    simp only [Expression.tiers, List.mem_cons, Prod.mk.injEq, List.not_mem_nil, or_false] at hmem
    obtain ⟨rfl, -⟩ | ⟨rfl, -⟩ | ⟨rfl, -⟩ | ⟨rfl, -⟩ | ⟨rfl, -⟩ | ⟨rfl, -⟩ := hmem <;> decide

theorem primary (hagain : ∀ entry, P n true (again entry)) :
    P (n + 1) true (Expression.primary again) := by
  refine h.acceptOr (by decide) (h.reject _ _ _) fun t _ => ?_
  dsimp only
  split
  case h_5 =>
    refine h.thenLax (hagain _) fun inner => ?_
    exact h.thenLax (h.expect _ _ (by decide)) fun _ => h.pure _ _
  all_goals exact h.pure _ _

theorem arguments (hagain : ∀ entry, P n true (again entry)) (hn : n ≤ bound) :
    P n false (Expression.arguments bound again) :=
  h.entriesUnlessAt _ (hagain _) hn

theorem calls (hagain : ∀ entry, P n true (again entry)) (hn : n ≤ bound) {m steps : Nat}
    (hm : m ≤ n + 1) (hsteps : m ≤ steps) (callee : Node) :
    P m false (Expression.calls bound again steps callee) := by
  induction steps generalizing m callee with
  | zero =>
    obtain rfl : m = 0 := by omega
    exact h.exhausted _
  | succ steps ih =>
    refine h.acceptOr (by decide) (h.pure _ _) fun _ _ => ?_
    refine h.bind (h.weaken (h.arguments hagain hn) (by omega)) fun arguments => ?_
    exact h.thenLax (h.expect _ _ (by decide)) fun paren => ih (by omega) (by omega) _

theorem unary (hagain : ∀ entry, P n true (again entry)) :
    P (n + 1) true (Expression.unary (n + 1) again) := by
  refine h.acceptOr (by decide) ?_ fun operator _ => ?_
  · exact h.andThen (h.primary hagain) fun _ => h.calls hagain (by omega) (by omega) (by omega) _
  · exact h.thenLax (hagain _) fun _ => h.pure _ _

theorem ternary (hagain : ∀ entry, P n true (again entry)) :
    P (n + 1) true (Expression.ternary (n + 1) again) := by
  have hcondition := h.tier Expression.tiers (List.Subset.refl _) (h.unary hagain) (Nat.le_refl _)
  refine h.andThen hcondition fun condition => ?_
  refine h.acceptOr (by decide) (h.pure _ _) fun question _ => ?_
  refine h.thenLax (h.weaken (hagain _) (by omega)) fun thenBranch => ?_
  refine h.thenLax (h.expect _ _ (by decide)) fun _ => ?_
  exact h.thenLax (h.weaken (hagain _) (by omega)) fun _ => h.pure _ _

theorem assignment (hagain : ∀ entry, P n true (again entry)) :
    P (n + 1) true (Expression.assignment (n + 1) again) := by
  refine h.andThen (h.ternary hagain) fun target => ?_
  refine h.acceptOr (by decide) (h.pure _ _) fun equals _ => ?_
  refine h.thenLax (h.weaken (hagain _) (by omega)) fun value => ?_
  split
  · exact h.pure _ _
  · exact h.bind (h.note _ _ _) fun _ => h.pure _ _

theorem read (n : Nat) (entry : Expression.Entry) : P n true (Expression.read n entry) := by
  induction n generalizing entry with
  | zero => exact h.exhausted _
  | succ n ih =>
    cases entry with
    | assignment => exact h.assignment ih
    | ternary => exact h.ternary ih
    | unary => exact h.unary ih

theorem expression : P bound true Parse.expression :=
  h.byLength fun n => h.weaken (h.read (n + 1) .assignment) (by omega)

end Expressions

/-! ### Statements -/

theorem expressionThen {kind : Kind} (hkind : kind ≠ .endOfInput) (problem : SyntaxProblem) :
    P bound true (Statement.expressionThen kind problem) :=
  h.andThen h.expression fun _ => h.thenLax (h.expect _ _ hkind) fun _ => h.pure _ _

theorem optionalThen {kind : Kind} (hkind : kind ≠ .endOfInput) (problem : SyntaxProblem) :
    P bound false (Statement.optionalThen kind problem) :=
  h.bind (h.unlessAt (h.lax h.expression)) fun _ =>
    h.thenLax (h.expect _ _ hkind) fun _ => h.pure _ _

theorem condition (opening closing : SyntaxProblem) :
    P bound true (Statement.condition opening closing) :=
  h.andThen (h.expect _ _ (by decide)) fun _ => h.lax (h.expressionThen (by decide) _)

theorem variableDeclaration : P bound true Statement.variableDeclaration :=
  h.andThen (h.expect _ _ (by decide)) fun _ =>
    h.bind (h.behind (by decide) (h.lax h.expression)) fun _ =>
      h.thenLax (h.expect _ _ (by decide)) fun _ => h.pure _ _

theorem expressionStatement : P bound true Statement.expressionStatement :=
  h.andThen (h.expressionThen (by decide) _) fun _ => h.pure _ _

theorem forInitializer : P bound true Statement.forInitializer := by
  refine h.acceptOr (by decide) (h.map h.expressionStatement) fun t _ => ?_
  dsimp only
  split
  · exact h.pure _ _
  · exact h.map (h.lax h.variableDeclaration)

/-- The readers that productions start again have such a property. -/
def Entries (P : ∀ {α : Type}, Nat → Bool → Parse α → Prop) (bound : Nat)
    (again : Statement.Entry) : Prop :=
  (∃ p, again.declaration = p.recovering ∧ P bound true p) ∧ P bound true again.statement

section Statements

variable {again : Statement.Entry}

theorem block (hagain : Entries P n again) : P n true (Statement.block (n + 1) again) := by
  obtain ⟨⟨p, hp, hstrict⟩, -⟩ := hagain
  rw [Statement.block]
  rw [hp]
  refine h.bind (h.upTo (by decide) hstrict (by omega)) fun statements => ?_
  exact h.andThen (h.expect _ _ (by decide)) fun _ => h.pure _ _

theorem functionDeclaration (hagain : Entries P n again) :
    P n true (Statement.functionDeclaration (n + 1) again) := by
  refine h.andThen (h.expect _ _ (by decide)) fun name => ?_
  refine h.thenLax (h.expect _ _ (by decide)) fun _ => ?_
  refine h.bind (h.entriesUnlessAt _ (h.expect _ _ (by decide)) (by omega)) fun params => ?_
  refine h.thenLax (h.expect _ _ (by decide)) fun _ => ?_
  refine h.thenLax (h.expect _ _ (by decide)) fun _ => ?_
  exact h.thenLax (h.weaken (h.block hagain) (by omega)) fun _ => h.pure _ _

theorem forLoop (hagain : Entries P n again) : P n true (Statement.forLoop again) := by
  refine h.andThen (h.expect _ _ (by decide)) fun _ => ?_
  refine h.thenLax h.forInitializer fun initializer => ?_
  refine h.bind (h.optionalThen (by decide) _) fun condition => ?_
  refine h.bind (h.optionalThen (by decide) _) fun increment => ?_
  exact h.thenLax (h.weaken hagain.2 (by omega)) fun _ => h.pure _ _

theorem branch (hagain : Entries P n again) : P n true (Statement.branch again) := by
  refine h.andThen (h.condition _ _) fun condition => ?_
  refine h.thenLax (h.weaken hagain.2 (by omega)) fun thenBranch => ?_
  refine h.bind (h.behind (by decide) ?_) fun _ => h.pure _ _
  exact h.lax (h.weaken hagain.2 (by omega))

theorem whileLoop (hagain : Entries P n again) : P n true (Statement.whileLoop again) := by
  refine h.andThen (h.condition _ _) fun condition => ?_
  exact h.thenLax (h.weaken hagain.2 (by omega)) fun _ => h.pure _ _

theorem statement (hagain : Entries P n again) :
    P (n + 1) true (Statement.statement (n + 1) again) := by
  refine h.acceptOr (by decide) h.expressionStatement fun t _ => ?_
  dsimp only
  split
  · exact h.lax (h.forLoop hagain)
  · exact h.lax (h.whileLoop hagain)
  · exact h.lax (h.branch hagain)
  · exact h.thenLax (h.expressionThen (by decide) _) fun _ => h.pure _ _
  · exact h.bind (h.optionalThen (by decide) _) fun _ => h.pure _ _
  · exact h.thenLax (h.block hagain) fun _ => h.pure _ _

theorem strictDeclaration (hagain : Entries P n again) :
    P (n + 1) true (Statement.strictDeclaration (n + 1) again) := by
  refine h.acceptOr (by decide) (h.statement hagain) fun t _ => ?_
  dsimp only
  split
  · exact h.lax (h.functionDeclaration hagain)
  · exact h.lax h.variableDeclaration

end Statements

theorem readers (n : Nat) : Entries P n (Statement.readers n) := by
  induction n with
  | zero => exact ⟨⟨Parse.exhausted, rfl, h.exhausted _⟩, h.exhausted _⟩
  | succ n ih => exact ⟨⟨_, rfl, h.strictDeclaration ih⟩, h.statement ih⟩

theorem declaration : P bound true Parse.strictDeclaration :=
  h.byLength (p := fun n => Statement.strictDeclaration (n + 1) (Statement.readers n)) fun n =>
    h.weaken (h.strictDeclaration (h.readers n)) (by omega)

theorem program : P bound false Parse.program :=
  h.byLength (p := fun n => Parse.upTo [.endOfInput] Parse.declaration (n + 1)) fun n =>
    h.upTo (by decide) h.declaration (Nat.le_succ n)

end HandedOn

end Parse

end Lox
