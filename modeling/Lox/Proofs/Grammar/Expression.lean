import Lox.Proofs.Grammar.Reading

/-!
# The phrases of expressions

Which tokens spell an expression is said here by rules that go along with the trees: every rule
joins trees as it joins tokens. The rules follow the order in which expressions are read, an
operand first and then what is joined to it, so that they single out one tree for a phrase. What
the reader of expressions reads without a report is such a phrase.

## Main definitions

* `Expression.Symbol`: the kinds of phrases.
* `Expression.Spells`: tokens spell some trees.

## Main results

* `Expression.Spells.snoc_tier`, `Expression.Spells.snoc_call`: phrases that are made longer at
  their end.
* `Expression.spells_of_reads`: what is read without a report is a phrase.
-/

namespace Lox

/-- The value of a token that is a literal. -/
def Token.constant? (t : Token) : Option Literal :=
  match t.kind with
  | .kwFalse => some (.bool false)
  | .kwTrue => some (.bool true)
  | .kwNil => some .nil
  | .number | .string => some t.literal
  | _ => none

/-- A literal is a constant of the language, or a token that carries its value. -/
theorem Token.constant?_cases {t : Token} {v : Literal} (h : t.constant? = some v) :
    (t.kind = .kwFalse ∧ v = .bool false) ∨ (t.kind = .kwTrue ∧ v = .bool true) ∨
      (t.kind = .kwNil ∧ v = .nil) ∨ (t.kind = .number ∧ v = t.literal) ∨
      (t.kind = .string ∧ v = t.literal) := by
  rw [constant?] at h
  split at h <;> simp_all

namespace Expression

/-- The operators of a tier and the nodes they make. -/
abbrev Tier := List Kind × (Node → Token → Node → Node)

/-- The kinds of phrases. A phrase of a tier consists of an operand and a chain: the operators
and operands that are joined to what is on their left. -/
inductive Symbol
  | assignment
  | ternary
  | tier (level : List Tier)
  | chain (t : Tier) (tighter : List Tier) (left : Node)
  | unary
  | call
  | calls (callee : Node)
  | primary
  | arguments
  | entries

/-- The phrase that a production reads when it is started again. -/
def Entry.symbol : Entry → Symbol
  | .assignment => .assignment
  | .ternary => .ternary
  | .unary => .unary

/-- The tokens spell the trees as a phrase of some kind. -/
inductive Spells : Symbol → List Node → List Token → Prop
  | assignment {name equals : Token} {value : Node} {us vs : List Token}
      (htarget : Spells .ternary [.reference name] us) (hequals : equals.kind = .equal)
      (hvalue : Spells .assignment [value] vs) :
      Spells .assignment [.assign name value] (us ++ equals :: vs)
  | choice {n : Node} {us : List Token} (h : Spells .ternary [n] us) : Spells .assignment [n] us
  | ternary {question colon : Token} {condition thenBranch elseBranch : Node}
      {us vs ws : List Token} (hcondition : Spells (.tier tiers) [condition] us)
      (hquestion : question.kind = .question) (hthen : Spells .ternary [thenBranch] vs)
      (hcolon : colon.kind = .colon) (helse : Spells .ternary [elseBranch] ws) :
      Spells .ternary [.ternary condition question thenBranch elseBranch]
        (us ++ question :: (vs ++ colon :: ws))
  | joins {n : Node} {us : List Token} (h : Spells (.tier tiers) [n] us) : Spells .ternary [n] us
  | tier {t : Tier} {tighter : List Tier} {left n : Node} {us vs : List Token}
      (hleft : Spells (.tier tighter) [left] us) (hchain : Spells (.chain t tighter left) [n] vs) :
      Spells (.tier (t :: tighter)) [n] (us ++ vs)
  | operand {n : Node} {us : List Token} (h : Spells .unary [n] us) : Spells (.tier []) [n] us
  | join {operators : List Kind} {make : Node → Token → Node → Node} {tighter : List Tier}
      {left right n : Node} {operator : Token} {us vs : List Token}
      (hlevel : (operators, make) :: tighter <:+ tiers) (hoperator : operator.kind ∈ operators)
      (hright : Spells (.tier tighter) [right] us)
      (hchain : Spells (.chain (operators, make) tighter (make left operator right)) [n] vs) :
      Spells (.chain (operators, make) tighter left) [n] (operator :: (us ++ vs))
  | joined (t : Tier) (tighter : List Tier) (n : Node) : Spells (.chain t tighter n) [n] []
  | unary {operator : Token} {n : Node} {us : List Token}
      (hoperator : operator.kind ∈ [Kind.bang, .minus]) (h : Spells .unary [n] us) :
      Spells .unary [.unary operator n] (operator :: us)
  | tight {n : Node} {us : List Token} (h : Spells .call [n] us) : Spells .unary [n] us
  | call {callee n : Node} {us vs : List Token} (hcallee : Spells .primary [callee] us)
      (hcalls : Spells (.calls callee) [n] vs) : Spells .call [n] (us ++ vs)
  | apply {opening closing : Token} {callee n : Node} {ns : List Node} {us vs : List Token}
      (hopening : opening.kind = .leftParen) (hns : Spells .arguments ns us)
      (hclosing : closing.kind = .rightParen)
      (hcalls : Spells (.calls (.call callee closing ns)) [n] vs) :
      Spells (.calls callee) [n] (opening :: (us ++ closing :: vs))
  | applied (n : Node) : Spells (.calls n) [n] []
  | literal {t : Token} {v : Literal} (h : t.constant? = some v) :
      Spells .primary [.literal v] [t]
  | reference {t : Token} (h : t.kind = .identifier) : Spells .primary [.reference t] [t]
  | grouping {opening closing : Token} {n : Node} {us : List Token}
      (hopening : opening.kind = .leftParen) (h : Spells .assignment [n] us)
      (hclosing : closing.kind = .rightParen) :
      Spells .primary [.grouping n] (opening :: (us ++ [closing]))
  | none : Spells .arguments [] []
  | some {ns : List Node} {us : List Token} (hlength : ns.length ≤ maxEntries)
      (h : Spells .entries ns us) : Spells .arguments ns us
  | last {n : Node} {us : List Token} (h : Spells .assignment [n] us) : Spells .entries [n] us
  | cons {comma : Token} {n : Node} {ns : List Node} {us vs : List Token}
      (h : Spells .assignment [n] us) (hcomma : comma.kind = .comma)
      (hns : Spells .entries ns vs) : Spells .entries (n :: ns) (us ++ comma :: vs)

/-! ### Levels of the tiers -/

/-- The operators of logical expressions. -/
def logicalKinds : List Kind := [.kwOr, .kwAnd]

/-- The operators of binary expressions. -/
def binaryKinds : List Kind :=
  [.bangEqual, .equalEqual, .greater, .greaterEqual, .less, .lessEqual, .minus, .plus, .slash, .star]

section Level

variable {operators : List Kind} {make : Node → Token → Node → Node} {tighter : List Tier}

/-- What a level of the tiers can be, and what is tighter. -/
theorem level_cases (hlevel : (operators, make) :: tighter <:+ tiers) :
    (operators = [.kwOr] ∧ make = .logical ∧ tighter = tiers.drop 1) ∨
      (operators = [.kwAnd] ∧ make = .logical ∧ tighter = tiers.drop 2) ∨
      (operators = [.bangEqual, .equalEqual] ∧ make = .binary ∧ tighter = tiers.drop 3) ∨
      (operators = [.greater, .greaterEqual, .less, .lessEqual] ∧ make = .binary ∧
        tighter = tiers.drop 4) ∨
      (operators = [.minus, .plus] ∧ make = .binary ∧ tighter = tiers.drop 5) ∨
      (operators = [.slash, .star] ∧ make = .binary ∧ tighter = []) := by
  simp only [tiers, List.suffix_cons_iff, List.cons.injEq, Prod.mk.injEq, List.suffix_nil,
    reduceCtorEq, or_false, and_assoc] at hlevel
  exact hlevel

/-- A level makes nodes of one of two sorts. -/
theorem make_kinds (hlevel : (operators, make) :: tighter <:+ tiers) :
    (make = .logical ∧ operators ⊆ logicalKinds) ∨ (make = .binary ∧ operators ⊆ binaryKinds) := by
  obtain ⟨rfl, rfl, -⟩ | ⟨rfl, rfl, -⟩ | ⟨rfl, rfl, -⟩ | ⟨rfl, rfl, -⟩ | ⟨rfl, rfl, -⟩ |
    ⟨rfl, rfl, -⟩ := level_cases hlevel
  · exact .inl ⟨rfl, by decide⟩
  · exact .inl ⟨rfl, by decide⟩
  all_goals exact .inr ⟨rfl, by decide⟩

end Level

/-! ### Longer phrases -/

section Longer

variable {n : Node} {us vs : List Token}

/-- A chain can be made longer at its end. -/
theorem Spells.snoc_chain {operators : List Kind} {make : Node → Token → Node → Node}
    {tighter : List Tier} {left right : Node} {operator : Token}
    (h : Spells (.chain (operators, make) tighter left) [n] us)
    (hlevel : (operators, make) :: tighter <:+ tiers) (hoperator : operator.kind ∈ operators)
    (hright : Spells (.tier tighter) [right] vs) :
    Spells (.chain (operators, make) tighter left) [make n operator right]
      (us ++ operator :: vs) := by
  generalize hs : Symbol.chain (operators, make) tighter left = s at h
  generalize hns : [n] = ns at h
  induction h generalizing left with
  | join _ hfirst hoperand _ _ ih =>
    cases hs
    have hjoin := Spells.join hlevel hfirst hoperand (ih rfl hns)
    simpa using hjoin
  | joined =>
    cases hs
    cases hns
    have hjoin := Spells.join hlevel hoperator hright (.joined _ _ (make n operator right))
    simpa using hjoin
  | _ => cases hs

theorem Spells.snoc_tier {operators : List Kind} {make : Node → Token → Node → Node}
    {tighter : List Tier} {right : Node} {operator : Token}
    (h : Spells (.tier ((operators, make) :: tighter)) [n] us)
    (hlevel : (operators, make) :: tighter <:+ tiers) (hoperator : operator.kind ∈ operators)
    (hright : Spells (.tier tighter) [right] vs) :
    Spells (.tier ((operators, make) :: tighter)) [make n operator right]
      (us ++ operator :: vs) := by
  cases h with
  | tier hleft hchain =>
    rw [List.append_assoc]
    exact .tier hleft (hchain.snoc_chain hlevel hoperator hright)

/-- A call can be called. -/
theorem Spells.snoc_calls {callee : Node} {opening closing : Token} {ns : List Node}
    (h : Spells (.calls callee) [n] us) (hopening : opening.kind = .leftParen)
    (hns : Spells .arguments ns vs) (hclosing : closing.kind = .rightParen) :
    Spells (.calls callee) [.call n closing ns] (us ++ opening :: (vs ++ [closing])) := by
  generalize hs : Symbol.calls callee = s at h
  generalize hn : [n] = trees at h
  induction h generalizing callee with
  | apply hfirst harguments hlast _ _ ih =>
    cases hs
    have happly := Spells.apply hfirst harguments hlast (ih rfl hn)
    simpa using happly
  | applied =>
    cases hs
    cases hn
    exact .apply hopening hns hclosing (.applied _)
  | _ => cases hs

theorem Spells.snoc_call {opening closing : Token} {ns : List Node}
    (h : Spells .call [n] us) (hopening : opening.kind = .leftParen)
    (hns : Spells .arguments ns vs) (hclosing : closing.kind = .rightParen) :
    Spells .call [.call n closing ns] (us ++ opening :: (vs ++ [closing])) := by
  cases h with
  | call hcallee hcalls =>
    rw [List.append_assoc]
    exact .call hcallee (hcalls.snoc_calls hopening hns hclosing)

/-- A chain may have no operators at all. -/
theorem Spells.lift {t : Tier} {tighter : List Tier} (h : Spells (.tier tighter) [n] us) :
    Spells (.tier (t :: tighter)) [n] us := by
  have htier := Spells.tier h (.joined t tighter n)
  rwa [List.append_nil] at htier

theorem Spells.primary_call (h : Spells .primary [n] us) : Spells .call [n] us := by
  have hcall := Spells.call h (.applied n)
  rwa [List.append_nil] at hcall

theorem Spells.primary_ternary (h : Spells .primary [n] us) : Spells .ternary [n] us := by
  have htier (level : List Tier) : Spells (.tier level) [n] us := by
    induction level with
    | nil => exact .operand (.tight h.primary_call)
    | cons t tighter ih => exact ih.lift
  exact .joins (htier tiers)

end Longer

/-! ### Variables -/

/-- How the tree of a variable is spelled. -/
def Symbol.Refers (name : Token) (us : List Token) : Symbol → Prop
  | chain _ _ left => left = .reference name ∧ us = []
  | calls callee => callee = .reference name ∧ us = []
  | arguments | entries => True
  | assignment | ternary | tier _ | unary | call | primary => us = [name] ∧ name.kind = .identifier

/-- A variable is spelled by its name alone. -/
theorem Spells.refers {s : Symbol} {ns : List Node} {us : List Token} (h : Spells s ns us)
    {name : Token} (hns : ns = [.reference name]) : s.Refers name us := by
  induction h with
  | choice _ ih | joins _ ih | operand _ ih | tight _ ih => exact ih hns
  | tier _ _ ih ih' | call _ _ ih ih' =>
    obtain ⟨rfl, rfl⟩ := ih' hns
    obtain ⟨rfl, hname⟩ := ih rfl
    exact ⟨rfl, hname⟩
  | join hlevel _ _ _ _ ih =>
    obtain ⟨hmake, -⟩ := ih hns
    obtain ⟨rfl, -⟩ | ⟨rfl, -⟩ := make_kinds hlevel <;> cases hmake
  | apply _ _ _ _ _ ih =>
    obtain ⟨hcall, -⟩ := ih hns
    cases hcall
  | joined | applied =>
    cases hns
    exact ⟨rfl, rfl⟩
  | reference ht =>
    cases hns
    exact ⟨rfl, ht⟩
  | assignment | ternary | unary | literal | grouping => cases hns
  | none | some | last | cons => trivial

theorem Spells.eq_of_reference {name : Token} {us : List Token}
    (h : Spells .ternary [.reference name] us) : us = [name] ∧ name.kind = .identifier :=
  h.refers rfl

/-! ### What is read is a phrase -/

/-- What a reader reads without a report is a phrase of some kind. -/
def Sound (p : Parse Node) (s : Symbol) : Prop :=
  ∀ ⦃ts rest : List Token⦄ ⦃n : Node⦄, p.Reads ts n rest →
    ∃ us, ts = us ++ rest ∧ Spells s [n] us

section Sound

variable {bound : Nat} {again : Entry → Parse Node}

theorem Sound.chain {operators : List Kind} {make : Node → Token → Node → Node}
    {tighter : List Tier} {operand : Parse Node} (hoperand : Sound operand (.tier tighter))
    (hlevel : (operators, make) :: tighter <:+ tiers) (bound : Nat) (left : Node) :
    Sound (Parse.chain operators make operand bound left)
      (.chain (operators, make) tighter left) := by
  induction bound generalizing left with
  | zero => exact fun _ _ _ h => absurd h Parse.not_reads_exhausted
  | succ bound ih =>
    intro ts rest n h
    obtain ⟨operator, mid, rfl, hoperator, right, back, readRight, readChain⟩ | ⟨-, rfl, rfl⟩ :=
      Parse.reads_chain_succ.mp h
    · obtain ⟨us, rfl, hright⟩ := hoperand readRight
      obtain ⟨vs, rfl, hchain⟩ := ih _ readChain
      exact ⟨operator :: (us ++ vs), by simp, .join hlevel hoperator hright hchain⟩
    · exact ⟨[], rfl, .joined _ _ _⟩

theorem Sound.tier {operand : Parse Node} (hoperand : Sound operand .unary) {level : List Tier}
    (hlevel : level <:+ tiers) : Sound (Expression.tier bound operand level) (.tier level) := by
  induction level with
  | nil =>
    intro ts rest n h
    obtain ⟨us, rfl, hunary⟩ := hoperand h
    exact ⟨us, rfl, .operand hunary⟩
  | cons t tighter ih =>
    have htighter := ih ((List.suffix_cons _ _).trans hlevel)
    intro ts rest n h
    obtain ⟨left, mid, readLeft, readChain⟩ := Parse.reads_bind.mp h
    obtain ⟨us, rfl, hleft⟩ := htighter readLeft
    obtain ⟨vs, rfl, hchain⟩ := Sound.chain htighter hlevel _ _ readChain
    exact ⟨us ++ vs, (List.append_assoc ..).symm, .tier hleft hchain⟩

/-- Entries are counted on from those that were read before. -/
theorem spells_of_reads_entries (hagain : Sound (again .assignment) .assignment)
    {surplus : SyntaxProblem} {count : Nat} {ts rest : List Token} {ns : List Node}
    (h : (Parse.entries (again .assignment) surplus bound count).Reads ts ns rest) :
    ∃ us, ts = us ++ rest ∧ Spells .entries ns us ∧ count + ns.length ≤ maxEntries := by
  induction bound generalizing count ts ns with
  | zero => exact absurd h Parse.not_reads_exhausted
  | succ bound ih =>
    obtain ⟨hcount, n, mid, readFirst, hbehind⟩ := Parse.reads_entries_succ.mp h
    obtain ⟨us, rfl, hn⟩ := hagain readFirst
    obtain ⟨comma, back, rfl, hcomma, others, readOthers, rfl⟩ | ⟨-, rfl, rfl⟩ := hbehind
    · obtain ⟨vs, rfl, hothers, hlength⟩ := ih readOthers
      refine ⟨us ++ comma :: vs, by simp, .cons hn hcomma hothers, ?_⟩
      rw [List.length_cons]
      omega
    · exact ⟨us, rfl, .last hn, hcount⟩

theorem spells_of_reads_arguments (hagain : Sound (again .assignment) .assignment)
    {ts rest : List Token} {ns : List Node} (h : (arguments bound again).Reads ts ns rest) :
    ∃ us, ts = us ++ rest ∧ Spells .arguments ns us := by
  obtain ⟨t, us, rfl, -, rfl, rfl⟩ | ⟨-, readEntries⟩ := Parse.reads_entriesUnlessAt.mp h
  · exact ⟨[], rfl, .none⟩
  · obtain ⟨us, rfl, hns, hlength⟩ := spells_of_reads_entries hagain readEntries
    exact ⟨us, rfl, .some (by omega) hns⟩

theorem Sound.primary (hagain : Sound (again .assignment) .assignment) :
    Sound (Expression.primary again) .primary := by
  intro ts rest n h
  simp only [Expression.primary, ↓Parse.reads_accept_bind, Parse.not_reads_reject, and_false,
    or_false] at h
  obtain ⟨t, us, rfl, ht, h⟩ := h
  split at h
  case h_1 hkind | h_2 hkind | h_3 hkind =>
    obtain ⟨rfl, rfl⟩ := Parse.reads_pure.mp h
    exact ⟨[t], rfl, .literal (by simp only [Token.constant?, hkind])⟩
  case h_4 hkind =>
    obtain ⟨rfl, rfl⟩ := Parse.reads_pure.mp h
    exact ⟨[t], rfl, .reference hkind⟩
  case h_5 hkind =>
    simp only [Parse.reads_bind, Parse.reads_expect, Parse.reads_pure] at h
    obtain ⟨inner, mid, readInner, closing, vs, ⟨hclosing, rfl⟩, rfl, rfl⟩ := h
    obtain ⟨us, rfl, hinner⟩ := hagain readInner
    exact ⟨t :: (us ++ [closing]), by simp, .grouping hkind hinner hclosing⟩
  case h_6 hfalse htrue hnil hidentifier hparen =>
    obtain ⟨rfl, rfl⟩ := Parse.reads_pure.mp h
    have hkind : t.kind = .number ∨ t.kind = .string := by
      simp only [List.mem_cons, List.not_mem_nil, or_false] at ht
      grind
    refine ⟨[t], rfl, .literal ?_⟩
    obtain hkind | hkind := hkind <;> simp only [Token.constant?, hkind]

theorem Sound.calls (hagain : Sound (again .assignment) .assignment) (steps : Nat)
    (callee : Node) : Sound (Expression.calls bound again steps callee) (.calls callee) := by
  induction steps generalizing callee with
  | zero => exact fun _ _ _ h => absurd h Parse.not_reads_exhausted
  | succ steps ih =>
    intro ts rest n h
    rw [Expression.calls, Parse.reads_accept_bind] at h
    simp only [Parse.reads_bind, Parse.reads_expect, Parse.reads_pure, List.mem_singleton] at h
    obtain ⟨opening, mid, rfl, hopening, ns, _, readArguments, closing, back, ⟨hclosing, rfl⟩,
      readCalls⟩ | ⟨-, rfl, rfl⟩ := h
    · obtain ⟨us, rfl, hns⟩ := spells_of_reads_arguments hagain readArguments
      obtain ⟨vs, rfl, hcalls⟩ := ih _ readCalls
      exact ⟨opening :: (us ++ closing :: vs), by simp, .apply hopening hns hclosing hcalls⟩
    · exact ⟨[], rfl, .applied _⟩

theorem Sound.call (hagain : Sound (again .assignment) .assignment) :
    Sound (Expression.call bound again) .call := by
  intro ts rest n h
  obtain ⟨callee, mid, readCallee, readCalls⟩ := Parse.reads_bind.mp h
  obtain ⟨us, rfl, hcallee⟩ := Sound.primary hagain readCallee
  obtain ⟨vs, rfl, hcalls⟩ := Sound.calls hagain _ _ readCalls
  exact ⟨us ++ vs, (List.append_assoc ..).symm, .call hcallee hcalls⟩

theorem Sound.unary (hagain : ∀ entry, Sound (again entry) entry.symbol) :
    Sound (Expression.unary bound again) .unary := by
  intro ts rest n h
  simp only [Expression.unary, ↓Parse.reads_accept_bind, ↓Parse.reads_bind_pure] at h
  obtain ⟨operator, mid, rfl, hoperator, operand, readOperand, rfl⟩ | ⟨-, readCall⟩ := h
  · obtain ⟨us, rfl, hoperand⟩ := hagain .unary readOperand
    exact ⟨operator :: us, rfl, .unary hoperator hoperand⟩
  · obtain ⟨us, rfl, hcall⟩ := Sound.call (hagain .assignment) readCall
    exact ⟨us, rfl, .tight hcall⟩

theorem Sound.ternary (hagain : ∀ entry, Sound (again entry) entry.symbol) :
    Sound (Expression.ternary bound again) .ternary := by
  intro ts rest n h
  simp only [Expression.ternary, ↓Parse.reads_accept_bind, ↓Parse.reads_expect_bind,
    ↓Parse.reads_bind_pure, Parse.reads_bind, Parse.reads_pure, List.mem_singleton] at h
  obtain ⟨condition, mid, readCondition, hbehind⟩ := h
  obtain ⟨us, rfl, hcondition⟩ :=
    Sound.tier (Sound.unary hagain) (List.suffix_refl _) readCondition
  obtain ⟨question, mid, rfl, hquestion, thenBranch, _, readThen, colon, back, rfl, hcolon,
    elseBranch, readElse, rfl⟩ | ⟨-, rfl, rfl⟩ := hbehind
  · obtain ⟨vs, rfl, hthen⟩ := hagain .ternary readThen
    obtain ⟨ws, rfl, helse⟩ := hagain .ternary readElse
    exact ⟨us ++ question :: (vs ++ colon :: ws), by simp,
      .ternary hcondition hquestion hthen hcolon helse⟩
  · exact ⟨us, rfl, .joins hcondition⟩

theorem Sound.assignment (hagain : ∀ entry, Sound (again entry) entry.symbol) :
    Sound (Expression.assignment bound again) .assignment := by
  intro ts rest n h
  simp only [Expression.assignment, ↓Parse.reads_accept_bind, Parse.reads_bind, Parse.reads_pure,
    List.mem_singleton] at h
  obtain ⟨target, mid, readTarget, hbehind⟩ := h
  obtain ⟨us, rfl, htarget⟩ := Sound.ternary hagain readTarget
  obtain ⟨equals, mid, rfl, hequals, value, back, readValue, hcheck⟩ | ⟨-, rfl, rfl⟩ := hbehind
  · obtain ⟨vs, rfl, hvalue⟩ := hagain .assignment readValue
    split at hcheck
    · obtain ⟨rfl, rfl⟩ := Parse.reads_pure.mp hcheck
      exact ⟨us ++ equals :: vs, by simp, .assignment htarget hequals hvalue⟩
    · -- Any other left side has been reported.
      simp at hcheck
  · exact ⟨us, rfl, .choice htarget⟩

end Sound

theorem sound_read (bound : Nat) (entry : Entry) : Sound (read bound entry) entry.symbol := by
  induction bound generalizing entry with
  | zero => exact fun _ _ _ h => absurd h Parse.not_reads_exhausted
  | succ bound ih =>
    cases entry with
    | assignment => exact Sound.assignment ih
    | ternary => exact Sound.ternary ih
    | unary => exact Sound.unary ih

/-- An expression that is read without a report is a phrase. -/
theorem spells_of_reads {ts rest : List Token} {n : Node}
    (h : Parse.expression.Reads ts n rest) :
    ∃ us, ts = us ++ rest ∧ Spells .assignment [n] us :=
  sound_read _ .assignment h

end Expression

end Lox
