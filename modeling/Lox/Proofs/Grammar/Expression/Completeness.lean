import Lox.Proofs.Grammar.Expression.Surplus

/-!
# The phrases of expressions are read

What follows a phrase decides how far it reaches, so a phrase is read in front of a token that
does not continue it. Every rule has a lemma of its own: if the parts of a phrase are read, the
phrase is. Lists may be too long for that; what is read without a report is a special case.

## Main definitions

* `Expression.Symbol.Opens`: how a phrase starts.
* `Expression.Symbol.continuing`: the tokens that go on with a phrase.
* `Expression.Completes`: the reader of a phrase reads it.

## Main results

* `Expression.SpellsLong.yields`: a phrase is read as its tree, with the reports of its lists.
* `Expression.Spells.reads`: a phrase is read without a report, as its tree.
-/

namespace Lox

namespace Expression

/-! ### Where phrases begin and end -/

/-- The kinds of tokens that a primary expression starts with. -/
def primaryKinds : List Kind :=
  [.kwFalse, .kwTrue, .kwNil, .number, .string, .identifier, .leftParen]

/-- The kinds of tokens that an expression starts with. -/
def openingKinds : List Kind := .bang :: .minus :: primaryKinds

/-- How the tokens of a phrase start. What is joined to an operand may be empty. -/
def Symbol.Opens (us : List Token) : Symbol → Prop
  | chain .. | calls _ | arguments => True
  | primary | call => StartsIn primaryKinds us
  | assignment | ternary | tier _ | unary | entries => StartsIn openingKinds us

theorem SpellsLong.opens {count : Nat} {s : Symbol} {ns : List Node} {rs : List SyntaxReport}
    {us : List Token} (h : SpellsLong count s ns rs us) : s.Opens us := by
  induction h with
  | choice _ ih | joins _ ih | operand _ ih | last _ ih => exact ih
  | assignment _ _ _ ih | ternary _ _ _ _ _ ih | tier _ _ ih | call _ _ ih | cons _ _ _ ih =>
    exact StartsIn.append ih _
  | tight _ ih => exact StartsIn.mono ih (by simp [openingKinds])
  | join | joined | apply | applied | none | some => trivial
  | unary hoperator => exact List.mem_append_left primaryKinds hoperator
  | literal hv =>
    rcases Token.constant?_cases hv with ⟨hkind, -⟩ | ⟨hkind, -⟩ | ⟨hkind, -⟩ | ⟨hkind, -⟩ |
      ⟨hkind, -⟩ <;> simp [Symbol.Opens, primaryKinds, hkind]
  | reference ht => simp [Symbol.Opens, primaryKinds, ht]
  | grouping hopening => simp [Symbol.Opens, primaryKinds, hopening]

theorem Spells.opens {s : Symbol} {ns : List Node} {us : List Token} (h : Spells s ns us) :
    s.Opens us := by
  cases s with
  | entries =>
    cases h with
    | last h => exact (h.long rfl).opens
    | cons h => exact StartsIn.append (h.long rfl).opens _
  | _ => exact (h.long rfl).opens

/-- The kinds of tokens that go on with a phrase. -/
def Symbol.continuing : Symbol → List Kind
  | primary => []
  | call | calls _ | unary => [.leftParen]
  | tier level => .leftParen :: level.flatMap Prod.fst
  | chain t tighter _ => .leftParen :: (t :: tighter).flatMap Prod.fst
  | ternary => .question :: .leftParen :: tiers.flatMap Prod.fst
  | assignment => .equal :: .question :: .leftParen :: tiers.flatMap Prod.fst
  | entries | arguments => .comma :: .equal :: .question :: .leftParen :: tiers.flatMap Prod.fst

/-- A phrase ends in front of these tokens. Arguments have to be followed by what ends a call,
as there may be none of them. -/
def Symbol.Stops (rest : List Token) : Symbol → Prop
  | arguments => StartsIn [.rightParen] rest
  | s => StartsOutside s.continuing rest

/-- The operators of a tier go on with no phrase of the tighter ones. -/
theorem not_mem_continuing_tier {operators : List Kind} {make : Node → Token → Node → Node}
    {tighter : List Tier} (hlevel : (operators, make) :: tighter <:+ tiers) {kind : Kind}
    (hkind : kind ∈ operators) : kind ∉ (Symbol.tier tighter).continuing := by
  simp only [tiers, List.suffix_cons_iff, List.cons.injEq, Prod.mk.injEq, List.suffix_nil,
    reduceCtorEq, or_false] at hlevel
  obtain ⟨⟨rfl, -⟩, rfl⟩ | ⟨⟨rfl, -⟩, rfl⟩ | ⟨⟨rfl, -⟩, rfl⟩ | ⟨⟨rfl, -⟩, rfl⟩ | ⟨⟨rfl, -⟩, rfl⟩ |
    ⟨⟨rfl, -⟩, rfl⟩ := hlevel
  all_goals
    revert kind
    decide

/-- What is joined to an operand does not go on with the operand. -/
theorem SpellsLong.startsOutside_chain {t : Tier} {tighter : List Tier} {left : Node}
    {ns : List Node} {rs : List SyntaxReport} {us rest : List Token}
    (h : SpellsLong 0 (.chain t tighter left) ns rs us)
    (hrest : StartsOutside (Symbol.tier (t :: tighter)).continuing rest) :
    StartsOutside (Symbol.tier tighter).continuing (us ++ rest) := by
  cases h with
  | join hlevel hoperator => exact not_mem_continuing_tier hlevel hoperator
  | joined =>
    refine hrest.mono (List.cons_subset_cons _ ?_)
    exact List.subset_append_right t.1 _

/-! ### A phrase is read -/

/-- A reader of one tree as a reader of several. -/
def single (p : Parse Node) : Parse (List Node) := (fun n => [n]) <$> p

theorem yields_single {p : Parse Node} {ts rest : List Token} {n : Node}
    {rs : List SyntaxReport} : (single p).Yields ts [n] rs rest ↔ p.Yields ts n rs rest := by
  rw [single, map_eq_pure_bind]
  constructor
  · intro h
    rw [Parse.Yields, Parse.bind_apply] at h
    cases hp : p ts with
    | done n' rs' rest' =>
      rw [hp] at h
      cases h
      rw [Parse.Yields, hp, List.append_nil]
    | stopped why rs' rest' =>
      rw [hp] at h
      cases h
  · exact Parse.Yields.bind_pure

/-- The reader of the phrases of a kind which are at most `bound` tokens long. Loops make at most
`steps` steps, and `count` entries have been read before. -/
def Symbol.reader (bound steps count : Nat) : Symbol → Parse (List Node)
  | assignment => single (read (bound + 1) .assignment)
  | ternary => single (read (bound + 1) .ternary)
  | tier level =>
    single (Expression.tier (bound + 1) (Expression.unary (bound + 1) (read bound)) level)
  | chain (operators, make) tighter left =>
    single (Parse.chain operators make
      (Expression.tier (bound + 1) (Expression.unary (bound + 1) (read bound)) tighter) steps left)
  | unary => single (read (bound + 1) .unary)
  | call => single (Expression.call (bound + 1) (read bound))
  | calls callee => single (Expression.calls (bound + 1) (read bound) steps callee)
  | primary => single (Expression.primary (read bound))
  | arguments => Expression.arguments steps (read (bound + 1))
  | entries => Parse.entries (read (bound + 1) .assignment) .tooManyArguments steps count

/-- The tokens are read as the trees, and with the reports, wherever they end. -/
def Completes (count : Nat) (s : Symbol) (ns : List Node) (rs : List SyntaxReport)
    (us : List Token) : Prop :=
  ∀ (bound steps : Nat) (rest : List Token), us.length + rest.length ≤ bound →
    us.length + rest.length < steps → s.Stops rest →
      (s.reader bound steps count).Yields (us ++ rest) ns rs rest

namespace Completes

variable {n left right callee : Node} {ns : List Node} {rs rs' rs'' : List SyntaxReport}
variable {us vs ws rest : List Token} {bound steps count : Nat}

/-- A phrase of one tree is read with the bound as the number of steps. -/
theorem node {s : Symbol} (h : Completes 0 s [n] rs us)
    (hlength : us.length + rest.length ≤ bound) (hrest : s.Stops rest) :
    (s.reader bound (bound + 1) 0).Yields (us ++ rest) [n] rs rest :=
  h _ _ _ hlength (by omega) hrest

/-- An expression behind a token is read by the reader with the smaller bound. -/
theorem again (entry : Entry) (h : Completes 0 entry.symbol [n] rs us)
    (hlength : us.length + rest.length < bound) (hrest : entry.symbol.Stops rest) :
    (read bound entry).Yields (us ++ rest) n rs rest := by
  obtain ⟨bound, rfl⟩ : ∃ b, bound = b + 1 := ⟨bound - 1, by omega⟩
  cases entry <;> exact yields_single.mp (h.node (by omega) hrest)

/-! ### Assignment, choice and unary operators -/

theorem assignment {name equals : Token} {value : Node}
    (htarget : Completes 0 .ternary [.reference name] rs us) (hequals : equals.kind = .equal)
    (hvalue : Completes 0 .assignment [value] rs' vs) :
    Completes 0 .assignment [.assign name value] (rs ++ rs') (us ++ equals :: vs) := by
  intro bound steps rest hlength _ hrest
  rw [List.length_append, List.length_cons] at hlength
  have hstops : Symbol.ternary.Stops (equals :: (vs ++ rest)) := by
    simp only [Symbol.Stops, startsOutside_cons, hequals]
    decide
  have readTarget : (read (bound + 1) .ternary).Yields (us ++ equals :: (vs ++ rest))
      (.reference name) rs (equals :: (vs ++ rest)) :=
    yields_single.mp (htarget.node (by simp; omega) hstops)
  have readValue : (read bound .assignment).Yields (vs ++ rest) value rs' rest :=
    hvalue.again .assignment (by omega) hrest
  rw [List.append_assoc]
  exact yields_single.mpr (readTarget.bind (.accept (by simp [hequals]) readValue.bind_pure))

theorem choice (h : Completes 0 .ternary [n] rs us) : Completes 0 .assignment [n] rs us := by
  intro bound steps rest hlength _ hrest
  have readChoice : (read (bound + 1) .ternary).Yields (us ++ rest) n rs rest :=
    yields_single.mp (h.node hlength (hrest.mono (List.subset_cons_self _ _)))
  rw [← List.append_nil rs]
  exact yields_single.mpr (readChoice.bind (.skip (hrest.mono (by decide)) (.pure _ _)))

theorem ternary {question colon : Token} {condition thenBranch elseBranch : Node}
    (hcondition : Completes 0 (.tier tiers) [condition] rs us)
    (hquestion : question.kind = .question) (hthen : Completes 0 .ternary [thenBranch] rs' vs)
    (hcolon : colon.kind = .colon) (helse : Completes 0 .ternary [elseBranch] rs'' ws) :
    Completes 0 .ternary [.ternary condition question thenBranch elseBranch] (rs ++ (rs' ++ rs''))
      (us ++ question :: (vs ++ colon :: ws)) := by
  intro bound steps rest hlength _ hrest
  simp only [List.length_append, List.length_cons] at hlength
  have hquestionStops : (Symbol.tier tiers).Stops (question :: (vs ++ colon :: (ws ++ rest))) := by
    simp only [Symbol.Stops, startsOutside_cons, hquestion]
    decide
  have hcolonStops : Symbol.ternary.Stops (colon :: (ws ++ rest)) := by
    simp only [Symbol.Stops, startsOutside_cons, hcolon]
    decide
  have readCondition := yields_single.mp
    (hcondition.node (by simp; omega : _ ≤ bound) hquestionStops)
  have readThen : (read bound .ternary).Yields (vs ++ colon :: (ws ++ rest)) thenBranch rs'
      (colon :: (ws ++ rest)) := hthen.again .ternary (by simp; omega) hcolonStops
  have readElse : (read bound .ternary).Yields (ws ++ rest) elseBranch rs'' rest :=
    helse.again .ternary (by omega) hrest
  have happend : us ++ question :: (vs ++ colon :: ws) ++ rest =
      us ++ question :: (vs ++ colon :: (ws ++ rest)) := by simp
  rw [happend]
  refine yields_single.mpr (readCondition.bind (.accept (by simp [hquestion]) ?_))
  exact readThen.bind (.expect hcolon readElse.bind_pure)

theorem joins (h : Completes 0 (.tier tiers) [n] rs us) : Completes 0 .ternary [n] rs us := by
  intro bound steps rest hlength _ hrest
  have readTier :=
    yields_single.mp (h.node hlength (hrest.mono (List.subset_cons_self _ _)))
  rw [← List.append_nil rs]
  exact yields_single.mpr (readTier.bind (.skip (hrest.mono (by decide)) (.pure _ _)))

theorem unary {operator : Token} (hoperator : operator.kind ∈ [Kind.bang, .minus])
    (h : Completes 0 .unary [n] rs us) :
    Completes 0 .unary [.unary operator n] rs (operator :: us) := by
  intro bound steps rest hlength _ hrest
  rw [List.length_cons] at hlength
  have readOperand : (read bound .unary).Yields (us ++ rest) n rs rest :=
    h.again .unary (by omega) hrest
  exact yields_single.mpr (.accept hoperator readOperand.bind_pure)

theorem tight (hopens : StartsIn primaryKinds us) (h : Completes 0 .call [n] rs us) :
    Completes 0 .unary [n] rs us := by
  intro bound steps rest hlength _ hrest
  have readCall := yields_single.mp (h.node hlength hrest)
  exact yields_single.mpr (.skip ((hopens.append rest).outside (by decide)) readCall)

/-! ### Tiers -/

theorem operand (h : Completes 0 .unary [n] rs us) : Completes 0 (.tier []) [n] rs us := by
  intro bound steps rest hlength _ hrest
  exact h.node hlength hrest

theorem tier {t : Tier} {tighter : List Tier} (hleft : Completes 0 (.tier tighter) [left] rs us)
    (hspells : SpellsLong 0 (.chain t tighter left) [n] rs' vs)
    (hchain : Completes 0 (.chain t tighter left) [n] rs' vs) :
    Completes 0 (.tier (t :: tighter)) [n] (rs ++ rs') (us ++ vs) := by
  intro bound steps rest hlength _ hrest
  rw [List.length_append] at hlength
  have readLeft := yields_single.mp
    (hleft.node (by simp; omega : _ ≤ bound) (hspells.startsOutside_chain hrest))
  have readChain := yields_single.mp (hchain.node (by omega : _ ≤ bound) hrest)
  rw [List.append_assoc]
  exact yields_single.mpr (readLeft.bind readChain)

theorem join {operators : List Kind} {make : Node → Token → Node → Node} {tighter : List Tier}
    {operator : Token} (hoperator : operator.kind ∈ operators)
    (hright : Completes 0 (.tier tighter) [right] rs us)
    (hspells : SpellsLong 0 (.chain (operators, make) tighter (make left operator right)) [n] rs' vs)
    (hchain : Completes 0 (.chain (operators, make) tighter (make left operator right)) [n] rs' vs) :
    Completes 0 (.chain (operators, make) tighter left) [n] (rs ++ rs')
      (operator :: (us ++ vs)) := by
  intro bound steps rest hlength hsteps hrest
  simp only [List.length_cons, List.length_append] at hlength hsteps
  obtain ⟨steps, rfl⟩ : ∃ s, steps = s + 1 := ⟨steps - 1, by omega⟩
  have readRight := yields_single.mp
    (hright.node (by simp; omega : _ ≤ bound) (hspells.startsOutside_chain hrest))
  have readChain := yields_single.mp (hchain bound steps rest (by omega) (by omega) hrest)
  rw [List.cons_append, List.append_assoc]
  exact yields_single.mpr (.accept hoperator (readRight.bind readChain))

theorem joined (t : Tier) (tighter : List Tier) (n : Node) :
    Completes 0 (.chain t tighter n) [n] [] [] := by
  intro bound steps rest _ hsteps hrest
  obtain ⟨steps, rfl⟩ : ∃ s, steps = s + 1 := ⟨steps - 1, by omega⟩
  refine yields_single.mpr (.skip (hrest.mono ?_) (.pure _ _))
  exact List.subset_cons_of_subset _ (List.subset_append_left t.1 _)

/-! ### Calls -/

theorem call (hcallee : Completes 0 .primary [callee] rs us)
    (hcalls : Completes 0 (.calls callee) [n] rs' vs) :
    Completes 0 .call [n] (rs ++ rs') (us ++ vs) := by
  intro bound steps rest hlength _ hrest
  rw [List.length_append] at hlength
  have hstops : Symbol.primary.Stops (vs ++ rest) := by
    cases vs with
    | nil => exact hrest.mono (List.nil_subset _)
    | cons v vs => exact List.not_mem_nil
  have readCallee := yields_single.mp (hcallee.node (by simp; omega : _ ≤ bound) hstops)
  have readCalls := yields_single.mp (hcalls.node (by omega : _ ≤ bound) hrest)
  rw [List.append_assoc]
  exact yields_single.mpr (readCallee.bind readCalls)

theorem apply {opening closing : Token} (hopening : opening.kind = .leftParen)
    (hns : Completes 0 .arguments ns rs us) (hclosing : closing.kind = .rightParen)
    (hcalls : Completes 0 (.calls (.call callee closing ns)) [n] rs' vs) :
    Completes 0 (.calls callee) [n] (rs ++ rs') (opening :: (us ++ closing :: vs)) := by
  intro bound steps rest hlength hsteps hrest
  simp only [List.length_cons, List.length_append] at hlength hsteps
  obtain ⟨steps, rfl⟩ : ∃ s, steps = s + 1 := ⟨steps - 1, by omega⟩
  obtain ⟨bound, rfl⟩ : ∃ b, bound = b + 1 := ⟨bound - 1, by omega⟩
  have readArguments := hns bound (bound + 2) (closing :: (vs ++ rest)) (by simp; omega)
    (by simp; omega) (by simp [Symbol.Stops, hclosing])
  have readCalls := yields_single.mp (hcalls (bound + 1) steps rest (by omega) (by omega) hrest)
  have happend : opening :: (us ++ closing :: vs) ++ rest =
      opening :: (us ++ closing :: (vs ++ rest)) := by simp
  rw [happend]
  refine yields_single.mpr (.accept (by simp [hopening]) ?_)
  exact readArguments.bind (.expect hclosing readCalls)

theorem applied (n : Node) : Completes 0 (.calls n) [n] [] [] := by
  intro bound steps rest _ hsteps hrest
  obtain ⟨steps, rfl⟩ : ∃ s, steps = s + 1 := ⟨steps - 1, by omega⟩
  exact yields_single.mpr (.skip hrest (.pure _ _))

theorem literal {t : Token} {v : Literal} (h : t.constant? = some v) :
    Completes 0 .primary [.literal v] [] [t] := by
  intro bound steps rest _ _ _
  refine yields_single.mpr ?_
  rcases Token.constant?_cases h with ⟨hkind, rfl⟩ | ⟨hkind, rfl⟩ | ⟨hkind, rfl⟩ | ⟨hkind, rfl⟩ |
    ⟨hkind, rfl⟩ <;> exact .accept (by simp [hkind]) (by simp only [hkind]; exact .pure _ _)

theorem reference {t : Token} (h : t.kind = .identifier) :
    Completes 0 .primary [.reference t] [] [t] := by
  intro bound steps rest _ _ _
  refine yields_single.mpr (.accept (by simp [h]) ?_)
  simp only [h]
  exact .pure _ _

theorem grouping {opening closing : Token} (hopening : opening.kind = .leftParen)
    (h : Completes 0 .assignment [n] rs us) (hclosing : closing.kind = .rightParen) :
    Completes 0 .primary [.grouping n] rs (opening :: (us ++ [closing])) := by
  intro bound steps rest hlength _ _
  simp only [List.length_cons, List.length_append, List.length_nil] at hlength
  have hstops : Symbol.assignment.Stops (closing :: rest) := by
    simp only [Symbol.Stops, startsOutside_cons, hclosing]
    decide
  have readInner : (read bound .assignment).Yields (us ++ closing :: rest) n rs
      (closing :: rest) := h.again .assignment (by simp; omega) hstops
  have happend : opening :: (us ++ [closing]) ++ rest = opening :: (us ++ closing :: rest) := by
    simp
  rw [happend, ← List.append_nil rs]
  refine yields_single.mpr (.accept (by simp [hopening]) ?_)
  simp only [hopening]
  exact readInner.bind (.expect hclosing (.pure _ _))

/-! ### Arguments -/

theorem none : Completes 0 .arguments [] [] [] := by
  intro bound steps rest _ _ hrest
  exact .closed hrest (.pure _ _)

theorem some (hopens : StartsIn openingKinds us) (h : Completes 0 .entries ns rs us) :
    Completes 0 .arguments ns rs us := by
  intro bound steps rest hlength hsteps hrest
  have hstops : Symbol.entries.Stops rest := StartsIn.outside hrest (by decide)
  exact .entered ((hopens.append rest).outside (by decide)) (h bound steps rest hlength hsteps hstops)

theorem last (hopens : StartsIn openingKinds us) (h : Completes 0 .assignment [n] rs us) :
    Completes count .entries [n] (Parse.surplusReports .tooManyArguments count us ++ rs) us := by
  intro bound steps rest hlength hsteps hrest
  obtain ⟨steps, rfl⟩ : ∃ s, steps = s + 1 := ⟨steps - 1, by omega⟩
  have readEntry : (read (bound + 1) .assignment).Yields (us ++ rest) n rs rest :=
    h.again .assignment (by omega) (hrest.mono (List.subset_cons_self _ _))
  exact .entries_last hopens.ne_nil readEntry (hrest.mono (by decide))

theorem cons {comma : Token} (hopens : StartsIn openingKinds us)
    (h : Completes 0 .assignment [n] rs us) (hcomma : comma.kind = .comma)
    (hns : Completes (count + 1) .entries ns rs' vs) :
    Completes count .entries (n :: ns)
      (Parse.surplusReports .tooManyArguments count us ++ (rs ++ rs')) (us ++ comma :: vs) := by
  intro bound steps rest hlength hsteps hrest
  simp only [List.length_append, List.length_cons] at hlength hsteps
  obtain ⟨steps, rfl⟩ : ∃ s, steps = s + 1 := ⟨steps - 1, by omega⟩
  have hstops : Symbol.assignment.Stops (comma :: (vs ++ rest)) := by
    simp only [Symbol.Stops, startsOutside_cons, hcomma]
    decide
  have readEntry : (read (bound + 1) .assignment).Yields (us ++ comma :: (vs ++ rest)) n rs
      (comma :: (vs ++ rest)) := h.again .assignment (by simp; omega) hstops
  have readOthers := hns bound steps rest (by omega) (by omega) hrest
  rw [List.append_assoc]
  exact .entries_cons hopens.ne_nil readEntry hcomma readOthers

end Completes

theorem SpellsLong.completes {count : Nat} {s : Symbol} {ns : List Node} {rs : List SyntaxReport}
    {us : List Token} (h : SpellsLong count s ns rs us) : Completes count s ns rs us := by
  induction h with
  | assignment _ hequals _ ih ih' => exact .assignment ih hequals ih'
  | choice _ ih => exact .choice ih
  | ternary _ hquestion _ hcolon _ ih ih' ih'' => exact .ternary ih hquestion ih' hcolon ih''
  | joins _ ih => exact .joins ih
  | tier _ hchain ih ih' => exact .tier ih hchain ih'
  | operand _ ih => exact .operand ih
  | join _ hoperator _ hchain ih ih' => exact .join hoperator ih hchain ih'
  | joined t tighter n => exact .joined t tighter n
  | unary hoperator _ ih => exact .unary hoperator ih
  | tight hcall ih => exact .tight hcall.opens ih
  | call _ _ ih ih' => exact .call ih ih'
  | apply hopening _ hclosing _ ih ih' => exact .apply hopening ih hclosing ih'
  | applied n => exact .applied n
  | literal hv => exact .literal hv
  | reference ht => exact .reference ht
  | grouping hopening _ hclosing ih => exact .grouping hopening ih hclosing
  | none => exact .none
  | some hentries ih => exact .some hentries.opens ih
  | last hentry ih => exact .last hentry.opens ih
  | cons hentry hcomma _ ih ih' => exact .cons hentry.opens ih hcomma ih'

/-- A phrase is read as its tree, with its reports, in front of what does not go on with it. -/
theorem SpellsLong.yields {n : Node} {rs : List SyntaxReport} {us rest : List Token}
    (h : SpellsLong 0 .assignment [n] rs us)
    (hrest : StartsOutside Symbol.assignment.continuing rest) :
    Parse.expression.Yields (us ++ rest) n rs rest :=
  h.completes.again .assignment (by simp) hrest

/-- A phrase whose lists are not too long is read without a report. -/
theorem Spells.reads {n : Node} {us rest : List Token} (h : Spells .assignment [n] us)
    (hrest : StartsOutside Symbol.assignment.continuing rest) :
    Parse.expression.Reads (us ++ rest) n rest :=
  (h.long rfl).yields hrest

end Expression

end Lox
