import Lox.Proofs.Grammar.Halting
import Lox.Proofs.Grammar.Taking

/-!
# Words of the lenient grammar are taken

Whatever derivation a word has, reading it comes to no syntax error. The derivation need not be the
one that the reader follows: operands may be joined in another order, and an `else` may belong to
another `if`. Both are a matter of what is done behind a word, so what is said about a word is said
in front of any tokens that are dealt with afterwards: by the rest of a chain of operands, by the
rest of a chain of calls, or by the choices of the word that are still without an `else`.

## Main definitions

* `Expression.Joins`, `Expression.Calls`: what chains do behind their first operand.
* `Statement.Closes`: what the choices do that are still without an `else`.
* `Grammar.Symbol.Taken`: tokens are taken as what a symbol stands for.
* `Grammar.Symbol.Takes`: all tokens of some kinds are.

## Main results

* `Grammar.Admits.takes`: the tokens of an admitted word are taken.
* `Grammar.IsStream.takes`: a program of the lenient grammar is read up to its end of input.
-/

namespace Lox

open Parse (EventuallyTakes)

/-! ### What is done behind a word -/

namespace Expression

theorem takes_expression {ts rest : List Token}
    (h : EventuallyTakes (fun bound => read (bound + 1) .assignment) ts rest) :
    Parse.expression.Takes ts rest := by
  obtain ⟨a, reports, hres⟩ := h ts.length (Nat.le_refl _)
  exact ⟨a, reports, hres⟩

/-- What the tiers do behind their first operand: they take the tokens in front of `rest`. -/
def Joins (mid rest : List Token) : List Tier → Prop
  | [] => mid = rest ∧ StartsOutside [.leftParen] rest
  | (operators, make) :: tighter =>
    StartsOutside (Symbol.tier tighter).continuing mid ∧
      ∀ bound steps left, mid.length ≤ bound → mid.length < steps →
        (Parse.chain operators make (tier (bound + 1) (unary (bound + 1) (read bound)) tighter)
          steps left).Takes mid rest

/-- What calls do behind their callee. -/
def Calls (mid rest : List Token) : Prop :=
  ∀ bound steps callee, mid.length ≤ bound → mid.length < steps →
    (calls (bound + 1) (read bound) steps callee).Takes mid rest

theorem joins_self {level : List Tier} {rest : List Token}
    (hrest : StartsOutside (Symbol.tier level).continuing rest) : Joins rest rest level := by
  cases level with
  | nil => exact ⟨rfl, hrest⟩
  | cons t tighter =>
    refine ⟨hrest.mono (List.cons_subset_cons _ (List.subset_append_right t.1 _)), ?_⟩
    intro bound steps left _ hsteps
    obtain ⟨steps, rfl⟩ : ∃ s, steps = s + 1 := ⟨steps - 1, by omega⟩
    refine .skip (hrest.mono ?_) (.pure _ _)
    exact List.subset_cons_of_subset _ (List.subset_append_left t.1 _)

theorem calls_self {rest : List Token} (hrest : StartsOutside [.leftParen] rest) :
    Calls rest rest := by
  intro bound steps callee _ hsteps
  obtain ⟨steps, rfl⟩ : ∃ s, steps = s + 1 := ⟨steps - 1, by omega⟩
  exact .skip hrest (.pure _ _)

end Expression

namespace Statement

/-- What a choice without an `else` does behind its first branch. -/
def Attaches (mid rest : List Token) : Prop :=
  StartsOutside [.kwElse] mid ∧ mid = rest ∨
    ∃ keyword ts, mid = keyword :: ts ∧ keyword.kind = .kwElse ∧ rest.length ≤ ts.length ∧
      EventuallyTakes (fun bound => (haltingReaders (bound + 1)).statement) ts rest

/-- What several choices without an `else` do, the innermost one first. -/
def Closes (mid rest : List Token) : Nat → Prop
  | 0 => mid = rest
  | count + 1 => ∃ next, Attaches mid next ∧ Closes next rest count

theorem Attaches.length_le {mid rest : List Token} (h : Attaches mid rest) :
    rest.length ≤ mid.length := by
  obtain ⟨-, rfl⟩ | ⟨keyword, ts, rfl, -, hlength, -⟩ := h
  · exact Nat.le_refl _
  · exact Nat.le_succ_of_le hlength

theorem Closes.length_le {count : Nat} {mid rest : List Token} (h : Closes mid rest count) :
    rest.length ≤ mid.length := by
  induction count generalizing mid with
  | zero => exact h ▸ Nat.le_refl _
  | succ count ih =>
    obtain ⟨next, hnext, hback⟩ := h
    exact Nat.le_trans (ih hback) hnext.length_le

theorem closes_self {rest : List Token} (hrest : StartsOutside [.kwElse] rest) (count : Nat) :
    Closes rest rest count := by
  induction count with
  | zero => rfl
  | succ count ih => exact ⟨rest, .inl ⟨hrest, rfl⟩, ih⟩

/-- The reader of what follows a first branch does what such a choice does. -/
theorem Attaches.takes {mid rest : List Token} (h : Attaches mid rest) {bound : Nat}
    (hbound : mid.length ≤ bound) :
    ((haltingReaders bound).statement.behind .kwElse).Takes mid rest := by
  obtain ⟨hmid, rfl⟩ | ⟨keyword, ts, rfl, hkeyword, -, hts⟩ := h
  · exact .skip hmid (.pure _ _)
  · refine .accept (by simp [hkeyword]) (Parse.Takes.map ?_ some)
    exact hts.again (fun b => (haltingReaders b).statement) hbound

theorem closes_add {first second : Nat} {mid rest : List Token} :
    Closes mid rest (first + second) ↔ ∃ next, Closes mid next first ∧ Closes next rest second := by
  induction first generalizing mid with
  | zero => simp [Closes]
  | succ first ih =>
    rw [Nat.succ_add]
    simp only [Closes, ih]
    constructor
    · rintro ⟨next, hnext, back, hback, hrest⟩
      exact ⟨back, ⟨next, hnext, hback⟩, hrest⟩
    · rintro ⟨back, ⟨next, hnext, hback⟩, hrest⟩
      exact ⟨next, hnext, back, hback, hrest⟩

end Statement

namespace Grammar

open Expression (Joins Calls read)
open Statement (haltingReaders Closes)

/-- Tokens that are taken as what a symbol stands for. -/
def Symbol.Taken (us : List Token) : Symbol → Prop
  | program => ∀ (closers : List Kind) (entry : Parse (Option Node)) (steps : Nat)
      (rest : List Token), closers ⊆ [.rightBrace, .endOfInput] → StartsIn closers rest →
      (∀ ts mid : List Token, ts.length ≤ us.length + rest.length →
        EventuallyTakes (fun bound => (haltingReaders (bound + 1)).declaration) ts mid →
          entry.Takes ts mid) → us.length < steps →
      (Parse.upTo closers entry steps).Takes (us ++ rest) rest
  | declaration => ∀ rest, StartsOutside [.kwElse] rest →
      EventuallyTakes (fun bound => (haltingReaders (bound + 1)).declaration) (us ++ rest) rest
  | binding => ∃ keyword vs, us = keyword :: vs ∧ keyword.kind = .kwVar ∧
      ∀ rest, Statement.variableDeclaration.Takes (vs ++ rest) rest
  | statement => ∃ count, ∀ mid rest, Closes mid rest count →
      EventuallyTakes (fun bound => (haltingReaders (bound + 1)).statement) (us ++ mid) rest
  | initializer => ∀ rest, Statement.forInitializer.Takes (us ++ rest) rest
  | clause => ∀ (kind : Kind) (problem : SyntaxProblem) (t : Token) (rest : List Token),
      Statement.Ends kind → t.kind = kind →
        (Statement.optionalThen kind problem).Takes (us ++ t :: rest) rest
  | expression => ∀ rest, StartsOutside Expression.Symbol.assignment.continuing rest →
      EventuallyTakes (fun bound => read (bound + 1) .assignment) (us ++ rest) rest
  | ternary => ∀ rest, StartsOutside Expression.Symbol.ternary.continuing rest →
      EventuallyTakes (fun bound => read (bound + 1) .ternary) (us ++ rest) rest
  | tier levels => ∀ level, level <:+ Expression.tiers → level.map Prod.fst = levels →
      ∀ mid rest, Joins mid rest level →
        EventuallyTakes (fun bound => Expression.tier (bound + 1)
          (Expression.unary (bound + 1) (read bound)) level) (us ++ mid) rest
  | unary => ∀ rest, StartsOutside [.leftParen] rest →
      EventuallyTakes (fun bound => read (bound + 1) .unary) (us ++ rest) rest
  | call => ∀ mid rest, Calls mid rest →
      EventuallyTakes (fun bound => Expression.call (bound + 1) (read bound)) (us ++ mid) rest
  | primary => ∀ rest,
      EventuallyTakes (fun bound => Expression.primary (read bound)) (us ++ rest) rest

/-- Whatever tokens have these kinds, they are taken as what the symbol stands for. -/
def Symbol.Takes (s : Symbol) (w : List Kind) : Prop :=
  ∀ ⦃us : List Token⦄, us.map Token.kind = w → s.Taken us

namespace Symbol.Takes

variable {w w' c i e : List Kind}

/-! ### Expressions -/

theorem constant {k : Kind}
    (hk : k ∈ [Kind.kwFalse, .kwTrue, .kwNil, .number, .string, .identifier]) :
    primary.Takes [k] := by
  intro us hus rest bound _
  obtain ⟨t, _, rfl, rfl, hnil⟩ := List.map_eq_cons_iff.mp hus
  obtain rfl := List.map_eq_nil_iff.mp hnil
  have hprimary : t.kind ∈ Expression.primaryKinds := (Admits.constant hk).begins
  refine .accept hprimary ?_
  dsimp only
  split
  case h_5 hkind => simp [hkind] at hk
  all_goals exact .pure _ _

theorem grouping (h : expression.Takes w) :
    primary.Takes (.leftParen :: (w ++ [.rightParen])) := by
  intro us hus rest bound hbound
  simp only [List.map_eq_cons_iff, List.map_eq_append_iff, List.map_eq_nil_iff] at hus
  obtain ⟨opening, _, rfl, hopening, vs, _, rfl, hvs, closing, _, rfl, hclosing, rfl⟩ := hus
  simp only [List.length_append, List.length_cons, List.length_nil] at hbound
  have hstops : StartsOutside Expression.Symbol.assignment.continuing (closing :: rest) := by
    rw [startsOutside_cons, hclosing]
    decide
  have happend : opening :: (vs ++ [closing]) ++ rest = opening :: (vs ++ closing :: rest) := by
    simp
  rw [happend]
  refine .accept (by simp [hopening]) ?_
  simp only [hopening]
  refine Parse.Takes.bind ((h hvs _ hstops).again (read · .assignment) (by simp; omega)) fun _ => ?_
  exact (Parse.Takes.expect hclosing _ _).bind fun _ => .pure _ _

theorem atom (h : primary.Takes w) : call.Takes w := by
  intro us hus mid rest hcalls bound hbound
  rw [List.length_append] at hbound
  refine (h hus mid bound (by simpa using hbound)).bind fun callee => ?_
  exact hcalls bound (bound + 1) callee (by omega) (by omega)

/-- What a call does behind its callee is to read its arguments and to go on behind these. -/
theorem callee (h : call.Takes w) {ws : List (List Kind)}
    (hbegins : ∀ v ∈ ws, Symbol.expression.Begins v) (hws : ∀ v ∈ ws, expression.Takes v) :
    call.Takes (w ++ .leftParen :: (commaSeparated ws ++ [.rightParen])) := by
  intro us hus mid rest hcalls
  simp only [List.map_eq_cons_iff, List.map_eq_append_iff, List.map_eq_nil_iff] at hus
  obtain ⟨us, _, rfl, hus, opening, _, rfl, hopening, vs, _, rfl, hvs, closing, _, rfl, hclosing,
    rfl⟩ := hus
  have happend : us ++ opening :: (vs ++ [closing]) ++ mid =
      us ++ opening :: (vs ++ closing :: mid) := by simp
  rw [happend]
  refine h hus _ _ fun bound steps callee hbound hsteps => ?_
  simp only [List.length_append, List.length_cons] at hbound hsteps
  obtain ⟨steps, rfl⟩ : ∃ s, steps = s + 1 := ⟨steps - 1, by omega⟩
  refine .accept (by simp [hopening]) ?_
  have takesArguments : (Expression.arguments (bound + 1) (read bound)).Takes
      (vs ++ closing :: mid) (closing :: mid) := by
    refine .entriesUnlessAt hvs ?_ hbegins (by decide) (by simp [hclosing]) (by omega)
    intro v hv vs' mid' hvs' hlength hmid'
    rw [List.length_cons] at hlength
    have hentry := hws v hv hvs' mid' (hmid'.outside (by decide))
    exact hentry.again (read · .assignment) (by simp; omega)
  refine takesArguments.bind fun _ => (Parse.Takes.expect hclosing _ _).bind fun paren => ?_
  exact hcalls bound steps _ (by omega) (by omega)

theorem tight (hbegins : Symbol.call.Begins w) (h : call.Takes w) : unary.Takes w := by
  intro us hus rest hrest bound hbound
  have hopens : StartsIn Expression.primaryKinds us := BeginsIn.startsIn hbegins hus
  refine .skip ((hopens.append rest).outside (by decide)) ?_
  exact h hus rest rest (Expression.calls_self hrest) bound hbound

theorem negated {k : Kind} (hk : k ∈ [Kind.bang, .minus]) (h : unary.Takes w) :
    unary.Takes (k :: w) := by
  intro us hus rest hrest bound hbound
  obtain ⟨operator, vs, rfl, rfl, hvs⟩ := List.map_eq_cons_iff.mp hus
  refine .accept hk (Parse.Takes.bind ((h hvs rest hrest).again (read · .unary) hbound) fun _ => ?_)
  exact .pure _ _

theorem operand (h : unary.Takes w) : (tier []).Takes w := by
  rintro us hus level - hmap mid rest hjoins
  obtain rfl := List.map_eq_nil_iff.mp hmap
  obtain ⟨rfl, hrest⟩ := hjoins
  exact h hus mid hrest

theorem tighter {level : List Kind} {levels : List (List Kind)} (h : (tier levels).Takes w) :
    (tier (level :: levels)).Takes w := by
  intro us hus above hlevel hmap mid rest hjoins bound hbound
  obtain ⟨t, tighter, rfl, -, hmap⟩ := List.map_eq_cons_iff.mp hmap
  obtain ⟨hmid, hchain⟩ := hjoins
  rw [List.length_append] at hbound
  have hleft := h hus tighter ((List.suffix_cons _ _).trans hlevel) hmap mid mid
    (Expression.joins_self hmid)
  refine (hleft bound (by simpa using hbound)).bind fun left => ?_
  exact hchain bound (bound + 1) left (by omega) (by omega)

/-- The operand that comes last is what the tier joins first behind the others. -/
theorem join {level : List Kind} {levels : List (List Kind)} {k : Kind} (hk : k ∈ level)
    (hleft : (tier (level :: levels)).Takes w) (hright : (tier levels).Takes w') :
    (tier (level :: levels)).Takes (w ++ k :: w') := by
  intro us hus above hlevel hmap mid rest hjoins
  simp only [List.map_eq_cons_iff, List.map_eq_append_iff] at hus
  obtain ⟨us, _, rfl, hus, operator, vs, rfl, rfl, hvs⟩ := hus
  obtain ⟨⟨operators, make⟩, tighter, rfl, rfl, htighter⟩ := List.map_eq_cons_iff.mp hmap
  obtain ⟨hmid, hchain⟩ := hjoins
  rw [List.append_assoc, List.cons_append]
  refine hleft hus _ hlevel hmap _ _ ⟨Expression.not_mem_continuing_tier hlevel hk, ?_⟩
  intro bound steps left hbound hsteps
  simp only [List.length_append, List.length_cons] at hbound hsteps
  obtain ⟨steps, rfl⟩ : ∃ s, steps = s + 1 := ⟨steps - 1, by omega⟩
  have hoperand := hright hvs tighter ((List.suffix_cons _ _).trans hlevel) htighter mid mid
    (Expression.joins_self hmid)
  refine .accept hk (Parse.Takes.bind (hoperand bound (by simp; omega)) fun right => ?_)
  exact hchain bound steps _ (by omega) (by omega)

theorem joins (h : (tier operators).Takes w) : ternary.Takes w := by
  intro us hus rest hrest bound hbound
  have htier := h hus Expression.tiers (List.suffix_refl _) rfl rest rest
    (Expression.joins_self (hrest.mono (List.subset_cons_self _ _)))
  exact (htier bound hbound).bind fun _ => .skip (hrest.mono (by decide)) (.pure _ _)

theorem choice (hcondition : (tier operators).Takes c) (hthen : ternary.Takes w)
    (helse : ternary.Takes w') : ternary.Takes (c ++ .question :: (w ++ .colon :: w')) := by
  intro us hus rest hrest bound hbound
  simp only [List.map_eq_cons_iff, List.map_eq_append_iff] at hus
  obtain ⟨us, _, rfl, hus, question, _, rfl, hquestion, vs, _, rfl, hvs, colon, ws, rfl, hcolon,
    hws⟩ := hus
  simp only [List.length_append, List.length_cons] at hbound
  have hquestionStops : StartsOutside (Expression.Symbol.tier Expression.tiers).continuing
      (question :: (vs ++ colon :: (ws ++ rest))) := by
    rw [startsOutside_cons, hquestion]
    decide
  have hcolonStops :
      StartsOutside Expression.Symbol.ternary.continuing (colon :: (ws ++ rest)) := by
    rw [startsOutside_cons, hcolon]
    decide
  have takesCondition := hcondition hus Expression.tiers (List.suffix_refl _) rfl _ _
    (Expression.joins_self hquestionStops)
  have happend : us ++ question :: (vs ++ colon :: ws) ++ rest =
      us ++ question :: (vs ++ colon :: (ws ++ rest)) := by simp
  rw [happend]
  refine (takesCondition bound (by simp; omega)).bind fun _ => .accept (by simp [hquestion]) ?_
  have takesThen := (hthen hvs _ hcolonStops).again (read · .ternary) (by simp; omega : _ < bound)
  have takesElse := (helse hws rest hrest).again (read · .ternary) (by simp; omega : _ < bound)
  refine takesThen.bind fun _ => (Parse.Takes.expect hcolon _ _).bind fun _ => ?_
  exact takesElse.bind fun _ => .pure _ _

theorem chosen (h : ternary.Takes w) : expression.Takes w := by
  intro us hus rest hrest bound hbound
  have htarget := h hus rest (hrest.mono (List.subset_cons_self _ _)) bound hbound
  exact htarget.bind fun _ => .skip (hrest.mono (by decide)) (.pure _ _)

/-- It does not matter what is assigned to. -/
theorem assignment (htarget : ternary.Takes w) (h : expression.Takes w') :
    expression.Takes (w ++ .equal :: w') := by
  intro us hus rest hrest bound hbound
  simp only [List.map_eq_cons_iff, List.map_eq_append_iff] at hus
  obtain ⟨us, _, rfl, hus, equals, vs, rfl, hequals, hvs⟩ := hus
  simp only [List.length_append, List.length_cons] at hbound
  have hstops : StartsOutside Expression.Symbol.ternary.continuing (equals :: (vs ++ rest)) := by
    rw [startsOutside_cons, hequals]
    decide
  rw [List.append_assoc, List.cons_append]
  refine (htarget hus _ hstops bound (by simp; omega)).bind fun target => ?_
  refine .accept (by simp [hequals]) ?_
  have takesValue := (h hvs rest hrest).again (read · .assignment) (by simp; omega : _ < bound)
  refine takesValue.bind fun value => ?_
  split
  · exact .pure _ _
  · exact (Parse.Takes.note _ _ _).bind fun _ => .pure _ _

/-! ### Parts of statements -/

theorem ended (h : expression.Takes w) {kind : Kind} (hkind : Statement.Ends kind)
    {vs : List Token} (hvs : vs.map Token.kind = w) {t : Token} (ht : t.kind = kind)
    (problem : SyntaxProblem) (rest : List Token) :
    (Statement.expressionThen kind problem).Takes (vs ++ t :: rest) rest := by
  subst ht
  refine Parse.Takes.bind (Expression.takes_expression (h hvs (t :: rest) hkind.2)) fun _ => ?_
  exact (Parse.Takes.expect rfl _ _).bind fun _ => .pure _ _

theorem inParentheses (h : expression.Takes c) {opening closing : Token}
    (hopening : opening.kind = .leftParen) {cs : List Token} (hcs : cs.map Token.kind = c)
    (hclosing : closing.kind = .rightParen) (problem problem' : SyntaxProblem) (rest : List Token) :
    (Statement.condition problem problem').Takes (opening :: (cs ++ closing :: rest)) rest :=
  (Parse.Takes.expect hopening _ _).bind fun _ => h.ended (by decide) hcs hclosing _ _

theorem noClause : clause.Takes [] := by
  intro us hus kind problem t rest _ ht
  obtain rfl := List.map_eq_nil_iff.mp hus
  refine Parse.Takes.bind (.closed (List.mem_singleton.mpr ht) (.pure _ _)) fun _ => ?_
  exact (Parse.Takes.expect ht _ _).bind fun _ => .pure _ _

theorem given (hbegins : Symbol.expression.Begins w) (h : expression.Takes w) : clause.Takes w := by
  intro us hus kind problem t rest hkind ht
  subst ht
  have hopens : StartsIn Expression.openingKinds us := BeginsIn.startsIn hbegins hus
  have takesExpression := Expression.takes_expression (h hus (t :: rest) hkind.2)
  refine Parse.Takes.bind (.entered (hkind.outside (hopens.append _))
    (takesExpression.map some)) fun _ => ?_
  exact (Parse.Takes.expect rfl _ _).bind fun _ => .pure _ _

theorem bare : binding.Takes [.kwVar, .identifier, .semicolon] := by
  intro us hus
  simp only [List.map_eq_cons_iff, List.map_eq_nil_iff] at hus
  obtain ⟨keyword, _, rfl, hkeyword, name, _, rfl, hname, t, _, rfl, ht, rfl⟩ := hus
  refine ⟨keyword, _, rfl, hkeyword, fun rest => ?_⟩
  refine (Parse.Takes.expect hname _ _).bind fun _ => ?_
  refine Parse.Takes.bind (.skip (by simp [ht]) (.pure _ _)) fun _ => ?_
  exact (Parse.Takes.expect ht _ _).bind fun _ => .pure _ _

theorem initialized (h : expression.Takes w) :
    binding.Takes (.kwVar :: .identifier :: .equal :: (w ++ [.semicolon])) := by
  intro us hus
  simp only [List.map_eq_cons_iff, List.map_eq_append_iff, List.map_eq_nil_iff] at hus
  obtain ⟨keyword, _, rfl, hkeyword, name, _, rfl, hname, equals, _, rfl, hequals, vs, _, rfl, hvs,
    t, _, rfl, ht, rfl⟩ := hus
  refine ⟨keyword, _, rfl, hkeyword, fun rest => ?_⟩
  have hstops : StartsOutside Expression.Symbol.assignment.continuing (t :: rest) := by
    rw [startsOutside_cons, ht]
    decide
  have happend : name :: equals :: (vs ++ [t]) ++ rest = name :: equals :: (vs ++ t :: rest) := by
    simp
  have takesExpression := Expression.takes_expression (h hvs _ hstops)
  rw [happend]
  refine (Parse.Takes.expect hname _ _).bind fun _ => ?_
  refine Parse.Takes.bind (.accept (by simp [hequals]) (takesExpression.map some)) fun _ => ?_
  exact (Parse.Takes.expect ht _ _).bind fun _ => .pure _ _

theorem noInitializer : initializer.Takes [.semicolon] := by
  intro us hus rest
  simp only [List.map_eq_cons_iff, List.map_eq_nil_iff] at hus
  obtain ⟨t, _, rfl, ht, rfl⟩ := hus
  refine .accept (by simp [ht]) ?_
  dsimp only
  rw [if_pos ht]
  exact .pure _ _

theorem declaredFirst (h : binding.Takes w) : initializer.Takes w := by
  intro us hus rest
  obtain ⟨keyword, vs, rfl, hkeyword, hvs⟩ := h hus
  refine .accept (by simp [hkeyword]) ?_
  dsimp only
  rw [hkeyword, if_neg (by decide)]
  exact (hvs rest).map some

theorem evaluatedFirst (hbegins : Symbol.expression.Begins w) (h : expression.Takes w) :
    initializer.Takes (w ++ [.semicolon]) := by
  intro us hus rest
  simp only [List.map_eq_cons_iff, List.map_eq_append_iff, List.map_eq_nil_iff] at hus
  obtain ⟨vs, _, rfl, hvs, t, _, rfl, ht, rfl⟩ := hus
  have hopens : StartsIn Expression.openingKinds vs := BeginsIn.startsIn hbegins hvs
  rw [List.append_assoc]
  refine .skip ((hopens.append _).outside (by decide)) (Parse.Takes.map ?_ some)
  exact Parse.Takes.bind (h.ended (by decide) hvs ht _ _) fun _ => .pure _ _

/-! ### Statements -/

/-- The declarations of a block and the brace behind them. -/
theorem braced (h : program.Takes w) {us : List Token} (hus : us.map Token.kind = w) {right : Token}
    (hright : right.kind = .rightBrace) {rest : List Token} {bound : Nat}
    (hbound : us.length + rest.length + 1 < bound) :
    (Statement.block (bound + 1) (haltingReaders bound)).Takes (us ++ right :: rest) rest := by
  refine Parse.Takes.bind (h hus [.rightBrace, .endOfInput] (haltingReaders bound).declaration
    (bound + 1) (right :: rest) (List.Subset.refl _) (by simp [hright]) ?_ (by omega)) fun _ => ?_
  · intro ts mid hlength hts
    rw [List.length_cons] at hlength
    exact hts.again (fun b => (haltingReaders b).declaration) (by omega)
  · exact (Parse.Takes.expect hright _ _).bind fun _ => .pure _ _

theorem block (h : program.Takes w) : statement.Takes (.leftBrace :: (w ++ [.rightBrace])) := by
  intro us hus
  simp only [List.map_eq_cons_iff, List.map_eq_append_iff, List.map_eq_nil_iff] at hus
  obtain ⟨left, _, rfl, hleft, vs, _, rfl, hvs, right, _, rfl, hright, rfl⟩ := hus
  refine ⟨0, ?_⟩
  rintro mid _ rfl bound hbound
  simp only [List.length_append, List.length_cons, List.length_nil] at hbound
  have happend : left :: (vs ++ [right]) ++ mid = left :: (vs ++ right :: mid) := by simp
  rw [happend]
  refine .accept (by simp [hleft]) ?_
  simp only [hleft]
  exact Parse.Takes.bind (h.braced hvs hright (by omega)) fun _ => .pure _ _

theorem evaluated (hbegins : Symbol.expression.Begins w) (h : expression.Takes w) :
    statement.Takes (w ++ [.semicolon]) := by
  intro us hus
  simp only [List.map_eq_cons_iff, List.map_eq_append_iff, List.map_eq_nil_iff] at hus
  obtain ⟨vs, _, rfl, hvs, t, _, rfl, ht, rfl⟩ := hus
  have hopens : StartsIn Expression.openingKinds vs := BeginsIn.startsIn hbegins hvs
  refine ⟨0, ?_⟩
  rintro mid _ rfl bound -
  rw [List.append_assoc]
  refine .skip ((hopens.append _).outside (by decide)) ?_
  exact Parse.Takes.bind (h.ended (by decide) hvs ht _ _) fun _ => .pure _ _

theorem print (h : expression.Takes w) : statement.Takes (.kwPrint :: (w ++ [.semicolon])) := by
  intro us hus
  simp only [List.map_eq_cons_iff, List.map_eq_append_iff, List.map_eq_nil_iff] at hus
  obtain ⟨keyword, _, rfl, hkeyword, vs, _, rfl, hvs, t, _, rfl, ht, rfl⟩ := hus
  refine ⟨0, ?_⟩
  rintro mid _ rfl bound -
  rw [List.cons_append, List.append_assoc]
  refine .accept (by simp [hkeyword]) ?_
  simp only [hkeyword]
  exact Parse.Takes.bind (h.ended (by decide) hvs ht _ _) fun _ => .pure _ _

theorem returning (h : clause.Takes w) : statement.Takes (.kwReturn :: (w ++ [.semicolon])) := by
  intro us hus
  simp only [List.map_eq_cons_iff, List.map_eq_append_iff, List.map_eq_nil_iff] at hus
  obtain ⟨keyword, _, rfl, hkeyword, vs, _, rfl, hvs, t, _, rfl, ht, rfl⟩ := hus
  refine ⟨0, ?_⟩
  rintro mid _ rfl bound -
  rw [List.cons_append, List.append_assoc]
  refine .accept (by simp [hkeyword]) ?_
  simp only [hkeyword]
  exact Parse.Takes.bind (h hvs _ _ t _ (by decide) ht) fun _ => .pure _ _

theorem whileLoop (hcondition : expression.Takes c) (hbody : statement.Takes w) :
    statement.Takes (.kwWhile :: .leftParen :: (c ++ .rightParen :: w)) := by
  intro us hus
  simp only [List.map_eq_cons_iff, List.map_eq_append_iff] at hus
  obtain ⟨keyword, _, rfl, hkeyword, opening, _, rfl, hopening, cs, _, rfl, hcs, closing, vs, rfl,
    hclosing, hvs⟩ := hus
  obtain ⟨count, hbody⟩ := hbody hvs
  refine ⟨count, fun mid rest hcloses bound hbound => ?_⟩
  simp only [List.length_append, List.length_cons] at hbound
  have happend : keyword :: opening :: (cs ++ closing :: vs) ++ mid =
      keyword :: opening :: (cs ++ closing :: (vs ++ mid)) := by simp
  rw [happend]
  refine .accept (by simp [hkeyword]) ?_
  simp only [hkeyword]
  refine Parse.Takes.bind (hcondition.inParentheses hopening hcs hclosing _ _ _) fun _ => ?_
  refine Parse.Takes.bind ((hbody mid rest hcloses).again (fun b => (haltingReaders b).statement)
    (by simp; omega)) fun _ => ?_
  exact .pure _ _

theorem forLoop (hinitializer : initializer.Takes i) (hcondition : clause.Takes c)
    (hincrement : clause.Takes e) (hbody : statement.Takes w) :
    statement.Takes
      (.kwFor :: .leftParen :: (i ++ (c ++ .semicolon :: (e ++ .rightParen :: w)))) := by
  intro us hus
  simp only [List.map_eq_cons_iff, List.map_eq_append_iff] at hus
  obtain ⟨keyword, _, rfl, hkeyword, opening, _, rfl, hopening, is, _, rfl, his, cs, _, rfl, hcs,
    t, _, rfl, ht, es, _, rfl, hes, t', vs, rfl, ht', hvs⟩ := hus
  obtain ⟨count, hbody⟩ := hbody hvs
  refine ⟨count, fun mid rest hcloses bound hbound => ?_⟩
  simp only [List.length_append, List.length_cons] at hbound
  have happend : keyword :: opening :: (is ++ (cs ++ t :: (es ++ t' :: vs))) ++ mid =
      keyword :: opening :: (is ++ (cs ++ t :: (es ++ t' :: (vs ++ mid)))) := by simp
  rw [happend]
  refine .accept (by simp [hkeyword]) ?_
  simp only [hkeyword]
  refine (Parse.Takes.expect hopening _ _).bind fun _ => ?_
  refine (hinitializer his _).bind fun _ => ?_
  refine (hcondition hcs _ _ t _ (by decide) ht).bind fun _ => ?_
  refine (hincrement hes _ _ t' _ (by decide) ht').bind fun _ => ?_
  refine Parse.Takes.bind ((hbody mid rest hcloses).again (fun b => (haltingReaders b).statement)
    (by simp; omega)) fun _ => ?_
  exact .pure _ _

/-- A choice does behind its first branch what the branch does, and then what a choice does. -/
theorem chooses (hcondition : expression.Takes c) {keyword opening closing : Token}
    (hkeyword : keyword.kind = .kwIf) (hopening : opening.kind = .leftParen) {cs : List Token}
    (hcs : cs.map Token.kind = c) (hclosing : closing.kind = .rightParen) {vs : List Token}
    {count : Nat} (hthen : ∀ mid rest, Closes mid rest count →
      EventuallyTakes (fun bound => (haltingReaders (bound + 1)).statement) (vs ++ mid) rest)
    {mid rest : List Token} (hcloses : Closes mid rest (count + 1)) :
    EventuallyTakes (fun bound => (haltingReaders (bound + 1)).statement)
      (keyword :: opening :: (cs ++ closing :: (vs ++ mid))) rest := by
  intro bound hbound
  simp only [List.length_append, List.length_cons] at hbound
  obtain ⟨next, hnext, _, hattaches, rfl⟩ := Statement.closes_add.mp hcloses
  have hlength := hnext.length_le
  refine .accept (by simp [hkeyword]) ?_
  simp only [hkeyword]
  refine Parse.Takes.bind (hcondition.inParentheses hopening hcs hclosing _ _ _) fun _ => ?_
  refine Parse.Takes.bind ((hthen mid next hnext).again (fun b => (haltingReaders b).statement)
    (by simp; omega)) fun _ => ?_
  exact Parse.Takes.bind (hattaches.takes (by omega)) fun _ => .pure _ _

theorem branch (hcondition : expression.Takes c) (hthen : statement.Takes w) :
    statement.Takes (.kwIf :: .leftParen :: (c ++ .rightParen :: w)) := by
  intro us hus
  simp only [List.map_eq_cons_iff, List.map_eq_append_iff] at hus
  obtain ⟨keyword, _, rfl, hkeyword, opening, _, rfl, hopening, cs, _, rfl, hcs, closing, vs, rfl,
    hclosing, hvs⟩ := hus
  obtain ⟨count, hthen⟩ := hthen hvs
  refine ⟨count + 1, fun mid rest hcloses => ?_⟩
  simpa using hcondition.chooses hkeyword hopening hcs hclosing hthen hcloses

/-- The `else` is taken by the innermost choice that can take it, whichever one it belongs to. -/
theorem branchElse (hcondition : expression.Takes c) (hthen : statement.Takes w)
    (helse : statement.Takes w') :
    statement.Takes (.kwIf :: .leftParen :: (c ++ .rightParen :: (w ++ .kwElse :: w'))) := by
  intro us hus
  simp only [List.map_eq_cons_iff, List.map_eq_append_iff] at hus
  obtain ⟨keyword, _, rfl, hkeyword, opening, _, rfl, hopening, cs, _, rfl, hcs, closing, _, rfl,
    hclosing, us, _, rfl, hus, keywordElse, vs, rfl, hkeywordElse, hvs⟩ := hus
  obtain ⟨first, hthen⟩ := hthen hus
  obtain ⟨second, helse⟩ := helse hvs
  refine ⟨second + first, fun mid rest hcloses => ?_⟩
  obtain ⟨next, hnext, hback⟩ := Statement.closes_add.mp hcloses
  have hattaches : Statement.Attaches (keywordElse :: (vs ++ mid)) next := by
    refine .inr ⟨keywordElse, vs ++ mid, rfl, hkeywordElse, ?_, helse mid next hnext⟩
    have hlength := hnext.length_le
    rw [List.length_append]
    omega
  have hchosen := hcondition.chooses hkeyword hopening hcs hclosing hthen ⟨next, hattaches, hback⟩
  simpa using hchosen

/-! ### Declarations -/

theorem function {count : Nat} (hbody : program.Takes w) :
    declaration.Takes (.kwFun :: .identifier :: .leftParen ::
      (commaSeparated (List.replicate count [.identifier]) ++
        .rightParen :: .leftBrace :: (w ++ [.rightBrace]))) := by
  intro us hus rest _ bound hbound
  simp only [List.map_eq_cons_iff, List.map_eq_append_iff, List.map_eq_nil_iff] at hus
  obtain ⟨keyword, _, rfl, hkeyword, name, _, rfl, hname, opening, _, rfl, hopening, ps, _, rfl,
    hps, closing, _, rfl, hclosing, left, _, rfl, hleft, vs, _, rfl, hvs, right, _, rfl, hright,
    rfl⟩ := hus
  simp only [List.length_append, List.length_cons, List.length_nil] at hbound
  have takesParameters : (Statement.parameters (bound + 1)).Takes
      (ps ++ closing :: left :: (vs ++ right :: rest))
      (closing :: left :: (vs ++ right :: rest)) := by
    have hbegins : ∀ v ∈ List.replicate count [Kind.identifier], BeginsIn [.identifier] v := by
      intro v hv
      rw [List.eq_of_mem_replicate hv]
      exact List.mem_singleton.mpr rfl
    refine .entriesUnlessAt hps (fun v hv us mid hus _ _ => ?_) hbegins (by decide)
      (by simp [hclosing]) (by omega)
    rw [List.eq_of_mem_replicate hv] at hus
    obtain ⟨p, us, rfl, hp, hus⟩ := List.map_eq_cons_iff.mp hus
    obtain rfl := List.map_eq_nil_iff.mp hus
    exact .expect hp _ _
  have happend : keyword :: name :: opening :: (ps ++ closing :: left :: (vs ++ [right])) ++ rest =
      keyword :: name :: opening :: (ps ++ closing :: left :: (vs ++ right :: rest)) := by simp
  rw [happend]
  refine Parse.Takes.map (.accept (by simp [hkeyword]) ?_) some
  dsimp only
  rw [if_pos hkeyword]
  refine (Parse.Takes.expect hname _ _).bind fun _ => ?_
  refine (Parse.Takes.expect hopening _ _).bind fun _ => takesParameters.bind fun _ => ?_
  refine (Parse.Takes.expect hclosing _ _).bind fun _ => ?_
  refine (Parse.Takes.expect hleft _ _).bind fun _ => ?_
  exact Parse.Takes.bind (hbody.braced hvs hright (by omega)) fun _ => .pure _ _

theorem declared (h : binding.Takes w) : declaration.Takes w := by
  intro us hus rest _ bound _
  obtain ⟨keyword, vs, rfl, hkeyword, hvs⟩ := h hus
  refine Parse.Takes.map (.accept (by simp [hkeyword]) ?_) some
  dsimp only
  rw [hkeyword, if_neg (by decide)]
  exact hvs rest

theorem stated (hbegins : Symbol.statement.Begins w) (h : statement.Takes w) :
    declaration.Takes w := by
  intro us hus rest hrest bound hbound
  have hopens : StartsIn Statement.statementKinds us := BeginsIn.startsIn hbegins hus
  obtain ⟨count, h⟩ := h hus
  refine Parse.Takes.map (.skip ((hopens.append _).outside (by decide)) ?_) some
  exact h rest rest (Statement.closes_self hrest count) bound hbound

/-- No declaration starts with an `else`. -/
theorem declarations {ws : List (List Kind)} (hbegins : ∀ v ∈ ws, Symbol.declaration.Begins v)
    (hws : ∀ v ∈ ws, declaration.Takes v) : program.Takes ws.flatten := by
  induction ws with
  | nil =>
    intro us hus closers entry steps rest _ hrest _ hsteps
    obtain rfl := List.map_eq_nil_iff.mp hus
    obtain ⟨steps, rfl⟩ : ∃ s, steps = s + 1 := ⟨steps - 1, by simp at hsteps; omega⟩
    exact .closed hrest (.pure _ _)
  | cons v ws ih =>
    intro us hus closers entry steps rest hclosers hrest hentry hsteps
    obtain ⟨us, vs, rfl, hus, hvs⟩ := List.map_eq_append_iff.mp hus
    have hopens : StartsIn Statement.declarationKinds us :=
      BeginsIn.startsIn (hbegins v (.head _)) hus
    have hpos : 0 < us.length := by
      cases us with
      | nil => exact hopens.elim
      | cons u us => simp
    have hout : StartsOutside closers (us ++ (vs ++ rest)) := by
      have hkinds : ∀ kind ∈ Statement.declarationKinds, kind ∉ [Kind.rightBrace, .endOfInput] := by
        decide
      exact (hopens.append _).outside fun kind hkind hmem => hkinds kind hkind (hclosers hmem)
    have hstops : StartsOutside [.kwElse] (vs ++ rest) := by
      cases ws with
      | nil =>
        obtain rfl := List.map_eq_nil_iff.mp hvs
        exact (hrest.mono hclosers).outside (by decide)
      | cons v' ws =>
        have hnext : BeginsIn Statement.declarationKinds (v' ++ ws.flatten) :=
          BeginsIn.append (hbegins v' (by simp)) _
        exact ((hnext.startsIn hvs).append _).outside (by decide)
    simp only [List.length_append] at hentry hsteps
    obtain ⟨steps, rfl⟩ : ∃ s, steps = s + 1 := ⟨steps - 1, by omega⟩
    rw [List.append_assoc]
    refine .entered hout (Parse.Takes.bind (hentry _ _ (by simp; omega)
      (hws v (.head _) hus _ hstops)) fun first => ?_)
    have hothers := ih (fun v hv => hbegins v (.tail _ hv)) fun v hv => hws v (.tail _ hv)
    refine Parse.Takes.bind (hothers hvs closers entry steps rest hclosers hrest
      (fun ts mid hlength => hentry ts mid (by omega)) (by omega)) fun _ => .pure _ _

end Symbol.Takes

/-- The tokens of an admitted word are taken as what its symbol stands for. -/
theorem Admits.takes {s : Symbol} {w : List Kind} (h : Admits s w) : s.Takes w := by
  induction h with
  | program h ih => exact .declarations (fun v hv => (h v hv).begins) ih
  | function _ ih => exact .function ih
  | declared _ ih => exact .declared ih
  | stated h ih => exact .stated h.begins ih
  | bare => exact .bare
  | initialized _ ih => exact .initialized ih
  | forLoop _ _ _ _ ih ih' ih'' ih''' => exact .forLoop ih ih' ih'' ih'''
  | whileLoop _ _ ih ih' => exact .whileLoop ih ih'
  | branch _ _ ih ih' => exact .branch ih ih'
  | branchElse _ _ _ ih ih' ih'' => exact .branchElse ih ih' ih''
  | print _ ih => exact .print ih
  | returning _ ih => exact .returning ih
  | block _ ih => exact .block ih
  | evaluated h ih => exact .evaluated h.begins ih
  | noInitializer => exact .noInitializer
  | declaredFirst _ ih => exact .declaredFirst ih
  | evaluatedFirst h ih => exact .evaluatedFirst h.begins ih
  | noClause => exact .noClause
  | clause h ih => exact .given h.begins ih
  | assignment _ _ ih ih' => exact .assignment ih ih'
  | choice _ ih => exact .chosen ih
  | ternary _ _ _ ih ih' ih'' => exact .choice ih ih' ih''
  | joins _ ih => exact .joins ih
  | join _ hk _ ih ih' => exact .join hk ih ih'
  | tighter _ ih => exact .tighter ih
  | operand _ ih => exact .operand ih
  | unary hk _ ih => exact .negated hk ih
  | tight h ih => exact .tight h.begins ih
  | call _ hws ih ih' => exact .callee ih (fun v hv => (hws v hv).begins) ih'
  | atom _ ih => exact .atom ih
  | constant hk => exact .constant hk
  | grouping _ ih => exact .grouping ih

/-- A program of the lenient grammar is read up to its end of input without a syntax error. -/
theorem IsStream.takes {ts : List Token} (h : IsStream ts) :
    ∃ e, e.kind = .endOfInput ∧ Parse.haltingProgram.Takes ts [e] := by
  obtain ⟨front, e, rfl, he, hfront⟩ := h
  refine ⟨e, he, ?_⟩
  have hread := hfront.takes rfl [.endOfInput] Parse.haltingDeclaration
    ((front ++ [e]).length + 1) [e] (by simp) (List.mem_singleton.mpr he) ?_
    (by rw [List.length_append]; omega)
  · obtain ⟨ns, reports, hres⟩ := hread
    exact ⟨ns, reports, hres⟩
  · intro ts mid _ hts
    obtain ⟨o, reports, hres⟩ := hts ts.length (Nat.le_refl _)
    exact ⟨o, reports, hres⟩

end Grammar

end Lox
