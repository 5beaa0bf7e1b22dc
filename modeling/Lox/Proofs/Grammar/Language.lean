import Lox.Proofs.Grammar.Derivation
import Lox.Proofs.Grammar.Statement.Completeness

/-!
# The language

A list of tokens is read without a report exactly if what is in front of its first end of input
is derivable. The rules of `Expression.Spells` and `Statement.Spells` are between the two: they
single out one derivation, and a derivation can always be turned into that one. For operands this
means that a chain is made longer at its end, for an `else` that it goes over to the nearest `if`.

## Main definitions

* `Grammar.Symbol.Spelled`: tokens spell what a symbol stands for.
* `Grammar.Symbol.Covers`: all tokens of some kinds do.

## Main results

* `Statement.Spells.attach`: an `else` goes over to the nearest `if`.
* `Grammar.derives_iff_spells`: derivable words are those of phrases.
* `Parse.program_reports_eq_nil_iff`: what is read without a report.
-/

namespace Lox

/-! ### Derivable words are those of phrases -/

namespace Expression

theorem spells_arguments {ws : List (List Kind)} (hlength : ws.length ≤ maxEntries)
    (hws : ∀ w ∈ ws, ∀ us : List Token, us.map Token.kind = w → ∃ n, Spells .assignment [n] us)
    {us : List Token} (h : us.map Token.kind = Grammar.commaSeparated ws) :
    ∃ ns, Spells .arguments ns us := by
  cases ws with
  | nil =>
    obtain rfl := List.map_eq_nil_iff.mp h
    exact ⟨[], .none⟩
  | cons w ws =>
    suffices hentries : ∃ ns, Spells .entries ns us ∧ ns.length = (w :: ws).length by
      obtain ⟨ns, hns, heq⟩ := hentries
      exact ⟨ns, .some (by omega) hns⟩
    clear hlength
    induction ws generalizing w us with
    | nil =>
      obtain ⟨n, hn⟩ := hws w (.head _) us h
      exact ⟨[n], .last hn, rfl⟩
    | cons w' ws ih =>
      obtain ⟨us, vs, rfl, hus, hvs⟩ := List.map_eq_append_iff.mp h
      obtain ⟨comma, vs, rfl, hcomma, hvs⟩ := List.map_eq_cons_iff.mp hvs
      obtain ⟨n, hn⟩ := hws w (.head _) us hus
      obtain ⟨ns, hns, heq⟩ := ih w' (fun v hv => hws v (.tail _ hv)) hvs
      exact ⟨n :: ns, .cons hn hcomma hns, by rw [List.length_cons, heq]; rfl⟩

end Expression

namespace Statement

/-- An `else` and a statement behind an open statement go over to the nearest `if` that they can
belong to. -/
theorem Spells.attach {n elseBranch : Node} {us vs : List Token} {keywordElse : Token}
    {isOpen : Bool} (h : Spells (.statement true) [n] us) (hkeywordElse : keywordElse.kind = .kwElse)
    (helse : Spells (.statement isOpen) [elseBranch] vs) :
    ∃ isOpen' n', Spells (.statement isOpen') [n'] (us ++ keywordElse :: vs) := by
  generalize hs : Symbol.statement true = s at h
  generalize [n] = ns at h
  induction h with
  | @branch _ isOpen' _ _ _ _ hkeyword hcondition hthen ih =>
    cases isOpen' with
    | true =>
      obtain ⟨isOpen', n', hspells⟩ := ih rfl
      have hbranch := Spells.branch hkeyword hcondition hspells
      exact ⟨true, _, by simpa using hbranch⟩
    | false =>
      have hbranch := Spells.branchElse hkeyword hcondition hthen hkeywordElse helse
      exact ⟨isOpen, _, by simpa using hbranch⟩
  | branchElse hkeyword hcondition hthen hkeywordElse' _ _ ih =>
    cases hs
    obtain ⟨isOpen', n', hspells⟩ := ih rfl
    have hbranch := Spells.branchElse hkeyword hcondition hthen hkeywordElse' hspells
    exact ⟨isOpen', _, by simpa using hbranch⟩
  | whileLoop hkeyword hcondition _ ih =>
    cases hs
    obtain ⟨isOpen', n', hspells⟩ := ih rfl
    have hloop := Spells.whileLoop hkeyword hcondition hspells
    exact ⟨isOpen', _, by simpa using hloop⟩
  | forLoop hkeyword hopening hinitializer hcondition hincrement _ ih =>
    cases hs
    obtain ⟨isOpen', n', hspells⟩ := ih rfl
    have hloop :=
      Spells.forLoop hkeyword hopening hinitializer hcondition hincrement hspells
    exact ⟨isOpen', _, by simpa using hloop⟩
  | _ => cases hs

end Statement

namespace Grammar

/-- Tokens that spell what a symbol derives. -/
def Symbol.Spelled (ts : List Token) : Symbol → Prop
  | program => ∃ ns, Statement.Spells .declarations ns ts
  | declaration => ∃ n, Statement.Spells .declaration [n] ts
  | binding => ∃ keyword us n, ts = keyword :: us ∧ keyword.kind = .kwVar ∧
      Statement.Variable n us
  | statement => ∃ isOpen n, Statement.Spells (.statement isOpen) [n] ts
  | initializer => ∃ o, Statement.Initializer o ts
  | clause => ∀ t : Token, ∃ o, Statement.OptionallyEnded t.kind o (ts ++ [t])
  | expression => ∃ n, Expression.Spells .assignment [n] ts
  | ternary => ∃ n, Expression.Spells .ternary [n] ts
  | tier levels => ∀ level, level <:+ Expression.tiers → level.map Prod.fst = levels →
      ∃ n, Expression.Spells (.tier level) [n] ts
  | unary => ∃ n, Expression.Spells .unary [n] ts
  | call => ∃ n, Expression.Spells .call [n] ts
  | primary => ∃ n, Expression.Spells .primary [n] ts

theorem listed_of_map_kind {count : Nat} {us : List Token}
    (h : us.map Token.kind = commaSeparated (List.replicate (count + 1) [.identifier])) :
    ∃ ps, Statement.Listed ps us ∧ ps.length = count + 1 := by
  induction count generalizing us with
  | zero =>
    obtain ⟨p, us, rfl, hp, hus⟩ := List.map_eq_cons_iff.mp h
    obtain rfl := List.map_eq_nil_iff.mp hus
    exact ⟨[p], .last hp, rfl⟩
  | succ count ih =>
    obtain ⟨p, us, rfl, hp, hus⟩ := List.map_eq_cons_iff.mp h
    obtain ⟨comma, us, rfl, hcomma, hus⟩ := List.map_eq_cons_iff.mp hus
    obtain ⟨ps, hps, hlength⟩ := ih hus
    exact ⟨p :: ps, .cons hp hcomma hps, by rw [List.length_cons, hlength]⟩

theorem parameters_of_map_kind {count : Nat} (hcount : count ≤ maxEntries) {us : List Token}
    (h : us.map Token.kind = commaSeparated (List.replicate count [.identifier])) :
    ∃ ps, Statement.Parameters ps us := by
  cases count with
  | zero =>
    obtain rfl := List.map_eq_nil_iff.mp h
    exact ⟨[], .none⟩
  | succ count =>
    obtain ⟨ps, hps, hlength⟩ := listed_of_map_kind h
    exact ⟨ps, .some (by omega) hps⟩

theorem spells_declarations {ws : List (List Kind)} {us : List Token}
    (hws : ∀ w ∈ ws, ∀ us : List Token, us.map Token.kind = w →
      ∃ n, Statement.Spells .declaration [n] us)
    (h : us.map Token.kind = ws.flatten) : ∃ ns, Statement.Spells .declarations ns us := by
  induction ws generalizing us with
  | nil =>
    obtain rfl := List.map_eq_nil_iff.mp h
    exact ⟨[], .nil⟩
  | cons w ws ih =>
    obtain ⟨us, vs, rfl, hus, hvs⟩ := List.map_eq_append_iff.mp h
    obtain ⟨n, hn⟩ := hws w (.head _) us hus
    obtain ⟨ns, hns⟩ := ih (fun v hv => hws v (.tail _ hv)) hvs
    exact ⟨n :: ns, .cons hn hns⟩

/-- Whatever tokens have these kinds, they spell the symbol. -/
def Symbol.Covers (s : Symbol) (w : List Kind) : Prop :=
  ∀ ⦃ts : List Token⦄, ts.map Token.kind = w → s.Spelled ts

namespace Symbol.Covers

variable {w w' c i e : List Kind}

/-! ### Declarations and statements -/

theorem ended (h : expression.Covers w) {ts : List Token}
    (hts : ts.map Token.kind = w ++ [.semicolon]) : ∃ n, Statement.Ended .semicolon n ts := by
  simp only [List.map_eq_cons_iff, List.map_eq_append_iff, List.map_eq_nil_iff] at hts
  obtain ⟨us, _, rfl, hus, t, _, rfl, ht, rfl⟩ := hts
  obtain ⟨n, hn⟩ := h hus
  exact ⟨n, us, t, rfl, ht, hn⟩

theorem function {count : Nat} (hcount : count ≤ maxEntries) (hbody : program.Covers w) :
    declaration.Covers (.kwFun :: .identifier :: .leftParen ::
      (commaSeparated (List.replicate count [.identifier]) ++
        .rightParen :: .leftBrace :: (w ++ [.rightBrace]))) := by
  intro ts hts
  simp only [List.map_eq_cons_iff, List.map_eq_append_iff, List.map_eq_nil_iff] at hts
  obtain ⟨keyword, _, rfl, hkeyword, name, _, rfl, hname, opening, _, rfl, hopening, ps, _, rfl,
    hps, closing, _, rfl, hclosing, left, _, rfl, hleft, us, _, rfl, hus, right, _, rfl, hright,
    rfl⟩ := hts
  obtain ⟨params, hparams⟩ := parameters_of_map_kind hcount hps
  obtain ⟨body, hbody⟩ := hbody hus
  exact ⟨_, .function hkeyword hname hopening hparams hclosing hleft hbody hright⟩

theorem bare : binding.Covers [.kwVar, .identifier, .semicolon] := by
  intro ts hts
  simp only [List.map_eq_cons_iff, List.map_eq_nil_iff] at hts
  obtain ⟨keyword, _, rfl, hkeyword, name, _, rfl, hname, t, _, rfl, ht, rfl⟩ := hts
  exact ⟨keyword, _, _, rfl, hkeyword, .bare hname ht⟩

theorem initialized (h : expression.Covers w) :
    binding.Covers (.kwVar :: .identifier :: .equal :: (w ++ [.semicolon])) := by
  intro ts hts
  simp only [List.map_eq_cons_iff] at hts
  obtain ⟨keyword, _, rfl, hkeyword, name, _, rfl, hname, equals, us, rfl, hequals, hus⟩ := hts
  obtain ⟨n, hended⟩ := h.ended hus
  exact ⟨keyword, _, _, rfl, hkeyword, .initialized hname hequals hended⟩

theorem forLoop (hinitializer : initializer.Covers i) (hcondition : clause.Covers c)
    (hincrement : clause.Covers e) (hbody : statement.Covers w) :
    statement.Covers
      (.kwFor :: .leftParen :: (i ++ (c ++ .semicolon :: (e ++ .rightParen :: w)))) := by
  intro ts hts
  simp only [List.map_eq_cons_iff, List.map_eq_append_iff] at hts
  obtain ⟨keyword, _, rfl, hkeyword, opening, _, rfl, hopening, is, _, rfl, his, cs, _, rfl, hcs,
    t, _, rfl, ht, es, _, rfl, hes, t', us, rfl, ht', hus⟩ := hts
  obtain ⟨initializer, hinitializer⟩ := hinitializer his
  obtain ⟨condition, hcondition⟩ := hcondition hcs t
  obtain ⟨increment, hincrement⟩ := hincrement hes t'
  obtain ⟨isOpen, body, hbody⟩ := hbody hus
  rw [ht] at hcondition
  rw [ht'] at hincrement
  have hloop :=
    Statement.Spells.forLoop hkeyword hopening hinitializer hcondition hincrement hbody
  exact ⟨isOpen, _, by simpa using hloop⟩

theorem whileLoop (hcondition : expression.Covers c) (hbody : statement.Covers w) :
    statement.Covers (.kwWhile :: .leftParen :: (c ++ .rightParen :: w)) := by
  intro ts hts
  simp only [List.map_eq_cons_iff, List.map_eq_append_iff] at hts
  obtain ⟨keyword, _, rfl, hkeyword, opening, _, rfl, hopening, cs, _, rfl, hcs, closing, us, rfl,
    hclosing, hus⟩ := hts
  obtain ⟨condition, hcondition⟩ := hcondition hcs
  obtain ⟨isOpen, body, hbody⟩ := hbody hus
  have hloop := Statement.Spells.whileLoop hkeyword
    ⟨opening, _, rfl, hopening, cs, closing, rfl, hclosing, hcondition⟩ hbody
  exact ⟨isOpen, _, by simpa using hloop⟩

theorem branch (hcondition : expression.Covers c) (hthen : statement.Covers w) :
    statement.Covers (.kwIf :: .leftParen :: (c ++ .rightParen :: w)) := by
  intro ts hts
  simp only [List.map_eq_cons_iff, List.map_eq_append_iff] at hts
  obtain ⟨keyword, _, rfl, hkeyword, opening, _, rfl, hopening, cs, _, rfl, hcs, closing, us, rfl,
    hclosing, hus⟩ := hts
  obtain ⟨condition, hcondition⟩ := hcondition hcs
  obtain ⟨isOpen, thenBranch, hthen⟩ := hthen hus
  have hbranch := Statement.Spells.branch hkeyword
    ⟨opening, _, rfl, hopening, cs, closing, rfl, hclosing, hcondition⟩ hthen
  exact ⟨true, _, by simpa using hbranch⟩

theorem branchElse (hcondition : expression.Covers c) (hthen : statement.Covers w)
    (helse : statement.Covers w') :
    statement.Covers
      (.kwIf :: .leftParen :: (c ++ .rightParen :: (w ++ .kwElse :: w'))) := by
  intro ts hts
  simp only [List.map_eq_cons_iff, List.map_eq_append_iff] at hts
  obtain ⟨keyword, _, rfl, hkeyword, opening, _, rfl, hopening, cs, _, rfl, hcs, closing, _, rfl,
    hclosing, us, _, rfl, hus, keywordElse, vs, rfl, hkeywordElse, hvs⟩ := hts
  obtain ⟨condition, hcondition⟩ := hcondition hcs
  obtain ⟨isOpen, thenBranch, hthen⟩ := hthen hus
  obtain ⟨isOpen', elseBranch, helse⟩ := helse hvs
  have hcondition : Statement.Condition condition (opening :: (cs ++ [closing])) :=
    ⟨opening, _, rfl, hopening, cs, closing, rfl, hclosing, hcondition⟩
  cases isOpen with
  | false =>
    have hbranch := Statement.Spells.branchElse hkeyword hcondition hthen hkeywordElse helse
    exact ⟨isOpen', _, by simpa using hbranch⟩
  | true =>
    -- The first branch takes the `else`.
    obtain ⟨isOpen'', n, hspells⟩ := hthen.attach hkeywordElse helse
    have hbranch := Statement.Spells.branch hkeyword hcondition hspells
    exact ⟨true, _, by simpa using hbranch⟩

theorem print (h : expression.Covers w) :
    statement.Covers (.kwPrint :: (w ++ [.semicolon])) := by
  intro ts hts
  obtain ⟨keyword, us, rfl, hkeyword, hus⟩ := List.map_eq_cons_iff.mp hts
  obtain ⟨n, hended⟩ := h.ended hus
  exact ⟨false, _, .print hkeyword hended⟩

theorem returning (h : clause.Covers w) :
    statement.Covers (.kwReturn :: (w ++ [.semicolon])) := by
  intro ts hts
  simp only [List.map_eq_cons_iff, List.map_eq_append_iff, List.map_eq_nil_iff] at hts
  obtain ⟨keyword, _, rfl, hkeyword, us, _, rfl, hus, t, _, rfl, ht, rfl⟩ := hts
  obtain ⟨value, hvalue⟩ := h hus t
  exact ⟨false, _, .returning hkeyword (ht ▸ hvalue)⟩

theorem block (h : program.Covers w) :
    statement.Covers (.leftBrace :: (w ++ [.rightBrace])) := by
  intro ts hts
  simp only [List.map_eq_cons_iff, List.map_eq_append_iff, List.map_eq_nil_iff] at hts
  obtain ⟨left, _, rfl, hleft, us, _, rfl, hus, right, _, rfl, hright, rfl⟩ := hts
  obtain ⟨ns, hns⟩ := h hus
  exact ⟨false, _, .block hleft hns hright⟩

/-! ### Expressions -/

theorem assignment (h : expression.Covers w) :
    expression.Covers (.identifier :: .equal :: w) := by
  intro ts hts
  simp only [List.map_eq_cons_iff] at hts
  obtain ⟨name, _, rfl, hname, equals, us, rfl, hequals, hus⟩ := hts
  obtain ⟨value, hvalue⟩ := h hus
  have htarget := (Expression.Spells.reference hname).primary_ternary
  exact ⟨_, .assignment htarget hequals hvalue⟩

theorem ternary (hcondition : (tier operators).Covers c) (hthen : Symbol.ternary.Covers w)
    (helse : Symbol.ternary.Covers w') :
    Symbol.ternary.Covers (c ++ .question :: (w ++ .colon :: w')) := by
  intro ts hts
  simp only [List.map_eq_cons_iff, List.map_eq_append_iff] at hts
  obtain ⟨us, _, rfl, hus, question, _, rfl, hquestion, vs, _, rfl, hvs, colon, ws, rfl, hcolon,
    hws⟩ := hts
  obtain ⟨condition, hcondition⟩ := hcondition hus _ (List.suffix_refl _) rfl
  obtain ⟨thenBranch, hthen⟩ := hthen hvs
  obtain ⟨elseBranch, helse⟩ := helse hws
  exact ⟨_, .ternary hcondition hquestion hthen hcolon helse⟩

theorem join {level : List Kind} {levels : List (List Kind)} {k : Kind} (hk : k ∈ level)
    (hleft : (tier (level :: levels)).Covers w) (hright : (tier levels).Covers w') :
    (tier (level :: levels)).Covers (w ++ k :: w') := by
  intro ts hts
  simp only [List.map_eq_cons_iff, List.map_eq_append_iff] at hts
  obtain ⟨us, _, rfl, hus, operator, vs, rfl, rfl, hvs⟩ := hts
  intro above hlevel hmap
  obtain ⟨⟨operators, make⟩, tighter, rfl, rfl, htighter⟩ := List.map_eq_cons_iff.mp hmap
  obtain ⟨left, hleft⟩ := hleft hus _ hlevel hmap
  obtain ⟨right, hright⟩ := hright hvs _ ((List.suffix_cons _ _).trans hlevel) htighter
  exact ⟨_, hleft.snoc_tier hlevel hk hright⟩

theorem tighter {level : List Kind} {levels : List (List Kind)} (h : (tier levels).Covers w) :
    (tier (level :: levels)).Covers w := by
  intro ts hts above hlevel hmap
  obtain ⟨t, tighter, rfl, -, hmap⟩ := List.map_eq_cons_iff.mp hmap
  obtain ⟨n, hn⟩ := h hts _ ((List.suffix_cons _ _).trans hlevel) hmap
  exact ⟨n, hn.lift⟩

theorem operand (h : Symbol.unary.Covers w) : (tier []).Covers w := by
  intro ts hts level _ hmap
  obtain rfl := List.map_eq_nil_iff.mp hmap
  obtain ⟨n, hn⟩ := h hts
  exact ⟨n, .operand hn⟩

theorem unary {k : Kind} (hk : k ∈ [Kind.bang, .minus]) (h : Symbol.unary.Covers w) :
    Symbol.unary.Covers (k :: w) := by
  intro ts hts
  obtain ⟨operator, us, rfl, rfl, hus⟩ := List.map_eq_cons_iff.mp hts
  obtain ⟨n, hn⟩ := h hus
  exact ⟨_, .unary hk hn⟩

theorem call {ws : List (List Kind)} (hcallee : Symbol.call.Covers w)
    (hlength : ws.length ≤ maxEntries) (hws : ∀ v ∈ ws, expression.Covers v) :
    Symbol.call.Covers (w ++ .leftParen :: (commaSeparated ws ++ [.rightParen])) := by
  intro ts hts
  simp only [List.map_eq_cons_iff, List.map_eq_append_iff, List.map_eq_nil_iff] at hts
  obtain ⟨us, _, rfl, hus, opening, _, rfl, hopening, vs, _, rfl, hvs, closing, _, rfl, hclosing,
    rfl⟩ := hts
  obtain ⟨callee, hcallee⟩ := hcallee hus
  obtain ⟨ns, hns⟩ := Expression.spells_arguments hlength hws hvs
  exact ⟨_, hcallee.snoc_call hopening hns hclosing⟩

theorem constant {k : Kind}
    (hk : k ∈ [Kind.kwFalse, .kwTrue, .kwNil, .number, .string, .identifier]) :
    primary.Covers [k] := by
  intro ts hts
  obtain ⟨t, _, rfl, rfl, hus⟩ := List.map_eq_cons_iff.mp hts
  obtain rfl := List.map_eq_nil_iff.mp hus
  by_cases hname : t.kind = .identifier
  · exact ⟨_, .reference hname⟩
  · obtain ⟨v, hv⟩ : ∃ v, t.constant? = some v := by
      simp only [List.mem_cons, List.not_mem_nil, or_false, hname] at hk
      rcases hk with hk | hk | hk | hk | hk <;> simp [Token.constant?, hk]
    exact ⟨_, .literal hv⟩

theorem grouping (h : expression.Covers w) :
    primary.Covers (.leftParen :: (w ++ [.rightParen])) := by
  intro ts hts
  simp only [List.map_eq_cons_iff, List.map_eq_append_iff, List.map_eq_nil_iff] at hts
  obtain ⟨opening, _, rfl, hopening, us, _, rfl, hus, closing, _, rfl, hclosing, rfl⟩ := hts
  obtain ⟨n, hn⟩ := h hus
  exact ⟨_, .grouping hopening hn hclosing⟩

end Symbol.Covers

theorem Derives.covers {s : Symbol} {w : List Kind} (h : Derives s w) : s.Covers w := by
  induction h with
  | program _ ih => exact fun ts hts => spells_declarations ih hts
  | function hcount _ ih => exact .function hcount ih
  | declared _ ih =>
    intro ts hts
    obtain ⟨keyword, us, n, rfl, hkeyword, hvariable⟩ := ih hts
    exact ⟨n, .declared hkeyword hvariable⟩
  | stated _ ih =>
    intro ts hts
    obtain ⟨isOpen, n, hspells⟩ := ih hts
    exact ⟨n, .statement hspells⟩
  | bare => exact .bare
  | initialized _ ih => exact .initialized ih
  | forLoop _ _ _ _ ih ih' ih'' ih''' => exact .forLoop ih ih' ih'' ih'''
  | whileLoop _ _ ih ih' => exact .whileLoop ih ih'
  | branch _ _ ih ih' => exact .branch ih ih'
  | branchElse _ _ _ ih ih' ih'' => exact .branchElse ih ih' ih''
  | print _ ih => exact .print ih
  | returning _ ih => exact .returning ih
  | block _ ih => exact .block ih
  | evaluated _ ih =>
    intro ts hts
    obtain ⟨n, hended⟩ := ih.ended hts
    exact ⟨false, _, .expression hended⟩
  | noInitializer =>
    intro ts hts
    simp only [List.map_eq_cons_iff, List.map_eq_nil_iff] at hts
    obtain ⟨t, _, rfl, ht, rfl⟩ := hts
    exact ⟨none, .none ht⟩
  | declaredFirst _ ih =>
    intro ts hts
    obtain ⟨keyword, us, n, rfl, hkeyword, hvariable⟩ := ih hts
    exact ⟨some n, .declared hkeyword hvariable⟩
  | evaluatedFirst _ ih =>
    intro ts hts
    obtain ⟨n, hended⟩ := ih.ended hts
    exact ⟨some _, .expression hended⟩
  | noClause =>
    intro ts hts t
    obtain rfl := List.map_eq_nil_iff.mp hts
    exact ⟨none, .none rfl⟩
  | clause _ ih =>
    intro ts hts t
    obtain ⟨n, hn⟩ := ih hts
    exact ⟨some n, .some ⟨ts, t, rfl, rfl, hn⟩⟩
  | assignment _ ih => exact .assignment ih
  | choice _ ih =>
    intro ts hts
    obtain ⟨n, hn⟩ := ih hts
    exact ⟨n, .choice hn⟩
  | ternary _ _ _ ih ih' ih'' => exact .ternary ih ih' ih''
  | joins _ ih =>
    intro ts hts
    obtain ⟨n, hn⟩ := ih hts _ (List.suffix_refl _) rfl
    exact ⟨n, .joins hn⟩
  | join _ hk _ ih ih' => exact .join hk ih ih'
  | tighter _ ih => exact .tighter ih
  | operand _ ih => exact .operand ih
  | unary hk _ ih => exact .unary hk ih
  | tight _ ih =>
    intro ts hts
    obtain ⟨n, hn⟩ := ih hts
    exact ⟨n, .tight hn⟩
  | call _ hlength _ ih ih' => exact .call ih hlength ih'
  | atom _ ih =>
    intro ts hts
    obtain ⟨n, hn⟩ := ih hts
    exact ⟨n, hn.primary_call⟩
  | constant hk => exact .constant hk
  | grouping _ ih => exact .grouping ih

end Grammar

/-- The words that a program may consist of are those of its phrases. -/
theorem Grammar.derives_iff_spells {ts : List Token} :
    Grammar.Derives .program (ts.map Token.kind) ↔ ∃ ns, Statement.Spells .declarations ns ts := by
  constructor
  · exact fun h => h.covers rfl
  · rintro ⟨ns, hns⟩
    exact hns.derives

/-- A list of tokens with an end of input is always read as declarations, and without a report
exactly if the grammar derives what is in front of its first end of input. -/
theorem Parse.program_reports_eq_nil_iff {ts : List Token} (hts : ∃ t ∈ ts, t.kind = .endOfInput) :
    ∃ ns reports rest, Parse.program ts = .done ns reports rest ∧
      (reports = [] ↔ Grammar.Derives .program ((beforeEnd ts).map Token.kind)) := by
  obtain ⟨ns, reports, e, rest, hres, he, htaken⟩ := Parse.program_total hts
  have hsplit := htaken.beforeEnd_append he
  refine ⟨ns, reports, e :: rest, hres, ?_⟩
  rw [Grammar.derives_iff_spells]
  constructor
  · rintro rfl
    obtain ⟨us, heq, hspells, -⟩ := Statement.spells_of_reads hres
    exact ⟨ns, List.append_cancel_right (heq.symm.trans hsplit) ▸ hspells⟩
  · rintro ⟨ns', hspells⟩
    have hrest : StartsIn [.endOfInput] (e :: rest) := List.mem_singleton.mpr he
    have hread := hspells.reads hrest
    rw [← hsplit] at hread
    exact (Parsed.done.inj (hres.symm.trans hread)).2.1

/-- The tokens of `print -a;`. -/
def Grammar.printNegated : List Token :=
  [⟨.kwPrint, "print", .nil, 1⟩, ⟨.minus, "-", .nil, 1⟩, ⟨.identifier, "a", .nil, 1⟩,
    ⟨.semicolon, ";", .nil, 1⟩, ⟨.endOfInput, "", .nil, 1⟩]

theorem Parse.program_reports_eq_nil_printNegated :
    ∃ ns rest, Parse.program Grammar.printNegated = .done ns [] rest := by
  have hend : ∃ t ∈ Grammar.printNegated, t.kind = .endOfInput :=
    ⟨⟨.endOfInput, "", .nil, 1⟩, by simp [Grammar.printNegated], rfl⟩
  have hatom : Grammar.Derives .unary [.identifier] := .tight (.atom (.constant (by decide)))
  have hnegated : Grammar.Derives (.tier []) [.minus, .identifier] :=
    .operand (.unary (by decide) hatom)
  have hexpression : Grammar.Derives .expression [.minus, .identifier] :=
    .choice (.joins (.tighter (.tighter (.tighter (.tighter (.tighter (.tighter hnegated)))))))
  have hprogram : Grammar.Derives .program [.kwPrint, .minus, .identifier, .semicolon] :=
    Grammar.derives_program_iff.mpr
      ⟨[[.kwPrint, .minus, .identifier, .semicolon]], rfl, by simpa using .stated (.print hexpression)⟩
  obtain ⟨ns, reports, rest, hres, hreports⟩ := program_reports_eq_nil_iff hend
  obtain rfl := hreports.mpr hprogram
  exact ⟨ns, rest, hres⟩

end Lox
