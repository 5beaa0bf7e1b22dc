import Lox.Proofs.Grammar.Statement.Completeness
import Lox.Proofs.Grammar.Tiers

/-!
# Reading and writing out

Reading and writing out are inverse to each other. The tokens of a program that respects the
tiers are read as that program; and a program that was read without a report respects the tiers
and is made of the tokens it was read from. A `for` loop is left out on both sides.

## Main results

* `Statement.Spells.linear`: programs that are phrases respect the tiers.
* `Statement.spells_listItems`: the tokens of a program that respects the tiers are phrases.
* `Parse.program_linearisation`: reading and writing out are inverse.
-/

namespace Lox

namespace Statement

theorem Listed.linear {ps us : List Token} (h : Listed ps us) :
    ps.all (·.kind = .identifier) ∧ List.Forall₂ Item.Matches (parameterItems ps) us := by
  induction h with
  | last hp => exact ⟨by simp [hp], .cons rfl .nil⟩
  | @cons p comma ps us hp hcomma hlisted ih =>
    obtain ⟨hnames, hitems⟩ := ih
    refine ⟨by rw [List.all_cons, hnames]; simp [hp], ?_⟩
    cases hlisted <;> exact .cons rfl (.cons hcomma hitems)

theorem Parameters.linear {ps us : List Token} (h : Parameters ps us) :
    ps.length ≤ maxEntries ∧ ps.all (·.kind = .identifier) ∧
      List.Forall₂ Item.Matches (parameterItems ps) us := by
  cases h with
  | none => exact ⟨by decide, rfl, .nil⟩
  | some hlength hlisted => exact ⟨hlength, hlisted.linear⟩

section Linear

variable {us : List Token}

theorem Ended.linear {kind : Kind} {n : Node} (h : Ended kind n us)
    (hplain : ∀ t ∈ us, t.kind ≠ .kwFor ∧ t.IsPlain) :
    n.isExpression ∧ List.Forall₂ Item.Matches (n.items ++ [.word kind]) us := by
  obtain ⟨vs, t, rfl, ht, hspells⟩ := h
  have hlinear : Expression.Linear 0 n vs :=
    hspells.linear (fun t ht => (hplain t (by simp [ht])).2) n rfl
  exact ⟨hlinear.2.1, List.rel_append hlinear.2.2 (.cons ht .nil)⟩

theorem Condition.linear {n : Node} (h : Condition n us)
    (hplain : ∀ t ∈ us, t.kind ≠ .kwFor ∧ t.IsPlain) :
    n.isExpression ∧
      List.Forall₂ Item.Matches (enclosed .leftParen .rightParen n.items) us := by
  obtain ⟨t, vs, rfl, ht, hended⟩ := h
  obtain ⟨hn, hitems⟩ := hended.linear fun t ht => hplain t (.tail _ ht)
  exact ⟨hn, .cons ht hitems⟩

theorem Variable.linear {n : Node} {keyword : Token} (hkeyword : keyword.kind = .kwVar)
    (h : Variable n us) (hplain : ∀ t ∈ us, t.kind ≠ .kwFor ∧ t.IsPlain) :
    n.isStatement true ∧ List.Forall₂ Item.Matches n.items (keyword :: us) := by
  cases h with
  | bare hname ht =>
    exact ⟨by simp [Node.isStatement, hname], .cons hkeyword (.cons rfl (.cons ht .nil))⟩
  | initialized hname hequals hended =>
    obtain ⟨hn, hitems⟩ := hended.linear fun t ht => hplain t (by simp [ht])
    exact ⟨by simp [Node.isStatement, hname, hn],
      .cons hkeyword (.cons rfl (.cons hequals hitems))⟩

end Linear

/-- What the trees of a phrase are like. -/
def Symbol.Linear (ns : List Node) (us : List Token) : Symbol → Prop
  | declarations => Node.areDeclarations ns ∧ List.Forall₂ Item.Matches (Node.listItems ns) us
  | declaration => ∀ n, ns = [n] → n.isStatement true ∧ List.Forall₂ Item.Matches n.items us
  | statement isOpen => ∀ n, ns = [n] →
      n.isStatement false ∧ n.endsOpen = isOpen ∧ List.Forall₂ Item.Matches n.items us

theorem isStatement_true {n : Node} (h : n.isStatement false) : n.isStatement true := by
  cases n with
  | declare name initializer => cases initializer <;> simp [Node.isStatement] at h
  | branch condition thenBranch elseBranch => cases elseBranch <;> exact h
  | returning keyword value => cases value <;> exact h
  | function => simp [Node.isStatement] at h
  | _ => exact h

theorem Spells.linear {s : Symbol} {ns : List Node} {us : List Token} (h : Spells s ns us)
    (hplain : ∀ t ∈ us, t.kind ≠ .kwFor ∧ t.IsPlain) : s.Linear ns us := by
  induction h with
  | nil => exact ⟨rfl, .nil⟩
  | cons _ _ ih ih' =>
    obtain ⟨hn, hitems⟩ := ih (fun t ht => hplain t (by simp [ht])) _ rfl
    obtain ⟨hns, hitems'⟩ := ih' fun t ht => hplain t (by simp [ht])
    refine ⟨by simp [Node.areDeclarations, hn, hns], ?_⟩
    rw [Node.listItems]
    exact List.rel_append hitems hitems'
  | @function keyword name opening closing left right params ps us body hkeyword hname hopening
      hparams hclosing hleft _ hright ih =>
    rintro _ ⟨rfl⟩
    obtain ⟨hlength, hnames, hparamItems⟩ := hparams.linear
    obtain ⟨hbody, hitems⟩ := ih fun t ht => hplain t (by simp [ht])
    refine ⟨by simp only [Node.isStatement, hname, hlength, hnames, hbody]; rfl, ?_⟩
    rw [Node.items]
    have hhead := forall₂_enclosed.mpr ⟨opening, ps, closing, rfl, hopening, hclosing, hparamItems⟩
    have hbraces := forall₂_enclosed.mpr ⟨left, us, right, rfl, hleft, hright, hitems⟩
    refine .cons hkeyword (.cons rfl ?_)
    simpa using List.rel_append hhead hbraces
  | declared hkeyword h =>
    rintro _ ⟨rfl⟩
    exact h.linear hkeyword fun t ht => hplain t (.tail _ ht)
  | statement _ ih =>
    intro n hn
    obtain ⟨hstatement, -, hitems⟩ := ih hplain n hn
    exact ⟨isStatement_true hstatement, hitems⟩
  | expression h =>
    rintro _ ⟨rfl⟩
    obtain ⟨hn, hitems⟩ := h.linear hplain
    exact ⟨hn, rfl, hitems⟩
  | print hkeyword h =>
    rintro _ ⟨rfl⟩
    obtain ⟨hn, hitems⟩ := h.linear fun t ht => hplain t (.tail _ ht)
    exact ⟨hn, rfl, .cons hkeyword hitems⟩
  | returning hkeyword h =>
    rintro _ ⟨rfl⟩
    cases h with
    | none ht => exact ⟨by simp [Node.isStatement, hkeyword], rfl, .cons rfl (.cons ht .nil)⟩
    | some hended =>
      obtain ⟨hn, hitems⟩ := hended.linear fun t ht => hplain t (.tail _ ht)
      exact ⟨by simp [Node.isStatement, hkeyword, hn], rfl, .cons rfl hitems⟩
  | block hleft _ hright ih =>
    rintro _ ⟨rfl⟩
    obtain ⟨hns, hitems⟩ := ih fun t ht => hplain t (by simp [ht])
    exact ⟨hns, rfl, forall₂_enclosed.mpr ⟨_, _, _, rfl, hleft, hright, hitems⟩⟩
  | branch hkeyword hcondition _ ih =>
    rintro _ ⟨rfl⟩
    obtain ⟨hn, hitems⟩ := hcondition.linear fun t ht => hplain t (by simp [ht])
    obtain ⟨hthen, -, hitems'⟩ := ih (fun t ht => hplain t (by simp [ht])) _ rfl
    refine ⟨by simp [Node.isStatement, hn, hthen], rfl, ?_⟩
    rw [Node.items]
    exact .cons hkeyword (List.rel_append hitems hitems')
  | branchElse hkeyword hcondition _ hkeywordElse _ ih ih' =>
    rintro _ ⟨rfl⟩
    obtain ⟨hn, hitems⟩ := hcondition.linear fun t ht => hplain t (by simp [ht])
    obtain ⟨hthen, hclosed, hitems'⟩ := ih (fun t ht => hplain t (by simp [ht])) _ rfl
    obtain ⟨helse, hopen, hitems''⟩ := ih' (fun t ht => hplain t (by simp [ht])) _ rfl
    refine ⟨by simp [Node.isStatement, hn, hthen, hclosed, helse], hopen, ?_⟩
    rw [Node.items]
    exact .cons hkeyword
      (List.rel_append hitems (List.rel_append hitems' (.cons hkeywordElse hitems'')))
  | whileLoop hkeyword hcondition _ ih =>
    rintro _ ⟨rfl⟩
    obtain ⟨hn, hitems⟩ := hcondition.linear fun t ht => hplain t (by simp [ht])
    obtain ⟨hbody, hopen, hitems'⟩ := ih (fun t ht => hplain t (by simp [ht])) _ rfl
    refine ⟨by simp [Node.isStatement, hn, hbody], hopen, ?_⟩
    rw [Node.items]
    exact .cons hkeyword (List.rel_append hitems hitems')
  | forLoop hkeyword => exact absurd hkeyword (hplain _ (.head _)).1

/-! ### The tokens of a program are phrases -/

theorem listed_items {p : Token} {ps us : List Token}
    (hnames : ∀ q ∈ p :: ps, q.kind = .identifier)
    (h : List.Forall₂ Item.Matches (parameterItems (p :: ps)) us) : Listed (p :: ps) us := by
  induction ps generalizing p us with
  | nil =>
    obtain ⟨_, rfl, rfl⟩ := forall₂_singleton.mp h
    exact .last (hnames _ (.head _))
  | cons p' ps ih =>
    obtain ⟨_, _, rfl, hbehind, rfl⟩ := List.forall₂_cons_left_iff.mp h
    obtain ⟨comma, us, hcomma, hus, rfl⟩ := List.forall₂_cons_left_iff.mp hbehind
    have hlisted := ih (fun q hq => hnames q (.tail _ hq)) hus
    exact .cons (hnames _ (.head _)) hcomma hlisted

theorem parameters_items {ps us : List Token} (hlength : ps.length ≤ maxEntries)
    (hnames : ps.all (·.kind = .identifier))
    (h : List.Forall₂ Item.Matches (parameterItems ps) us) : Parameters ps us := by
  cases ps with
  | nil =>
    obtain rfl := List.forall₂_nil_left_iff.mp h
    exact .none
  | cons p ps => exact .some hlength (listed_items (by simpa using hnames) h)

theorem ended_items {kind : Kind} {n : Node} (hn : n.isExpression) {us : List Token}
    (h : List.Forall₂ Item.Matches (n.items ++ [.word kind]) us) : Ended kind n us := by
  obtain ⟨us, _, rfl, hus, hlast⟩ := forall₂_append.mp h
  obtain ⟨t, ht, rfl⟩ := forall₂_singleton.mp hlast
  exact ⟨us, t, rfl, ht, (Expression.spells_items n hn hus).loosen (Nat.zero_le _)⟩

theorem condition_items {n : Node} (hn : n.isExpression) {us : List Token}
    (h : List.Forall₂ Item.Matches (enclosed .leftParen .rightParen n.items) us) :
    Condition n us := by
  obtain ⟨t, us, ht, hus, rfl⟩ := List.forall₂_cons_left_iff.mp h
  exact ⟨t, us, rfl, ht, ended_items hn hus⟩

mutual

/-- The tokens of a statement that respects the tiers are a phrase. Those of a declaration are
one where there may be declarations. -/
theorem spells_items : (n : Node) → ∀ {declares : Bool} {us : List Token}, n.isStatement declares →
    List.Forall₂ Item.Matches n.items us →
      Spells (.statement n.endsOpen) [n] us ∨ declares = true ∧ Spells .declaration [n] us
  | .expression inner, _, us, hn, h => .inl (.expression (ended_items hn h))
  | .print inner, _, us, hn, h => by
    obtain ⟨keyword, us, hkeyword, hus, rfl⟩ := List.forall₂_cons_left_iff.mp h
    exact .inl (.print hkeyword (ended_items hn hus))
  | .declare name none, _, us, hn, h => by
    simp only [Node.isStatement, Bool.and_eq_true, decide_eq_true_eq] at hn
    obtain ⟨keyword, _, hkeyword, hbehind, rfl⟩ := List.forall₂_cons_left_iff.mp h
    obtain ⟨_, _, rfl, hlast, rfl⟩ := List.forall₂_cons_left_iff.mp hbehind
    obtain ⟨t, ht, rfl⟩ := forall₂_singleton.mp hlast
    exact .inr ⟨hn.1, .declared hkeyword (.bare hn.2 ht)⟩
  | .declare name (some initializer), _, us, hn, h => by
    simp only [Node.isStatement, Bool.and_eq_true, decide_eq_true_eq] at hn
    obtain ⟨keyword, _, hkeyword, hbehind, rfl⟩ := List.forall₂_cons_left_iff.mp h
    obtain ⟨_, _, rfl, hvalue, rfl⟩ := List.forall₂_cons_left_iff.mp hbehind
    obtain ⟨equals, us, hequals, hus, rfl⟩ := List.forall₂_cons_left_iff.mp hvalue
    exact .inr ⟨hn.1.1, .declared hkeyword (.initialized hn.1.2 hequals (ended_items hn.2 hus))⟩
  | .block statements, _, us, hn, h => by
    obtain ⟨left, us, right, rfl, hleft, hright, hus⟩ := forall₂_enclosed.mp h
    exact .inl (.block hleft (spells_listItems statements hn hus) hright)
  | .branch condition thenBranch none, _, us, hn, h => by
    simp only [Node.isStatement, Bool.and_eq_true] at hn
    obtain ⟨keyword, _, hkeyword, hbehind, rfl⟩ := List.forall₂_cons_left_iff.mp h
    obtain ⟨cs, us, rfl, hcs, hus⟩ := forall₂_append.mp hbehind
    obtain hthen | ⟨hdeclares, -⟩ := spells_items thenBranch hn.2 hus
    · exact .inl (.branch hkeyword (condition_items hn.1 hcs) hthen)
    · cases hdeclares
  | .branch condition thenBranch (some elseBranch), _, us, hn, h => by
    simp only [Node.isStatement, Bool.and_eq_true, Bool.not_eq_true'] at hn
    obtain ⟨⟨hcondition, hbranch, hclosed⟩, hbranch'⟩ := hn
    obtain ⟨keyword, _, hkeyword, hbehind, rfl⟩ := List.forall₂_cons_left_iff.mp h
    obtain ⟨cs, _, rfl, hcs, hbranches⟩ := forall₂_append.mp hbehind
    obtain ⟨us, _, rfl, hus, hlast⟩ := forall₂_append.mp hbranches
    obtain ⟨keywordElse, vs, hkeywordElse, hvs, rfl⟩ := List.forall₂_cons_left_iff.mp hlast
    obtain hthen | ⟨hdeclares, -⟩ := spells_items thenBranch hbranch hus
    · obtain helse | ⟨hdeclares, -⟩ := spells_items elseBranch hbranch' hvs
      · rw [hclosed] at hthen
        exact .inl (.branchElse hkeyword (condition_items hcondition hcs) hthen hkeywordElse helse)
      · cases hdeclares
    · cases hdeclares
  | .loop condition body, _, us, hn, h => by
    simp only [Node.isStatement, Bool.and_eq_true] at hn
    obtain ⟨keyword, _, hkeyword, hbehind, rfl⟩ := List.forall₂_cons_left_iff.mp h
    obtain ⟨cs, us, rfl, hcs, hus⟩ := forall₂_append.mp hbehind
    obtain hbody | ⟨hdeclares, -⟩ := spells_items body hn.2 hus
    · exact .inl (.whileLoop hkeyword (condition_items hn.1 hcs) hbody)
    · cases hdeclares
  | .function name params body, _, us, hn, h => by
    simp only [Node.isStatement, Bool.and_eq_true, decide_eq_true_eq] at hn
    obtain ⟨⟨⟨⟨hdeclares, hname⟩, hlength⟩, hnames⟩, hbody⟩ := hn
    obtain ⟨keyword, _, hkeyword, hbehind, rfl⟩ := List.forall₂_cons_left_iff.mp h
    obtain ⟨_, _, rfl, hlists, rfl⟩ := List.forall₂_cons_left_iff.mp hbehind
    obtain ⟨_, _, rfl, hhead, hbraces⟩ := forall₂_append.mp hlists
    obtain ⟨opening, ps, closing, rfl, hopening, hclosing, hps⟩ := forall₂_enclosed.mp hhead
    obtain ⟨left, us, right, rfl, hleft, hright, hus⟩ := forall₂_enclosed.mp hbraces
    have hparams := parameters_items hlength hnames hps
    have hspells := Spells.function hkeyword hname hopening hparams hclosing hleft
      (spells_listItems body hbody hus) hright
    exact .inr ⟨hdeclares, by simpa using hspells⟩
  | .returning keyword none, _, us, hn, h => by
    obtain ⟨_, _, rfl, hlast, rfl⟩ := List.forall₂_cons_left_iff.mp h
    obtain ⟨t, ht, rfl⟩ := forall₂_singleton.mp hlast
    exact .inl (.returning (by simpa [Node.isStatement] using hn) (.none ht))
  | .returning keyword (some value), _, us, hn, h => by
    simp only [Node.isStatement, Bool.and_eq_true, decide_eq_true_eq] at hn
    obtain ⟨_, us, rfl, hus, rfl⟩ := List.forall₂_cons_left_iff.mp h
    exact .inl (.returning hn.1 (.some (ended_items hn.2 hus)))
  | .literal _, _, us, hn, _ | .grouping _, _, us, hn, _ | .unary .., _, us, hn, _
  | .binary .., _, us, hn, _ | .logical .., _, us, hn, _ | .ternary .., _, us, hn, _
  | .reference _, _, us, hn, _ | .assign .., _, us, hn, _ | .call .., _, us, hn, _
  | .stray _, _, us, hn, _ | .absent, _, us, hn, _ => by
    cases hn

theorem spells_listItems : (ns : List Node) → ∀ {us : List Token}, Node.areDeclarations ns →
    List.Forall₂ Item.Matches (Node.listItems ns) us → Spells .declarations ns us
  | [], us, _, h => by
    obtain rfl := List.forall₂_nil_left_iff.mp h
    exact .nil
  | n :: ns, us, hns, h => by
    simp only [Node.areDeclarations, Bool.and_eq_true] at hns
    rw [Node.listItems] at h
    obtain ⟨us, vs, rfl, hus, hvs⟩ := forall₂_append.mp h
    have hbehind := spells_listItems ns hns.2 hvs
    obtain hfirst | ⟨-, hfirst⟩ := spells_items n hns.1 hus
    · exact .cons (.statement hfirst) hbehind
    · exact .cons hfirst hbehind

end

end Statement

/-- Reading and writing out are inverse. The tokens of a program that respects the tiers are read
as that program, without a report. If tokens without a `for` loop are read without a report, the
program respects the tiers and is made of those in front of the first end of input. -/
theorem Parse.program_linearisation :
    (∀ (ns : List Node) (us : List Token) (e : Token) (rest : List Token),
      Node.areDeclarations ns → List.Forall₂ Item.Matches (Node.listItems ns) us →
      e.kind = .endOfInput → Parse.program (us ++ e :: rest) = .done ns [] (e :: rest)) ∧
    (∀ ts : List Token, (∃ t ∈ ts, t.kind = .endOfInput) →
      (∀ t ∈ beforeEnd ts, t.kind ≠ .kwFor ∧ t.IsPlain) → (Parse.program ts).reports = [] →
      ∃ ns rest, Parse.program ts = .done ns [] rest ∧ Node.areDeclarations ns ∧
        List.Forall₂ Item.Matches (Node.listItems ns) (beforeEnd ts)) := by
  constructor
  · intro ns us e rest hns hus he
    exact (Statement.spells_listItems ns hns hus).reads (List.mem_singleton.mpr he)
  · intro ts hts hplain hreports
    obtain ⟨ns, reports, e, rest, hres, he, htaken⟩ := Parse.program_total hts
    have hsplit := htaken.beforeEnd_append he
    rw [hres] at hreports
    obtain rfl : reports = [] := hreports
    obtain ⟨us, heq, hspells, -⟩ := Statement.spells_of_reads hres
    obtain rfl := List.append_cancel_right (heq.symm.trans hsplit)
    exact ⟨ns, e :: rest, hres, hspells.linear hplain⟩

namespace Linearised

def word (kind : Kind) (lexeme : String) : Token := ⟨kind, lexeme, .nil, 1⟩

/-- The tokens of `while (a or b) if (c) a = -b; else print f(a, 1);`. -/
def tokens : List Token :=
  [word .kwWhile "while", word .leftParen "(", word .identifier "a", word .kwOr "or",
    word .identifier "b", word .rightParen ")", word .kwIf "if", word .leftParen "(",
    word .identifier "c", word .rightParen ")", word .identifier "a", word .equal "=",
    word .minus "-", word .identifier "b", word .semicolon ";", word .kwElse "else",
    word .kwPrint "print", word .identifier "f", word .leftParen "(", word .identifier "a",
    word .comma ",", ⟨.number, "1", .whole 1, 1⟩, word .rightParen ")", word .semicolon ";"]

/-- The tree of these tokens. -/
def tree : Node :=
  .loop (.logical (.reference (word .identifier "a")) (word .kwOr "or")
      (.reference (word .identifier "b")))
    (.branch (.reference (word .identifier "c"))
      (.expression (.assign (word .identifier "a")
        (.unary (word .minus "-") (.reference (word .identifier "b")))))
      (some (.print (.call (.reference (word .identifier "f")) (word .rightParen ")")
        [.reference (word .identifier "a"), .literal (.whole 1)]))))

theorem program_linearisation_tree :
    Parse.program (tokens ++ [word .endOfInput ""]) = .done [tree] [] [word .endOfInput ""] ∧
      ∃ ns rest, Parse.program (tokens ++ [word .endOfInput ""]) = .done ns [] rest ∧
        Node.areDeclarations ns ∧ List.Forall₂ Item.Matches (Node.listItems ns) tokens := by
  have hitems : List.Forall₂ Item.Matches (Node.listItems [tree]) tokens := by
    simp [tree, tokens, Node.listItems, Node.items, Node.entryItems, Node.moreItems, enclosed,
      Literal.items, Item.Matches, word]
  have hplain : ∀ t ∈ tokens, t.kind ≠ .kwFor ∧ t.IsPlain := by
    simp [tokens, word, Token.IsPlain]
  have hread := Parse.program_linearisation.1 [tree] tokens (word .endOfInput "") [] rfl hitems rfl
  exact ⟨hread, Parse.program_linearisation.2 (tokens ++ [word .endOfInput ""]) (by simp [word])
    hplain (by rw [hread]; rfl)⟩

end Linearised

end Lox
