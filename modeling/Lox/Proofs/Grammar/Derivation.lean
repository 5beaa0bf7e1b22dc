import Lox.Proofs.Grammar.Statement

/-!
# The grammar

The grammar of the language in the form in which it is usually written down: rules for the kinds
of tokens only, without trees, and with nothing said about which of several derivations is meant.
An `else` may belong to any `if` that is still without one, and operands are joined in any way that
their tiers allow. Every phrase is derivable.

## Main definitions

* `Grammar.Derives`: the grammar.

## Main results

* `Expression.Spells.derives`, `Statement.Spells.derives`: phrases are derivable.
-/

namespace Lox

namespace Grammar

/-- The symbols of the grammar. The tiers from `or` to products have the same two rules each, so
there is one symbol for what is at least as tight as some levels of operators. -/
inductive Symbol
  | program
  | declaration
  | binding
  | statement
  | initializer
  | clause
  | expression
  | ternary
  | tier (levels : List (List Kind))
  | unary
  | call
  | primary

/-- The operators of the tiers: `or`, `and`, equality, comparison, sums and products. -/
def operators : List (List Kind) :=
  [[.kwOr], [.kwAnd], [.bangEqual, .equalEqual], [.greater, .greaterEqual, .less, .lessEqual],
    [.minus, .plus], [.slash, .star]]

/-- Words with a comma between any two of them. -/
def commaSeparated : List (List Kind) → List Kind
  | [] => []
  | [w] => w
  | w :: w' :: ws => w ++ .comma :: commaSeparated (w' :: ws)

/-- The rules of the grammar. A clause is an expression that may be left out; lists of parameters
and of arguments have at most `maxEntries` entries. -/
inductive Derives : Symbol → List Kind → Prop
  | program {ws : List (List Kind)} (h : ∀ w ∈ ws, Derives .declaration w) :
      Derives .program ws.flatten
  | function {count : Nat} {body : List Kind} (hcount : count ≤ maxEntries)
      (hbody : Derives .program body) :
      Derives .declaration (.kwFun :: .identifier :: .leftParen ::
        (commaSeparated (List.replicate count [.identifier]) ++
          .rightParen :: .leftBrace :: (body ++ [.rightBrace])))
  | declared {w : List Kind} (h : Derives .binding w) : Derives .declaration w
  | stated {w : List Kind} (h : Derives .statement w) : Derives .declaration w
  | bare : Derives .binding [.kwVar, .identifier, .semicolon]
  | initialized {w : List Kind} (h : Derives .expression w) :
      Derives .binding (.kwVar :: .identifier :: .equal :: (w ++ [.semicolon]))
  | forLoop {i c e w : List Kind} (hinitializer : Derives .initializer i)
      (hcondition : Derives .clause c) (hincrement : Derives .clause e)
      (hbody : Derives .statement w) :
      Derives .statement
        (.kwFor :: .leftParen :: (i ++ (c ++ .semicolon :: (e ++ .rightParen :: w))))
  | whileLoop {c w : List Kind} (hcondition : Derives .expression c)
      (hbody : Derives .statement w) :
      Derives .statement (.kwWhile :: .leftParen :: (c ++ .rightParen :: w))
  | branch {c w : List Kind} (hcondition : Derives .expression c) (hthen : Derives .statement w) :
      Derives .statement (.kwIf :: .leftParen :: (c ++ .rightParen :: w))
  | branchElse {c w w' : List Kind} (hcondition : Derives .expression c)
      (hthen : Derives .statement w) (helse : Derives .statement w') :
      Derives .statement (.kwIf :: .leftParen :: (c ++ .rightParen :: (w ++ .kwElse :: w')))
  | print {w : List Kind} (h : Derives .expression w) :
      Derives .statement (.kwPrint :: (w ++ [.semicolon]))
  | returning {w : List Kind} (h : Derives .clause w) :
      Derives .statement (.kwReturn :: (w ++ [.semicolon]))
  | block {w : List Kind} (h : Derives .program w) :
      Derives .statement (.leftBrace :: (w ++ [.rightBrace]))
  | evaluated {w : List Kind} (h : Derives .expression w) : Derives .statement (w ++ [.semicolon])
  | noInitializer : Derives .initializer [.semicolon]
  | declaredFirst {w : List Kind} (h : Derives .binding w) : Derives .initializer w
  | evaluatedFirst {w : List Kind} (h : Derives .expression w) :
      Derives .initializer (w ++ [.semicolon])
  | noClause : Derives .clause []
  | clause {w : List Kind} (h : Derives .expression w) : Derives .clause w
  | assignment {w : List Kind} (h : Derives .expression w) :
      Derives .expression (.identifier :: .equal :: w)
  | choice {w : List Kind} (h : Derives .ternary w) : Derives .expression w
  | ternary {c a b : List Kind} (hcondition : Derives (.tier operators) c)
      (hthen : Derives .ternary a) (helse : Derives .ternary b) :
      Derives .ternary (c ++ .question :: (a ++ .colon :: b))
  | joins {w : List Kind} (h : Derives (.tier operators) w) : Derives .ternary w
  | join {level : List Kind} {levels : List (List Kind)} {u v : List Kind} {k : Kind}
      (hleft : Derives (.tier (level :: levels)) u) (hk : k ∈ level)
      (hright : Derives (.tier levels) v) : Derives (.tier (level :: levels)) (u ++ k :: v)
  | tighter {level : List Kind} {levels : List (List Kind)} {w : List Kind}
      (h : Derives (.tier levels) w) : Derives (.tier (level :: levels)) w
  | operand {w : List Kind} (h : Derives .unary w) : Derives (.tier []) w
  | unary {k : Kind} {w : List Kind} (hk : k ∈ [Kind.bang, .minus]) (h : Derives .unary w) :
      Derives .unary (k :: w)
  | tight {w : List Kind} (h : Derives .call w) : Derives .unary w
  | call {w : List Kind} {ws : List (List Kind)} (hcallee : Derives .call w)
      (hlength : ws.length ≤ maxEntries) (hws : ∀ w ∈ ws, Derives .expression w) :
      Derives .call (w ++ .leftParen :: (commaSeparated ws ++ [.rightParen]))
  | atom {w : List Kind} (h : Derives .primary w) : Derives .call w
  | constant {k : Kind} (hk : k ∈ [Kind.kwFalse, .kwTrue, .kwNil, .number, .string, .identifier]) :
      Derives .primary [k]
  | grouping {w : List Kind} (h : Derives .expression w) :
      Derives .primary (.leftParen :: (w ++ [.rightParen]))

theorem derives_program_iff {w : List Kind} :
    Derives .program w ↔ ∃ ws : List (List Kind), w = ws.flatten ∧
      ∀ v ∈ ws, Derives .declaration v := by
  constructor
  · rintro ⟨h⟩
    exact ⟨_, rfl, h⟩
  · rintro ⟨ws, rfl, h⟩
    exact .program h

end Grammar

/-! ### Phrases are derivable -/

namespace Expression

/-- What the kinds of the tokens of a phrase are. What is joined to an operand makes a longer
word of that operand. -/
def Symbol.Derives (ns : List Node) (w : List Kind) : Symbol → Prop
  | assignment => Grammar.Derives .expression w
  | ternary => Grammar.Derives .ternary w
  | tier level => Grammar.Derives (.tier (level.map Prod.fst)) w
  | chain t tighter _ => ∀ v, Grammar.Derives (.tier ((t :: tighter).map Prod.fst)) v →
      Grammar.Derives (.tier ((t :: tighter).map Prod.fst)) (v ++ w)
  | unary => Grammar.Derives .unary w
  | call => Grammar.Derives .call w
  | calls _ => ∀ v, Grammar.Derives .call v → Grammar.Derives .call (v ++ w)
  | primary => Grammar.Derives .primary w
  | arguments => ∃ ws, w = Grammar.commaSeparated ws ∧ ws.length ≤ maxEntries ∧
      ∀ v ∈ ws, Grammar.Derives .expression v
  | entries => ∃ ws, w = Grammar.commaSeparated ws ∧ ws.length = ns.length ∧
      ∀ v ∈ ws, Grammar.Derives .expression v

theorem Spells.derives {s : Symbol} {ns : List Node} {us : List Token} (h : Spells s ns us) :
    s.Derives ns (us.map Token.kind) := by
  induction h with
  | assignment htarget hequals _ _ ih =>
    obtain ⟨rfl, hname⟩ := htarget.eq_of_reference
    simp only [List.map_append, List.map_cons, List.map_nil, hequals, hname]
    exact .assignment ih
  | choice _ ih => exact .choice ih
  | ternary _ hquestion _ hcolon _ ih ih' ih'' =>
    rw [List.map_append, List.map_cons, List.map_append, List.map_cons, hquestion, hcolon]
    exact .ternary ih ih' ih''
  | joins _ ih => exact .joins ih
  | tier _ _ ih ih' =>
    rw [List.map_append]
    exact ih' _ (.tighter ih)
  | operand _ ih => exact .operand ih
  | join _ hoperator _ _ ih ih' =>
    intro v hv
    have hjoin := ih' _ (.join hv hoperator ih)
    simpa only [List.map_cons, List.map_append, List.append_assoc, List.cons_append] using hjoin
  | joined | applied => exact fun v hv => by rwa [List.map_nil, List.append_nil]
  | unary hoperator _ ih => exact .unary hoperator ih
  | tight _ ih => exact .tight ih
  | call _ _ ih ih' =>
    rw [List.map_append]
    exact ih' _ (.atom ih)
  | apply hopening _ hclosing _ ih ih' =>
    obtain ⟨ws, hws, hlength, hderives⟩ := ih
    intro v hv
    have hcall := ih' _ (.call hv hlength hderives)
    simpa [hopening, hclosing, hws] using hcall
  | literal hv =>
    refine .constant ?_
    rcases Token.constant?_cases hv with ⟨hkind, -⟩ | ⟨hkind, -⟩ | ⟨hkind, -⟩ | ⟨hkind, -⟩ |
      ⟨hkind, -⟩ <;> simp [hkind]
  | reference ht => exact .constant (by simp [ht])
  | grouping hopening _ hclosing ih =>
    rw [List.map_cons, List.map_append, List.map_singleton, hopening, hclosing]
    exact .grouping ih
  | none => exact ⟨[], rfl, by simp, by simp⟩
  | some hlength _ ih =>
    obtain ⟨ws, hws, heq, hderives⟩ := ih
    exact ⟨ws, hws, by omega, hderives⟩
  | last _ ih => exact ⟨[_], rfl, rfl, fun v hv => List.mem_singleton.mp hv ▸ ih⟩
  | @cons comma n ns us vs _ hcomma hns ih ih' =>
    obtain ⟨ws, hws, heq, hderives⟩ := ih'
    refine ⟨us.map Token.kind :: ws, ?_, by simp [heq], ?_⟩
    · cases ws with
      | nil => cases hns <;> simp at heq
      | cons w ws => rw [List.map_append, List.map_cons, hcomma, hws, Grammar.commaSeparated]
    · rintro v hv
      obtain rfl | hv := List.mem_cons.mp hv
      · exact ih
      · exact hderives v hv

end Expression

namespace Statement

theorem Ended.derives {kind : Kind} {n : Node} {us : List Token} (h : Ended kind n us) :
    ∃ w, us.map Token.kind = w ++ [kind] ∧ Grammar.Derives .expression w := by
  obtain ⟨vs, t, rfl, ht, hspells⟩ := h
  exact ⟨vs.map Token.kind, by simp [ht], hspells.derives⟩

theorem OptionallyEnded.derives {kind : Kind} {o : Option Node} {us : List Token}
    (h : OptionallyEnded kind o us) :
    ∃ w, us.map Token.kind = w ++ [kind] ∧ Grammar.Derives .clause w := by
  cases h with
  | none ht => exact ⟨[], by simp [ht], .noClause⟩
  | some hended =>
    obtain ⟨w, hw, hderives⟩ := hended.derives
    exact ⟨w, hw, .clause hderives⟩

theorem Condition.derives {n : Node} {us : List Token} (h : Condition n us) :
    ∃ w, us.map Token.kind = .leftParen :: (w ++ [.rightParen]) ∧
      Grammar.Derives .expression w := by
  obtain ⟨t, vs, rfl, ht, hended⟩ := h
  obtain ⟨w, hw, hderives⟩ := hended.derives
  exact ⟨w, by rw [List.map_cons, ht, hw], hderives⟩

theorem Variable.derives {n : Node} {us : List Token} (h : Variable n us) :
    Grammar.Derives .binding (.kwVar :: us.map Token.kind) := by
  cases h with
  | bare hname ht =>
    simp only [List.map_cons, List.map_nil, hname, ht]
    exact .bare
  | initialized hname hequals hended =>
    obtain ⟨w, hw, hderives⟩ := hended.derives
    simp only [List.map_cons, hname, hequals, hw]
    exact .initialized hderives

theorem Initializer.derives {o : Option Node} {us : List Token} (h : Initializer o us) :
    Grammar.Derives .initializer (us.map Token.kind) := by
  cases h with
  | none ht =>
    rw [List.map_singleton, ht]
    exact .noInitializer
  | declared hkeyword hvariable =>
    rw [List.map_cons, hkeyword]
    exact .declaredFirst hvariable.derives
  | expression hended =>
    obtain ⟨w, hw, hderives⟩ := hended.derives
    rw [hw]
    exact .evaluatedFirst hderives

theorem Listed.map_kind {ps us : List Token} (h : Listed ps us) :
    us.map Token.kind = Grammar.commaSeparated (List.replicate ps.length [.identifier]) := by
  induction h with
  | last hp => simp [hp, Grammar.commaSeparated]
  | @cons p comma ps us hp hcomma h ih =>
    obtain ⟨count, hcount⟩ : ∃ count, ps.length = count + 1 := by cases h <;> simp
    rw [List.length_cons, hcount, List.replicate_succ, List.replicate_succ,
      Grammar.commaSeparated, ← List.replicate_succ, ← hcount, ← ih]
    simp [hp, hcomma]

theorem Parameters.map_kind {ps us : List Token} (h : Parameters ps us) :
    ps.length ≤ maxEntries ∧
      us.map Token.kind = Grammar.commaSeparated (List.replicate ps.length [.identifier]) := by
  cases h with
  | none => exact ⟨by simp, rfl⟩
  | some hlength hlisted => exact ⟨hlength, hlisted.map_kind⟩

/-- The symbol that derives the phrases of some kind. -/
def Symbol.toGrammar : Symbol → Grammar.Symbol
  | declarations => .program
  | declaration => .declaration
  | statement _ => .statement

theorem Spells.derives {s : Symbol} {ns : List Node} {us : List Token} (h : Spells s ns us) :
    Grammar.Derives s.toGrammar (us.map Token.kind) := by
  induction h with
  | nil => exact Grammar.derives_program_iff.mpr ⟨[], rfl, by simp⟩
  | @cons n ns us vs _ _ ih ih' =>
    obtain ⟨ws, hws, hderives⟩ := Grammar.derives_program_iff.mp ih'
    refine Grammar.derives_program_iff.mpr ⟨us.map Token.kind :: ws, ?_, ?_⟩
    · rw [List.map_append, hws, List.flatten_cons]
    · intro v hv
      obtain rfl | hv := List.mem_cons.mp hv
      · exact ih
      · exact hderives v hv
  | function hkeyword hname hopening hparams hclosing hleft _ hright ih =>
    obtain ⟨hlength, hps⟩ := hparams.map_kind
    have hfunction := Grammar.Derives.function hlength ih
    simpa [Symbol.toGrammar, hkeyword, hname, hopening, hps, hclosing, hleft, hright] using hfunction
  | declared hkeyword hvariable =>
    rw [List.map_cons, hkeyword]
    exact .declared hvariable.derives
  | statement _ ih => exact .stated ih
  | expression hended =>
    obtain ⟨w, hw, hderives⟩ := hended.derives
    rw [hw]
    exact .evaluated hderives
  | print hkeyword hended =>
    obtain ⟨w, hw, hderives⟩ := hended.derives
    rw [List.map_cons, hkeyword, hw]
    exact .print hderives
  | returning hkeyword hvalue =>
    obtain ⟨w, hw, hderives⟩ := hvalue.derives
    rw [List.map_cons, hkeyword, hw]
    exact .returning hderives
  | block hleft _ hright ih =>
    rw [List.map_cons, List.map_append, List.map_singleton, hleft, hright]
    exact .block ih
  | branch hkeyword hcondition _ ih =>
    obtain ⟨c, hc, hderives⟩ := hcondition.derives
    simpa [Symbol.toGrammar, hkeyword, hc] using Grammar.Derives.branch hderives ih
  | branchElse hkeyword hcondition _ hkeywordElse _ ih ih' =>
    obtain ⟨c, hc, hderives⟩ := hcondition.derives
    simpa [Symbol.toGrammar, hkeyword, hc, hkeywordElse] using Grammar.Derives.branchElse hderives ih ih'
  | whileLoop hkeyword hcondition _ ih =>
    obtain ⟨c, hc, hderives⟩ := hcondition.derives
    simpa [Symbol.toGrammar, hkeyword, hc] using Grammar.Derives.whileLoop hderives ih
  | forLoop hkeyword hopening hinitializer hcondition hincrement _ ih =>
    obtain ⟨c, hc, hcderives⟩ := hcondition.derives
    obtain ⟨e, he, hederives⟩ := hincrement.derives
    simpa [Symbol.toGrammar, hkeyword, hopening, hc, he] using
      Grammar.Derives.forLoop hinitializer.derives hcderives hederives ih

end Statement

end Lox
