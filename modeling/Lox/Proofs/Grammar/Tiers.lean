import Lox.Proofs.Grammar.Items

/-!
# Trees that respect the tiers

The trees that phrases of expressions have are those that respect the tiers, and the tokens of
such a tree are a phrase. The rank of a node is that of the loosest phrase it can be.

## Main definitions

* `Expression.Linear`: an expression that is joined tightly enough, and its tokens.
* `Expression.symbolAt`: the phrases of a rank.

## Main results

* `Expression.Spells.linear`: the tree of a phrase respects the tiers and is made of its tokens.
* `Expression.spells_items`: the tokens of an expression that respects the tiers are a phrase.
-/

namespace Lox

/-! ### A phrase respects the tiers and is made of its tokens -/

namespace Expression

theorem rank_eq {operators : List Kind} {make : Node → Token → Node → Node} {tighter : List Tier}
    (hlevel : (operators, make) :: tighter <:+ tiers) {kind : Kind} (hkind : kind ∈ operators) :
    kind.rank = 7 - tighter.length := by
  obtain ⟨rfl, -, rfl⟩ | ⟨rfl, -, rfl⟩ | ⟨rfl, -, rfl⟩ | ⟨rfl, -, rfl⟩ | ⟨rfl, -, rfl⟩ |
    ⟨rfl, -, rfl⟩ := level_cases hlevel
  all_goals
    revert kind
    decide

/-- The nodes of a tier: how tightly they are joined, what tokens they are made of, and when they
respect the tiers. -/
theorem make_spec {operators : List Kind} {make : Node → Token → Node → Node} {tighter : List Tier}
    (hlevel : (operators, make) :: tighter <:+ tiers) {operator : Token}
    (hoperator : operator.kind ∈ operators) (left right : Node) :
    (make left operator right).rank = operator.kind.rank ∧
      (make left operator right).items = left.items ++ .kept operator :: right.items ∧
      ((make left operator right).isExpression ↔
        (operator.kind.rank ≤ left.rank ∧ left.isExpression) ∧
          operator.kind.rank < right.rank ∧ right.isExpression) := by
  obtain ⟨rfl, hkinds⟩ | ⟨rfl, hkinds⟩ := make_kinds hlevel
  · refine ⟨rfl, by rw [Node.items], ?_⟩
    simp [Node.isExpression, hkinds hoperator]
  · refine ⟨rfl, by rw [Node.items], ?_⟩
    simp [Node.isExpression, hkinds hoperator]

/-- An expression that is joined at least as tightly as `rank`, respects the tiers, and is made
of these tokens. -/
def Linear (rank : Nat) (n : Node) (us : List Token) : Prop :=
  rank ≤ n.rank ∧ n.isExpression ∧ List.Forall₂ Item.Matches n.items us

namespace Linear

variable {n left right : Node} {us vs ws : List Token}

theorem loosen {rank rank' : Nat} (h : Linear rank n us) (hrank : rank' ≤ rank) :
    Linear rank' n us :=
  ⟨Nat.le_trans hrank h.1, h.2⟩

theorem assign {name equals : Token} (hname : name.kind = .identifier)
    (hequals : equals.kind = .equal) (h : Linear 0 n us) :
    Linear 0 (.assign name n) (name :: equals :: us) := by
  obtain ⟨-, hvalue, hitems⟩ := h
  exact ⟨Nat.zero_le _, by simp [Node.isExpression, hname, hvalue],
    .cons rfl (.cons hequals hitems)⟩

theorem ternary {condition : Node} {question colon : Token} (hcondition : Linear 2 condition us)
    (hquestion : question.kind = .question) (hthen : Linear 1 left vs)
    (hcolon : colon.kind = .colon) (helse : Linear 1 right ws) :
    Linear 1 (.ternary condition question left right)
      (us ++ question :: (vs ++ colon :: ws)) := by
  obtain ⟨hrank, hcondition, hitems⟩ := hcondition
  obtain ⟨hrank', hthen, hitems'⟩ := hthen
  obtain ⟨hrank'', helse, hitems''⟩ := helse
  refine ⟨Nat.le_refl _, ?_, ?_⟩
  · simp [Node.isExpression, hquestion, hrank, hcondition, hrank', hthen, hrank'', helse]
  · rw [Node.items]
    exact List.rel_append hitems
      (.cons rfl (List.rel_append hitems' (.cons hcolon hitems'')))

/-- An operand on the left may be of the same tier, one on the right is tighter. -/
theorem join {operators : List Kind} {make : Node → Token → Node → Node} {tighter : List Tier}
    (hlevel : (operators, make) :: tighter <:+ tiers) {operator : Token}
    (hoperator : operator.kind ∈ operators) (hleft : Linear (7 - tighter.length) left us)
    (hright : Linear (8 - tighter.length) right vs) :
    Linear (7 - tighter.length) (make left operator right) (us ++ operator :: vs) := by
  obtain ⟨hrank, hleft, hitems⟩ := hleft
  obtain ⟨hrank', hright, hitems'⟩ := hright
  obtain ⟨hmake, hmakeItems, hmakeExpression⟩ := make_spec hlevel hoperator left right
  have hrankOperator := rank_eq hlevel hoperator
  have hlength : tighter.length ≤ 5 := Nat.le_of_succ_le_succ hlevel.length_le
  refine ⟨by omega, hmakeExpression.mpr ⟨⟨by omega, hleft⟩, by omega, hright⟩, ?_⟩
  rw [hmakeItems]
  exact List.rel_append hitems (.cons rfl hitems')

theorem unary {operator : Token} (hoperator : operator.kind ∈ [Kind.bang, .minus])
    (h : Linear 8 n us) : Linear 8 (.unary operator n) (operator :: us) := by
  obtain ⟨hrank, hoperand, hitems⟩ := h
  refine ⟨Nat.le_refl _, ?_, .cons rfl hitems⟩
  simpa [Node.isExpression, hrank, hoperand] using hoperator

theorem call {opening closing : Token} {ns : List Node} (hcallee : Linear 9 n us)
    (hopening : opening.kind = .leftParen) (hlength : ns.length ≤ maxEntries)
    (hns : Node.areExpressions ns) (hitems : List.Forall₂ Item.Matches (Node.entryItems ns) vs)
    (hclosing : closing.kind = .rightParen) :
    Linear 9 (.call n closing ns) (us ++ opening :: (vs ++ [closing])) := by
  obtain ⟨hrank, hcallee, hitems'⟩ := hcallee
  refine ⟨Nat.le_refl _, ?_, ?_⟩
  · simp [Node.isExpression, hclosing, hrank, hcallee, hlength, hns]
  · rw [Node.items]
    exact List.rel_append hitems'
      (.cons hopening (List.rel_append hitems (.cons rfl .nil)))

theorem grouping {opening closing : Token} (hopening : opening.kind = .leftParen)
    (h : Linear 0 n us) (hclosing : closing.kind = .rightParen) :
    Linear 10 (.grouping n) (opening :: (us ++ [closing])) := by
  obtain ⟨-, hinner, hitems⟩ := h
  refine ⟨Nat.le_refl _, by simpa [Node.isExpression] using hinner, ?_⟩
  exact forall₂_enclosed.mpr ⟨opening, us, closing, rfl, hopening, hclosing, hitems⟩

theorem constant {t : Token} (ht : t.IsPlain) {v : Literal} (hv : t.constant? = some v) :
    Linear 10 (.literal v) [t] := by
  rcases Token.constant?_cases hv with ⟨hkind, rfl⟩ | ⟨hkind, rfl⟩ | ⟨hkind, rfl⟩ | ⟨hkind, rfl⟩ |
    ⟨hkind, rfl⟩
  · exact ⟨Nat.le_refl _, rfl, .cons hkind .nil⟩
  · exact ⟨Nat.le_refl _, rfl, .cons hkind .nil⟩
  · exact ⟨Nat.le_refl _, rfl, .cons hkind .nil⟩
  · obtain ⟨x, hx⟩ | ⟨x, hx⟩ := ht.1 hkind
    · rw [hx]
      exact ⟨Nat.le_refl _, rfl, .cons ⟨hkind, hx⟩ .nil⟩
    · rw [hx]
      exact ⟨Nat.le_refl _, rfl, .cons ⟨hkind, hx⟩ .nil⟩
  · obtain ⟨x, hx⟩ := ht.2 hkind
    rw [hx]
    exact ⟨Nat.le_refl _, rfl, .cons ⟨hkind, hx⟩ .nil⟩

end Linear

/-- What the trees of a phrase are like. What is joined to an operand makes a longer expression
of that operand. -/
def Symbol.Linear (ns : List Node) (us : List Token) : Symbol → Prop
  | assignment => ∀ n, ns = [n] → Expression.Linear 0 n us
  | ternary => ∀ n, ns = [n] → Expression.Linear 1 n us
  | tier level => ∀ n, ns = [n] → Expression.Linear (8 - level.length) n us
  | chain _ tighter left => ∀ n vs, ns = [n] → Expression.Linear (7 - tighter.length) left vs →
      Expression.Linear (7 - tighter.length) n (vs ++ us)
  | unary => ∀ n, ns = [n] → Expression.Linear 8 n us
  | call => ∀ n, ns = [n] → Expression.Linear 9 n us
  | calls callee => ∀ n vs, ns = [n] → Expression.Linear 9 callee vs →
      Expression.Linear 9 n (vs ++ us)
  | primary => ∀ n, ns = [n] → Expression.Linear 10 n us
  | arguments => ns.length ≤ maxEntries ∧ Node.areExpressions ns ∧
      List.Forall₂ Item.Matches (Node.entryItems ns) us
  | entries => Node.areExpressions ns ∧ List.Forall₂ Item.Matches (Node.entryItems ns) us

theorem Spells.linear {s : Symbol} {ns : List Node} {us : List Token} (h : Spells s ns us)
    (hplain : ∀ t ∈ us, t.IsPlain) : s.Linear ns us := by
  induction h with
  | assignment htarget hequals _ _ ih =>
    rintro _ ⟨rfl⟩
    obtain ⟨rfl, hname⟩ := htarget.eq_of_reference
    have hvalue := ih (fun t ht => hplain t (by simp [ht])) _ rfl
    exact .assign hname hequals hvalue
  | choice _ ih => exact fun n hn => (ih hplain n hn).loosen (by omega)
  | ternary _ hquestion _ hcolon _ ih ih' ih'' =>
    rintro _ ⟨rfl⟩
    have hcondition := ih (fun t ht => hplain t (by simp [ht])) _ rfl
    have hthen := ih' (fun t ht => hplain t (by simp [ht])) _ rfl
    have helse := ih'' (fun t ht => hplain t (by simp [ht])) _ rfl
    exact .ternary hcondition hquestion hthen hcolon helse
  | joins _ ih => exact fun n hn => (ih hplain n hn).loosen (by decide)
  | @tier t tighter left n us vs _ _ ih ih' =>
    rintro _ ⟨rfl⟩
    have hleft := ih (fun t ht => hplain t (by simp [ht])) _ rfl
    have hrank : 8 - (t :: tighter).length = 7 - tighter.length := by
      rw [List.length_cons]
      omega
    rw [hrank]
    exact ih' (fun t ht => hplain t (by simp [ht])) _ us rfl (hleft.loosen (by omega))
  | operand _ ih => exact ih hplain
  | join hlevel hoperator _ _ ih ih' =>
    rintro _ ws ⟨rfl⟩ hleft
    have hright := ih (fun t ht => hplain t (by simp [ht])) _ rfl
    have hchain := ih' (fun t ht => hplain t (by simp [ht])) _ _ rfl
      (hleft.join hlevel hoperator hright)
    simpa using hchain
  | joined | applied =>
    rintro n vs ⟨rfl⟩ hleft
    rwa [List.append_nil]
  | unary hoperator _ ih =>
    rintro _ ⟨rfl⟩
    have hoperand := ih (fun t ht => hplain t (by simp [ht])) _ rfl
    exact .unary hoperator hoperand
  | tight _ ih => exact fun n hn => (ih hplain n hn).loosen (by omega)
  | call _ _ ih ih' =>
    rintro _ ⟨rfl⟩
    have hcallee := ih (fun t ht => hplain t (by simp [ht])) _ rfl
    exact ih' (fun t ht => hplain t (by simp [ht])) _ _ rfl (hcallee.loosen (by omega))
  | apply hopening _ hclosing _ ih ih' =>
    rintro _ ws ⟨rfl⟩ hcallee
    obtain ⟨hlength, hns, hitems⟩ := ih fun t ht => hplain t (by simp [ht])
    have hcalls := ih' (fun t ht => hplain t (by simp [ht])) _ _ rfl
      (hcallee.call hopening hlength hns hitems hclosing)
    simpa using hcalls
  | literal hv =>
    rintro _ ⟨rfl⟩
    exact .constant (hplain _ (.head _)) hv
  | reference ht =>
    rintro _ ⟨rfl⟩
    exact ⟨Nat.le_refl _, by simpa [Node.isExpression] using ht, .cons rfl .nil⟩
  | grouping hopening _ hclosing ih =>
    rintro _ ⟨rfl⟩
    have hinner := ih (fun t ht => hplain t (by simp [ht])) _ rfl
    exact .grouping hopening hinner hclosing
  | none => exact ⟨Nat.zero_le _, rfl, .nil⟩
  | some hlength _ ih => exact ⟨hlength, ih hplain⟩
  | last _ ih =>
    obtain ⟨-, hn, hitems⟩ := ih hplain _ rfl
    exact ⟨by simp [Node.areExpressions, hn], by simpa [Node.entryItems, Node.moreItems] using hitems⟩
  | @cons comma n ns us vs _ hcomma hns ih ih' =>
    obtain ⟨-, hn, hitems⟩ := ih (fun t ht => hplain t (by simp [ht])) _ rfl
    obtain ⟨hns', hitems'⟩ := ih' fun t ht => hplain t (by simp [ht])
    refine ⟨by simp [Node.areExpressions, hn, hns'], ?_⟩
    cases ns with
    | nil => cases hns
    | cons n' ns => exact List.rel_append hitems (.cons hcomma hitems')

/-! ### The tokens of an expression are a phrase -/

/-- The phrases of expressions that are joined at least as tightly as a rank. -/
def symbolAt : Nat → Symbol
  | 0 => .assignment
  | 1 => .ternary
  | 8 => .unary
  | 9 => .call
  | rank + 2 => if rank < 6 then .tier (tiers.drop rank) else .primary

theorem Spells.loosen {rank rank' : Nat} {n : Node} {us : List Token}
    (h : Spells (symbolAt rank) [n] us) (hrank : rank' ≤ rank) : Spells (symbolAt rank') [n] us := by
  induction hrank with
  | refl => exact h
  | @step rank _ ih =>
    refine ih ?_
    match rank with
    | 0 => exact .choice h
    | 1 => exact .joins h
    | 2 | 3 | 4 | 5 | 6 => exact Spells.lift h
    | 7 => exact (Spells.operand h).lift
    | 8 => exact .tight h
    | 9 => exact Spells.primary_call h
    | rank + 10 => exact h

theorem symbolAt_rank {operators : List Kind} {make : Node → Token → Node → Node}
    {tighter : List Tier} (hlevel : (operators, make) :: tighter <:+ tiers) {kind : Kind}
    (hkind : kind ∈ operators) :
    symbolAt kind.rank = .tier ((operators, make) :: tighter) := by
  rw [rank_eq hlevel hkind]
  obtain ⟨rfl, rfl, rfl⟩ | ⟨rfl, rfl, rfl⟩ | ⟨rfl, rfl, rfl⟩ | ⟨rfl, rfl, rfl⟩ | ⟨rfl, rfl, rfl⟩ |
    ⟨rfl, rfl, rfl⟩ := level_cases hlevel <;> rfl

/-- The operands of a tier are the phrases of the next rank. -/
theorem Spells.tighter {operators : List Kind} {make : Node → Token → Node → Node}
    {tighter : List Tier} (hlevel : (operators, make) :: tighter <:+ tiers) {kind : Kind}
    (hkind : kind ∈ operators) {n : Node} {us : List Token}
    (h : Spells (symbolAt (kind.rank + 1)) [n] us) : Spells (.tier tighter) [n] us := by
  rw [rank_eq hlevel hkind] at h
  obtain ⟨-, -, rfl⟩ | ⟨-, -, rfl⟩ | ⟨-, -, rfl⟩ | ⟨-, -, rfl⟩ | ⟨-, -, rfl⟩ | ⟨-, -, rfl⟩ :=
    level_cases hlevel
  case inr.inr.inr.inr.inr => exact .operand h
  all_goals exact h

theorem exists_level {operators : List Kind} {make : Node → Token → Node → Node}
    (h : (operators, make) ∈ tiers) : ∃ tighter, (operators, make) :: tighter <:+ tiers := by
  obtain ⟨looser, tighter, heq⟩ := List.append_of_mem h
  exact ⟨tighter, looser, heq.symm⟩

theorem exists_level_logical {kind : Kind} (hkind : kind ∈ logicalKinds) :
    ∃ operators tighter, (operators, Node.logical) :: tighter <:+ tiers ∧ kind ∈ operators := by
  obtain ⟨operators, hmem, hoperator⟩ :
      ∃ operators, (operators, Node.logical) ∈ tiers ∧ kind ∈ operators := by
    simp only [logicalKinds, List.mem_cons, List.not_mem_nil, or_false] at hkind
    obtain rfl | rfl := hkind <;> simp [tiers]
  obtain ⟨tighter, hlevel⟩ := exists_level hmem
  exact ⟨operators, tighter, hlevel, hoperator⟩

theorem exists_level_binary {kind : Kind} (hkind : kind ∈ binaryKinds) :
    ∃ operators tighter, (operators, Node.binary) :: tighter <:+ tiers ∧ kind ∈ operators := by
  obtain ⟨operators, hmem, hoperator⟩ :
      ∃ operators, (operators, Node.binary) ∈ tiers ∧ kind ∈ operators := by
    simp only [binaryKinds, List.mem_cons, List.not_mem_nil, or_false] at hkind
    obtain hkind | hkind | hkind | hkind : kind ∈ [Kind.bangEqual, .equalEqual] ∨
        kind ∈ [Kind.greater, .greaterEqual, .less, .lessEqual] ∨ kind ∈ [Kind.minus, .plus] ∨
        kind ∈ [Kind.slash, .star] := by
      simp only [List.mem_cons, List.not_mem_nil, or_false]
      tauto
    all_goals exact ⟨_, by simp [tiers], hkind⟩
  obtain ⟨tighter, hlevel⟩ := exists_level hmem
  exact ⟨operators, tighter, hlevel, hoperator⟩

/-- Two operands and an operator between them are a phrase of its tier. -/
theorem Spells.joined_at {operators : List Kind} {make : Node → Token → Node → Node}
    {tighter : List Tier} (hlevel : (operators, make) :: tighter <:+ tiers) {operator : Token}
    (hoperator : operator.kind ∈ operators) {left right : Node} {us vs : List Token}
    (hrank : operator.kind.rank ≤ left.rank) (hleft : Spells (symbolAt left.rank) [left] us)
    (hrank' : operator.kind.rank < right.rank)
    (hright : Spells (symbolAt right.rank) [right] vs) :
    Spells (symbolAt operator.kind.rank) [make left operator right] (us ++ operator :: vs) := by
  have hleft := hleft.loosen hrank
  rw [symbolAt_rank hlevel hoperator] at hleft ⊢
  exact hleft.snoc_tier hlevel hoperator (Spells.tighter hlevel hoperator (hright.loosen hrank'))

theorem spells_literal {v : Literal} (hv : v.isPlain) {us : List Token}
    (h : List.Forall₂ Item.Matches v.items us) : Spells .primary [.literal v] us := by
  cases v with
  | unsupported shown => cases hv
  | nil =>
    obtain ⟨t, ht, rfl⟩ := forall₂_singleton.mp h
    have ht : t.kind = .kwNil := ht
    exact .literal (by simp [Token.constant?, ht])
  | bool value =>
    obtain ⟨t, ht, rfl⟩ := forall₂_singleton.mp h
    have ht : t.kind = if value then .kwTrue else .kwFalse := ht
    cases value <;> exact .literal (by simp [Token.constant?, ht])
  | number | whole | string =>
    obtain ⟨t, ⟨ht, hvalue⟩, rfl⟩ := forall₂_singleton.mp h
    exact .literal (by simp [Token.constant?, ht, hvalue])

mutual

/-- The tokens of an expression that respects the tiers are a phrase. -/
theorem spells_items : (n : Node) → ∀ {us : List Token}, n.isExpression →
    List.Forall₂ Item.Matches n.items us → Spells (symbolAt n.rank) [n] us
  | .literal v, us, hn, h => spells_literal hn h
  | .grouping inner, us, hn, h => by
    obtain ⟨opening, us, closing, rfl, hopening, hclosing, hus⟩ := forall₂_enclosed.mp h
    have hinner := (spells_items inner hn hus).loosen (Nat.zero_le _)
    exact .grouping hopening hinner hclosing
  | .reference name, us, hn, h => by
    obtain ⟨_, rfl, rfl⟩ := forall₂_singleton.mp h
    exact .reference (by simpa [Node.isExpression] using hn)
  | .assign name value, us, hn, h => by
    simp only [Node.isExpression, Bool.and_eq_true, decide_eq_true_eq] at hn
    obtain ⟨_, _, rfl, hbehind, rfl⟩ := List.forall₂_cons_left_iff.mp h
    obtain ⟨equals, us, hequals, hus, rfl⟩ := List.forall₂_cons_left_iff.mp hbehind
    have hvalue := (spells_items value hn.2 hus).loosen (Nat.zero_le _)
    exact .assignment (Spells.reference hn.1).primary_ternary hequals hvalue
  | .ternary condition question thenBranch elseBranch, us, hn, h => by
    simp only [Node.isExpression, Bool.and_eq_true, decide_eq_true_eq] at hn
    obtain ⟨⟨⟨hquestion, hcondition⟩, hthen⟩, helse⟩ := hn
    rw [Node.items] at h
    obtain ⟨us, _, rfl, hus, hbehind⟩ := forall₂_append.mp h
    obtain ⟨_, _, rfl, hbranches, rfl⟩ := List.forall₂_cons_left_iff.mp hbehind
    obtain ⟨vs, _, rfl, hvs, hlast⟩ := forall₂_append.mp hbranches
    obtain ⟨colon, ws, hcolon, hws, rfl⟩ := List.forall₂_cons_left_iff.mp hlast
    exact .ternary ((spells_items condition hcondition.2 hus).loosen hcondition.1) hquestion
      ((spells_items thenBranch hthen.2 hvs).loosen hthen.1) hcolon
      ((spells_items elseBranch helse.2 hws).loosen helse.1)
  | .logical left operator right, us, hn, h => by
    simp only [Node.isExpression, Bool.and_eq_true, decide_eq_true_eq,
      List.contains_iff_mem] at hn
    obtain ⟨⟨hkind, hleft⟩, hright⟩ := hn
    rw [Node.items] at h
    obtain ⟨us, _, rfl, hus, hbehind⟩ := forall₂_append.mp h
    obtain ⟨_, vs, rfl, hvs, rfl⟩ := List.forall₂_cons_left_iff.mp hbehind
    obtain ⟨operators, tighter, hlevel, hoperator⟩ := exists_level_logical hkind
    exact Spells.joined_at hlevel hoperator hleft.1 (spells_items left hleft.2 hus) hright.1
      (spells_items right hright.2 hvs)
  | .binary left operator right, us, hn, h => by
    simp only [Node.isExpression, Bool.and_eq_true, decide_eq_true_eq,
      List.contains_iff_mem] at hn
    obtain ⟨⟨hkind, hleft⟩, hright⟩ := hn
    rw [Node.items] at h
    obtain ⟨us, _, rfl, hus, hbehind⟩ := forall₂_append.mp h
    obtain ⟨_, vs, rfl, hvs, rfl⟩ := List.forall₂_cons_left_iff.mp hbehind
    obtain ⟨operators, tighter, hlevel, hoperator⟩ := exists_level_binary hkind
    exact Spells.joined_at hlevel hoperator hleft.1 (spells_items left hleft.2 hus) hright.1
      (spells_items right hright.2 hvs)
  | .unary operator operand, us, hn, h => by
    simp only [Node.isExpression, Bool.and_eq_true, decide_eq_true_eq,
      List.contains_iff_mem] at hn
    obtain ⟨_, us, rfl, hus, rfl⟩ := List.forall₂_cons_left_iff.mp h
    exact .unary hn.1 ((spells_items operand hn.2.2 hus).loosen hn.2.1)
  | .call callee paren arguments, us, hn, h => by
    simp only [Node.isExpression, Bool.and_eq_true, decide_eq_true_eq] at hn
    obtain ⟨⟨⟨hparen, hcallee⟩, hlength⟩, harguments⟩ := hn
    rw [Node.items] at h
    obtain ⟨us, _, rfl, hus, hbehind⟩ := forall₂_append.mp h
    obtain ⟨opening, _, hopening, hentries, rfl⟩ := List.forall₂_cons_left_iff.mp hbehind
    obtain ⟨vs, _, rfl, hvs, hlast⟩ := forall₂_append.mp hentries
    obtain ⟨_, rfl, rfl⟩ := forall₂_singleton.mp hlast
    have hcall : Spells .call [callee] us :=
      (spells_items callee hcallee.2 hus).loosen hcallee.1
    exact hcall.snoc_call hopening (spells_entryItems arguments harguments hlength hvs) hparen
  | .expression _, us, hn, _ | .print _, us, hn, _ | .declare .., us, hn, _ | .block _, us, hn, _
  | .branch .., us, hn, _ | .loop .., us, hn, _ | .function .., us, hn, _
  | .returning .., us, hn, _ | .stray _, us, hn, _ | .absent, us, hn, _ => by
    cases hn

theorem spells_entryItems : (ns : List Node) → ∀ {us : List Token}, Node.areExpressions ns →
    ns.length ≤ maxEntries → List.Forall₂ Item.Matches (Node.entryItems ns) us →
      Spells .arguments ns us
  | [], us, _, _, h => by
    obtain rfl := List.forall₂_nil_left_iff.mp h
    exact .none
  | n :: ns, us, hns, hlength, h => by
    simp only [Node.areExpressions, Bool.and_eq_true] at hns
    rw [Node.entryItems] at h
    obtain ⟨us, vs, rfl, hus, hvs⟩ := forall₂_append.mp h
    have hfirst := (spells_items n hns.1 hus).loosen (Nat.zero_le _)
    exact .some hlength (spells_moreItems ns hfirst hns.2 hvs)

theorem spells_moreItems : (ns : List Node) → ∀ {n : Node} {us vs : List Token},
    Spells .assignment [n] us → Node.areExpressions ns →
      List.Forall₂ Item.Matches (Node.moreItems ns) vs → Spells .entries (n :: ns) (us ++ vs)
  | [], n, us, vs, hn, _, h => by
    obtain rfl := List.forall₂_nil_left_iff.mp h
    rw [List.append_nil]
    exact .last hn
  | n' :: ns, n, us, vs, hn, hns, h => by
    simp only [Node.areExpressions, Bool.and_eq_true] at hns
    rw [Node.moreItems] at h
    obtain ⟨comma, _, hcomma, hbehind, rfl⟩ := List.forall₂_cons_left_iff.mp h
    obtain ⟨us', vs, rfl, hus', hvs⟩ := forall₂_append.mp hbehind
    have hnext := (spells_items n' hns.1 hus').loosen (Nat.zero_le _)
    exact .cons hn hcomma (spells_moreItems ns hnext hns.2 hvs)

end

end Expression

end Lox
