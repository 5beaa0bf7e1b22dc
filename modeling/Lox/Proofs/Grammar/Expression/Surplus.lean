import Lox.Proofs.Grammar.Expression
import Lox.Proofs.Grammar.Yielding

/-!
# Expressions with long lists of arguments

A list of arguments that is too long is reported, and read all the same. So the phrases of
expressions are described here once more, with lists of any length and with what is reported of
them: the first token of every argument that has enough others in front of it, and in front of what
is reported inside of this argument. Each list counts its own arguments.

## Main definitions

* `Expression.SpellsLong`: tokens spell some trees, with some reports.

## Main results

* `Expression.Spells.long`: the phrases of expressions have no reports.
-/

namespace Lox

namespace Expression

open Parse (surplusReports)

/-- The tokens spell the trees as a phrase of some kind whose lists may be too long, which is
reported. Of entries, `count` others stand in front. -/
inductive SpellsLong : (count : Nat) → Symbol → List Node → List SyntaxReport → List Token → Prop
  | assignment {name equals : Token} {value : Node} {rs rs' : List SyntaxReport}
      {us vs : List Token} (htarget : SpellsLong 0 .ternary [.reference name] rs us)
      (hequals : equals.kind = .equal) (hvalue : SpellsLong 0 .assignment [value] rs' vs) :
      SpellsLong 0 .assignment [.assign name value] (rs ++ rs') (us ++ equals :: vs)
  | choice {n : Node} {rs : List SyntaxReport} {us : List Token}
      (h : SpellsLong 0 .ternary [n] rs us) : SpellsLong 0 .assignment [n] rs us
  | ternary {question colon : Token} {condition thenBranch elseBranch : Node}
      {rs rs' rs'' : List SyntaxReport} {us vs ws : List Token}
      (hcondition : SpellsLong 0 (.tier tiers) [condition] rs us)
      (hquestion : question.kind = .question) (hthen : SpellsLong 0 .ternary [thenBranch] rs' vs)
      (hcolon : colon.kind = .colon) (helse : SpellsLong 0 .ternary [elseBranch] rs'' ws) :
      SpellsLong 0 .ternary [.ternary condition question thenBranch elseBranch]
        (rs ++ (rs' ++ rs'')) (us ++ question :: (vs ++ colon :: ws))
  | joins {n : Node} {rs : List SyntaxReport} {us : List Token}
      (h : SpellsLong 0 (.tier tiers) [n] rs us) : SpellsLong 0 .ternary [n] rs us
  | tier {t : Tier} {tighter : List Tier} {left n : Node} {rs rs' : List SyntaxReport}
      {us vs : List Token} (hleft : SpellsLong 0 (.tier tighter) [left] rs us)
      (hchain : SpellsLong 0 (.chain t tighter left) [n] rs' vs) :
      SpellsLong 0 (.tier (t :: tighter)) [n] (rs ++ rs') (us ++ vs)
  | operand {n : Node} {rs : List SyntaxReport} {us : List Token}
      (h : SpellsLong 0 .unary [n] rs us) : SpellsLong 0 (.tier []) [n] rs us
  | join {operators : List Kind} {make : Node → Token → Node → Node} {tighter : List Tier}
      {left right n : Node} {operator : Token} {rs rs' : List SyntaxReport} {us vs : List Token}
      (hlevel : (operators, make) :: tighter <:+ tiers) (hoperator : operator.kind ∈ operators)
      (hright : SpellsLong 0 (.tier tighter) [right] rs us)
      (hchain : SpellsLong 0 (.chain (operators, make) tighter (make left operator right)) [n]
        rs' vs) :
      SpellsLong 0 (.chain (operators, make) tighter left) [n] (rs ++ rs')
        (operator :: (us ++ vs))
  | joined (t : Tier) (tighter : List Tier) (n : Node) :
      SpellsLong 0 (.chain t tighter n) [n] [] []
  | unary {operator : Token} {n : Node} {rs : List SyntaxReport} {us : List Token}
      (hoperator : operator.kind ∈ [Kind.bang, .minus]) (h : SpellsLong 0 .unary [n] rs us) :
      SpellsLong 0 .unary [.unary operator n] rs (operator :: us)
  | tight {n : Node} {rs : List SyntaxReport} {us : List Token}
      (h : SpellsLong 0 .call [n] rs us) : SpellsLong 0 .unary [n] rs us
  | call {callee n : Node} {rs rs' : List SyntaxReport} {us vs : List Token}
      (hcallee : SpellsLong 0 .primary [callee] rs us)
      (hcalls : SpellsLong 0 (.calls callee) [n] rs' vs) :
      SpellsLong 0 .call [n] (rs ++ rs') (us ++ vs)
  | apply {opening closing : Token} {callee n : Node} {ns : List Node}
      {rs rs' : List SyntaxReport} {us vs : List Token} (hopening : opening.kind = .leftParen)
      (hns : SpellsLong 0 .arguments ns rs us) (hclosing : closing.kind = .rightParen)
      (hcalls : SpellsLong 0 (.calls (.call callee closing ns)) [n] rs' vs) :
      SpellsLong 0 (.calls callee) [n] (rs ++ rs') (opening :: (us ++ closing :: vs))
  | applied (n : Node) : SpellsLong 0 (.calls n) [n] [] []
  | literal {t : Token} {v : Literal} (h : t.constant? = some v) :
      SpellsLong 0 .primary [.literal v] [] [t]
  | reference {t : Token} (h : t.kind = .identifier) :
      SpellsLong 0 .primary [.reference t] [] [t]
  | grouping {opening closing : Token} {n : Node} {rs : List SyntaxReport} {us : List Token}
      (hopening : opening.kind = .leftParen) (h : SpellsLong 0 .assignment [n] rs us)
      (hclosing : closing.kind = .rightParen) :
      SpellsLong 0 .primary [.grouping n] rs (opening :: (us ++ [closing]))
  | none : SpellsLong 0 .arguments [] [] []
  | some {ns : List Node} {rs : List SyntaxReport} {us : List Token}
      (h : SpellsLong 0 .entries ns rs us) : SpellsLong 0 .arguments ns rs us
  | last {count : Nat} {n : Node} {rs : List SyntaxReport} {us : List Token}
      (h : SpellsLong 0 .assignment [n] rs us) :
      SpellsLong count .entries [n] (surplusReports .tooManyArguments count us ++ rs) us
  | cons {count : Nat} {comma : Token} {n : Node} {ns : List Node} {rs rs' : List SyntaxReport}
      {us vs : List Token} (h : SpellsLong 0 .assignment [n] rs us) (hcomma : comma.kind = .comma)
      (hns : SpellsLong (count + 1) .entries ns rs' vs) :
      SpellsLong count .entries (n :: ns) (surplusReports .tooManyArguments count us ++ (rs ++ rs'))
        (us ++ comma :: vs)

/-- The number of entries in front that matters for a phrase. -/
def Symbol.Counts (count total : Nat) : Symbol → Prop
  | entries => count + total ≤ maxEntries
  | _ => count = 0

/-- Nothing is reported of a phrase whose lists are not too long. -/
theorem Spells.long {s : Symbol} {ns : List Node} {us : List Token} (h : Spells s ns us)
    {count : Nat} (hcount : s.Counts count ns.length) : SpellsLong count s ns [] us := by
  induction h generalizing count with
  | assignment _ hequals _ ih ih' => exact hcount ▸ .assignment (ih rfl) hequals (ih' rfl)
  | choice _ ih => exact hcount ▸ .choice (ih rfl)
  | ternary _ hquestion _ hcolon _ ih ih' ih'' =>
    exact hcount ▸ .ternary (ih rfl) hquestion (ih' rfl) hcolon (ih'' rfl)
  | joins _ ih => exact hcount ▸ .joins (ih rfl)
  | tier _ _ ih ih' => exact hcount ▸ .tier (ih rfl) (ih' rfl)
  | operand _ ih => exact hcount ▸ .operand (ih rfl)
  | join hlevel hoperator _ _ ih ih' =>
    exact hcount ▸ .join hlevel hoperator (ih rfl) (ih' rfl)
  | joined t tighter n => exact hcount ▸ .joined t tighter n
  | unary hoperator _ ih => exact hcount ▸ .unary hoperator (ih rfl)
  | tight _ ih => exact hcount ▸ .tight (ih rfl)
  | call _ _ ih ih' => exact hcount ▸ .call (ih rfl) (ih' rfl)
  | apply hopening _ hclosing _ ih ih' =>
    exact hcount ▸ .apply hopening (ih rfl) hclosing (ih' rfl)
  | applied n => exact hcount ▸ .applied n
  | literal hv => exact hcount ▸ .literal hv
  | reference ht => exact hcount ▸ .reference ht
  | grouping hopening _ hclosing ih => exact hcount ▸ .grouping hopening (ih rfl) hclosing
  | none => exact hcount ▸ .none
  | some hlength _ ih => exact hcount ▸ .some (ih (by rwa [Symbol.Counts, Nat.zero_add]))
  | @last n us _ ih =>
    have hlast := @SpellsLong.last count n [] us (ih rfl)
    rwa [Parse.surplusReports_of_lt hcount] at hlast
  | @cons comma n ns us vs _ hcomma _ ih ih' =>
    rw [Symbol.Counts, List.length_cons] at hcount
    have hns : SpellsLong (count + 1) .entries ns [] vs := ih' (by rw [Symbol.Counts]; omega)
    have hcons := SpellsLong.cons (ih rfl) hcomma hns
    rwa [Parse.surplusReports_of_lt (by omega)] at hcons

/-! ### Calls of calls -/

section Calls

variable {callee n : Node} {opening closing : Token} {ns : List Node}
variable {rs rs' : List SyntaxReport} {us vs : List Token}

theorem SpellsLong.snoc_calls (h : SpellsLong 0 (.calls callee) [n] rs us)
    (hopening : opening.kind = .leftParen) (hns : SpellsLong 0 .arguments ns rs' vs)
    (hclosing : closing.kind = .rightParen) :
    SpellsLong 0 (.calls callee) [.call n closing ns] (rs ++ rs')
      (us ++ opening :: (vs ++ [closing])) := by
  generalize hcount : 0 = count at h
  generalize hs : Symbol.calls callee = s at h
  generalize hn : [n] = trees at h
  induction h generalizing callee with
  | apply hfirst harguments hlast _ _ ih =>
    cases hs
    have happly := SpellsLong.apply hfirst harguments hlast (ih rfl rfl hn)
    simpa using happly
  | applied =>
    cases hs
    cases hn
    have happly := SpellsLong.apply hopening hns hclosing (.applied (.call n closing ns))
    rwa [List.append_nil] at happly
  | _ => cases hs

/-- A call can be called, and its arguments are reported behind what is reported of it. -/
theorem SpellsLong.snoc_call (h : SpellsLong 0 .call [n] rs us)
    (hopening : opening.kind = .leftParen) (hns : SpellsLong 0 .arguments ns rs' vs)
    (hclosing : closing.kind = .rightParen) :
    SpellsLong 0 .call [.call n closing ns] (rs ++ rs') (us ++ opening :: (vs ++ [closing])) := by
  cases h with
  | call hcallee hcalls =>
    rw [List.append_assoc, List.append_assoc]
    exact .call hcallee (hcalls.snoc_calls hopening hns hclosing)

end Calls

end Expression

end Lox
