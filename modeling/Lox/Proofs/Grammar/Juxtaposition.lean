import Lox.Proofs.Grammar.Language
import Lox.Proofs.Grammar.Lenient

/-!
# Expressions side by side

An expression that begins with a parenthesis or with a minus can stand right behind any other
expression: the parenthesis is taken for that of a call, the minus for a difference. The two are one
expression then. No other expression can go on with the one in front of it.

## Main definitions

* `Grammar.Symbol.Absorbs`: words of a symbol can stand side by side.

## Main results

* `Grammar.absorbs_expression`: expressions that can stand behind any other one.
* `Expression.Spells.juxtapose`: the phrase that two phrases are side by side.
-/

namespace Lox

namespace Grammar

namespace Symbol

/-- Any word of the symbol goes on with any other one that begins with a token of some kind. -/
def Absorbs (s : Symbol) (k : Kind) : Prop :=
  ∀ ⦃u v : List Kind⦄, Derives s u → Derives s (k :: v) → Derives s (u ++ k :: v)

end Symbol

variable {k : Kind} {u v : List Kind} {level : List Kind} {levels : List (List Kind)}

/-- There are operands in front of operators and arguments. -/
theorem Derives.exists_cons {s : Symbol} (h : Derives s u) (hs : ¬ s.Begins []) {w : List Kind}
    (heq : k :: v = u ++ w) : ∃ u', u = k :: u' ∧ v = u' ++ w := by
  cases u with
  | nil => exact absurd h.admits.begins hs
  | cons k' u' =>
    obtain ⟨rfl, rfl⟩ := List.cons.inj heq
    exact ⟨u', rfl, rfl⟩

/-! ### Calls -/

theorem absorbs_call : Symbol.call.Absorbs .leftParen := by
  intro u v hu hv
  generalize hs : Symbol.call = s at hv
  generalize hw : Kind.leftParen :: v = w at hv
  induction hv generalizing v with
  | @call w ws hcallee hlength hws ih _ =>
    obtain ⟨w', rfl, rfl⟩ := hcallee.exists_cons (fun h => h) hw
    have hcall := Derives.call (ih rfl rfl) hlength hws
    rwa [List.append_assoc] at hcall
  | atom h _ =>
    subst hw
    cases h with
    | constant hk => exact absurd hk (by decide)
    | @grouping w h =>
      -- What was in parentheses becomes the only argument.
      have hone : [w].length ≤ maxEntries := show 1 ≤ maxEntries by decide
      exact .call hu hone (List.forall_mem_singleton.mpr h)
  | _ => cases hs

theorem absorbs_unary : Symbol.unary.Absorbs .leftParen := by
  intro u v hu hv
  generalize hs : Symbol.unary = s at hu
  induction hu with
  | unary hk _ ih =>
    cases hs
    exact .unary hk (ih rfl)
  | tight hu _ =>
    cases hv with
    | unary hk => exact absurd hk (by decide)
    | tight hv => exact .tight (absorbs_call hu hv)
  | _ => cases hs

/-! ### Tiers -/

/-- The word on the right may be assumed to have no operator of the tier in it. -/
theorem absorbs_tier (h : ∀ ⦃u v⦄, Derives (.tier (level :: levels)) u →
      Derives (.tier levels) (k :: v) → Derives (.tier (level :: levels)) (u ++ k :: v)) :
    (Symbol.tier (level :: levels)).Absorbs k := by
  intro u v hu hv
  generalize hs : Symbol.tier (level :: levels) = s at hv
  generalize hw : k :: v = w at hv
  induction hv generalizing v with
  | @join _ _ w _ _ hleft hk hright ih _ =>
    cases hs
    obtain ⟨w', rfl, rfl⟩ := hleft.exists_cons (fun h => h) hw
    have hjoin := Derives.join (ih rfl rfl) hk hright
    rwa [List.append_assoc] at hjoin
  | tighter hv _ =>
    cases hs
    subst hw
    exact h hu hv
  | _ => cases hs

/-- What the operands of a tier go on with, its words go on with. -/
theorem Symbol.Absorbs.tier (h : (Symbol.tier levels).Absorbs k) :
    (Symbol.tier (level :: levels)).Absorbs k := by
  refine absorbs_tier fun u v hu hv => ?_
  cases hu with
  | join hleft hk hright =>
    rw [List.append_assoc]
    exact .join hleft hk (h hright hv)
  | tighter hu => exact .tighter (h hu hv)

/-- A word that begins with a minus is a word without it as well. -/
theorem Derives.of_minus_cons (h : Derives (.tier levels) (.minus :: v)) :
    Derives (.tier levels) v := by
  generalize hs : Symbol.tier levels = s at h
  generalize hw : Kind.minus :: v = w at h
  induction h generalizing levels v with
  | join hleft hk hright ih _ =>
    cases hs
    obtain ⟨w', rfl, rfl⟩ := hleft.exists_cons (fun h => h) hw
    exact .join (ih rfl rfl) hk hright
  | tighter _ ih =>
    cases hs
    exact .tighter (ih rfl hw)
  | operand h _ =>
    cases hs
    subst hw
    cases h with
    | unary _ h => exact .operand h
    | tight h =>
      have hbegins : Kind.minus ∈ Expression.primaryKinds := h.admits.begins
      exact absurd hbegins (by decide)
  | _ => cases hs

theorem absorbs_operators (hk : k ∈ [Kind.leftParen, .minus]) :
    (Symbol.tier operators).Absorbs k := by
  simp only [List.mem_cons, List.not_mem_nil, or_false] at hk
  obtain rfl | rfl := hk
  · have hoperand : (Symbol.tier []).Absorbs .leftParen := by
      intro u v hu hv
      cases hu with
      | operand hu =>
        cases hv with
        | operand hv => exact .operand (absorbs_unary hu hv)
    exact hoperand.tier.tier.tier.tier.tier.tier
  · have hsum : (Symbol.tier (operators.drop 4)).Absorbs .minus :=
      absorbs_tier fun u v hu hv => .join hu (by decide) hv.of_minus_cons
    exact hsum.tier.tier.tier.tier

/-! ### Expressions -/

theorem absorbs_ternary (hk : k ∈ [Kind.leftParen, .minus]) : Symbol.ternary.Absorbs k := by
  intro u v hu hv
  generalize hs : Symbol.ternary = s at hu
  induction hu with
  | ternary hcondition hthen _ _ _ ih =>
    cases hs
    have hternary := Derives.ternary hcondition hthen (ih rfl)
    simpa using hternary
  | joins hu _ =>
    generalize hw : k :: v = w at hv
    cases hv with
    | ternary hcondition hthen helse =>
      obtain ⟨w', rfl, rfl⟩ := hcondition.exists_cons (fun h => h) hw
      have hternary := Derives.ternary (absorbs_operators hk hu hcondition) hthen helse
      rwa [List.append_assoc] at hternary
    | joins hv =>
      subst hw
      exact .joins (absorbs_operators hk hu hv)
  | _ => cases hs

/-- An expression that begins with a parenthesis or a minus can stand behind any other one. -/
theorem absorbs_expression (hk : k ∈ [Kind.leftParen, .minus]) : Symbol.expression.Absorbs k := by
  intro u v hu hv
  generalize hs : Symbol.expression = s at hu
  induction hu with
  | assignment _ ih =>
    cases hs
    exact .assignment (ih rfl)
  | choice hu _ =>
    cases hv with
    | assignment => exact absurd hk (by decide)
    | choice hv => exact .choice (absorbs_ternary hk hu hv)
  | _ => cases hs

end Grammar

namespace Expression

/-- If an expression begins with a token that goes on with the one in front of it, the two are one
expression. -/
theorem Spells.juxtapose {n m : Node} {us vs : List Token} {t : Token}
    (hn : Spells .assignment [n] us) (hm : Spells .assignment [m] (t :: vs))
    (ht : t.kind ∈ Symbol.assignment.continuing) : ∃ l, Spells .assignment [l] (us ++ t :: vs) := by
  have hboth : ∀ k ∈ openingKinds, k ∈ Symbol.assignment.continuing →
      k ∈ [Kind.leftParen, .minus] := by decide
  have hkind : t.kind ∈ [Kind.leftParen, .minus] := hboth _ hm.opens ht
  have hus : Grammar.Derives .expression (us.map Token.kind) := hn.derives
  have hvs : Grammar.Derives .expression (t.kind :: vs.map Token.kind) := hm.derives
  exact (Grammar.absorbs_expression hkind hus hvs).covers (by simp)

end Expression

end Lox
