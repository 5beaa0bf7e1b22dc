import Lox.Proofs.Execution.Levels
import Lox.Proofs.Execution.Likeness

/-!
# Where runtime errors are raised

A runtime error is raised at one task of a run: an operator is applied, a variable is named, a call
is made, a value is given back, or a host function fails. From there it breaks off all tasks that
this one is a part of, and each call by the program that it passes through blames it on the closing
parenthesis, unless it is blamed on a token already. Nothing else makes a runtime error, and nothing
else happens to it.

## Main definitions

* `Failure.through`: what becomes of a runtime error on its way out of calls.
* `Engine.Raises`: the runtime errors that a task raises itself.
* `Engine.Explained`: those that it raises itself or that come from a task it starts.
* `Raised`: those that are raised somewhere in the performance of a task, with the calls by the
  program that are in progress there.

## Main results

* `Engine.breaks_above_iff`: a level fails with what is raised on it or comes from the level below.
* `breaks_ofDepth_iff`: a task fails with a runtime error exactly if this has been raised somewhere,
  on its way out of the calls in progress.
* `Run.breaks_executeAll_iff`: so does a program.
-/

namespace Lox

/-! ### On the way out of calls -/

namespace Failure

/-- A runtime error on its way out of calls with these closing parentheses, the innermost first. -/
def through (f : Failure) (parens : List Token) : Failure :=
  parens.foldl (fun f paren => f.adopt paren) f

@[simp]
theorem through_nil (f : Failure) : f.through [] = f := rfl

theorem through_append (f : Failure) (ps qs : List Token) :
    f.through (ps ++ qs) = (f.through ps).through qs :=
  List.foldl_append

@[simp]
theorem cause_through (f : Failure) (ps : List Token) : (f.through ps).cause = f.cause := by
  induction ps generalizing f with
  | nil => rfl
  | cons p ps ih => exact ih (f.adopt p)

/-- What is blamed is the token that the error has been raised with, and if there is none, the
parenthesis of the innermost call. -/
@[simp]
theorem token_through (f : Failure) (ps : List Token) :
    (f.through ps).token = f.token.or ps.head? := by
  obtain ⟨cause, token⟩ := f
  induction ps generalizing token with
  | nil => exact Option.or_none.symm
  | cons p ps ih =>
    refine (ih (some (token.getD p))).trans ?_
    cases token <;> rfl

end Failure

/-- What a call makes of an interrupt it makes of a runtime error as well. -/
theorem Interrupt.elim_adopt (o : Option Token) (f : Failure) :
    o.elim (failed f) (failed f).adopt = failed (f.through o.toList) := by
  cases o <;> rfl

/-! ### Steps that are broken off by a runtime error -/

namespace Run

variable {α β : Type} {e : Interrupt} {f : Failure} {m : Machine}

instance (r : Run α) (f : Failure) (m : Machine) : Decidable (r.Breaks (.failed f) m) :=
  match h : r m with
  | .error (.failed f') m' =>
    if hf : f' = f then .isTrue ⟨m', hf ▸ h⟩
    else .isFalse fun ⟨m'', h'⟩ => hf (by rw [h] at h'; cases h'; rfl)
  | .error (.returned _) _ | .error .overflow _ | .error .unfinished _ | .error (.broken _) _
  | .ok _ _ => .isFalse fun ⟨m'', h'⟩ => by
    rw [h] at h'
    cases h'

theorem breaks_bind_iff {p : Run α} {q : α → Run β} :
    (p >>= q).Breaks e m ↔ p.Breaks e m ∨ ∃ a m', p m = .ok a m' ∧ (q a).Breaks e m' := by
  constructor
  · rintro ⟨m', h⟩
    cases hp : p m with
    | ok a m₁ =>
      rw [bind_of_ok hp] at h
      exact .inr ⟨a, m₁, rfl, m', h⟩
    | error e' m₁ =>
      rw [bind_of_error hp] at h
      cases h
      exact .inl ⟨m', hp⟩
  · rintro (h | ⟨a, m', hp, h⟩)
    · exact h.bind q
    · exact .bind_of_ok hp h

/-- A step that ends in another way is not broken off. -/
theorem not_breaks_of_ok {r : Run α} {a : α} {m' : Machine} (h : r m = .ok a m') :
    ¬ r.Breaks e m := by
  rintro ⟨m'', hr⟩
  rw [h] at hr
  cases hr

/-- If the first of two steps is not broken off in this way, the second is. -/
theorem Breaks.of_bind {p : Run α} {q : α → Run β} (h : (p >>= q).Breaks e m)
    (hp : ¬ p.Breaks e m) : ∃ a m', p m = .ok a m' ∧ (q a).Breaks e m' :=
  (breaks_bind_iff.mp h).resolve_left hp

theorem Breaks.of_throw {e' : Interrupt} (h : (throw e' : Run α).Breaks e m) : e = e' := by
  obtain ⟨m', h⟩ := h
  cases h
  rfl

theorem Breaks.of_fail {cause : Cause} {token : Option Token}
    (h : (Run.fail cause token : Run α).Breaks (.failed f) m) : f = ⟨cause, token⟩ :=
  Interrupt.failed.inj h.of_throw

theorem Breaks.of_ofExcept {r : Except Failure α} (h : (Run.ofExcept r).Breaks (.failed f) m) :
    r = .error f := by
  cases r with
  | ok a => exact absurd h (not_breaks_of_ok rfl)
  | error f' => exact congrArg _ (Interrupt.failed.inj h.of_throw).symm

theorem Breaks.of_within {r : Run Unit} {c : Chain} (h : (Run.within c r).Breaks e m) :
    r.Breaks e { m with scope := c } := by
  obtain ⟨m', h⟩ := h
  rw [Run.within] at h
  cases hr : r { m with scope := c } with
  | ok a m₁ => rw [hr] at h; cases h
  | error e' m₁ =>
    rw [hr] at h
    cases h
    exact ⟨m₁, hr⟩

theorem Breaks.of_counted {r : Run α} (h : (Run.counted r).Breaks e m) : r.Breaks e m.inCall := by
  obtain ⟨m', h⟩ := h
  rw [Run.counted] at h
  cases hr : r { m with callDepth := m.callDepth + 1 } with
  | ok a m₁ => rw [hr] at h; cases h
  | error e' m₁ =>
    rw [hr] at h
    cases h
    exact ⟨m₁, hr⟩

theorem Breaks.of_adopting {r : Run α} {t : Token} (h : (Run.adopting t r).Breaks (.failed f) m) :
    ∃ f₀, r.Breaks (.failed f₀) m ∧ f = f₀.adopt t := by
  obtain ⟨m', h⟩ := h
  rw [Run.adopting] at h
  cases hr : r m with
  | ok a m₁ => rw [hr] at h; cases h
  | error e' m₁ =>
    rw [hr] at h
    cases e' with
    | failed f₀ =>
      cases h
      exact ⟨f₀, ⟨m', hr⟩, rfl⟩
    | _ => cases h

theorem Breaks.of_catchingReturn {r : Run Unit} (h : (Run.catchingReturn r).Breaks (.failed f) m) :
    r.Breaks (.failed f) m := by
  obtain ⟨m', h⟩ := h
  rw [Run.catchingReturn] at h
  cases hr : r m with
  | ok a m₁ => rw [hr] at h; cases h
  | error e' m₁ =>
    rw [hr] at h
    cases e' with
    | failed f' =>
      cases h
      exact ⟨m', hr⟩
    | _ => cases h

theorem not_breaks_computed (v : Value) : ¬ (Run.computed v).Breaks e m := by
  cases v with
  | number n =>
    simp only [Run.computed]
    split
    · exact not_breaks_of_ok rfl
    · exact not_breaks_of_ok rfl
  | _ => exact not_breaks_of_ok rfl

/-- What an operator makes of values is broken off by the operator only. -/
theorem Breaks.of_result {r : Except Failure Value}
    (h : (do Run.computed (← Run.ofExcept r) : Run Value).Breaks (.failed f) m) :
    r = .error f := by
  obtain h | ⟨v, m', -, h⟩ := breaks_bind_iff.mp h
  · exact h.of_ofExcept
  · exact absurd h (not_breaks_computed v)

theorem Breaks.of_lookup {name : Token} (h : (Run.lookup name).Breaks (.failed f) m) :
    m.scopes.get? m.scope name.lexeme = none ∧
      f = ⟨.undefinedVariable name.lexeme, some name⟩ := by
  obtain ⟨m', h⟩ := h
  rw [Run.lookup] at h
  split at h
  · cases h
  · cases h
    exact ⟨‹_›, rfl⟩

theorem Breaks.of_assign {name : Token} {v : Value} (h : (Run.assign name v).Breaks (.failed f) m) :
    m.scopes.owner? m.scope name.lexeme = none ∧
      f = ⟨.undefinedVariable name.lexeme, some name⟩ := by
  obtain ⟨m', h⟩ := h
  rw [Run.assign] at h
  split at h
  · cases h
  · cases h
    exact ⟨‹_›, rfl⟩

/-- A loop is broken off by a runtime error of one of its passes only. -/
theorem Breaks.of_iterate {pass : Run Bool} {passes : Nat}
    (h : (Run.iterate passes pass).Breaks (.failed f) m) :
    ∃ k m', Passed pass k m m' ∧ k < passes ∧ pass.Breaks (.failed f) m' := by
  induction passes generalizing m with
  | zero => cases h.of_throw
  | succ passes ih =>
    obtain ⟨m', h⟩ := h
    cases hp : pass m with
    | ok again m₁ =>
      cases again with
      | true =>
        rw [Run.iterate_of_again passes hp] at h
        obtain ⟨k, m₂, hk, hlt, hpass⟩ := ih ⟨m', h⟩
        exact ⟨k + 1, m₂, .cons hp hk, Nat.succ_lt_succ hlt, hpass⟩
      | false =>
        rw [Run.iterate_of_done passes hp] at h
        cases h
    | error e m₁ =>
      rw [Run.iterate_of_error passes hp] at h
      cases h
      exact ⟨0, m, .none m, Nat.succ_pos _, m', hp⟩

end Run

namespace Engine

variable (host : Host) (below : Engine)

/-! ### What a task raises itself -/

/-- The runtime error that a host function ends with, after its calls have been answered, its
comparisons made, and its notes added and read. -/
inductive Fails : List Answer → Action → Machine → Failure → Prop
  | now {given : List Answer} {kind : FailureKind} {message : String} {token : Option Token}
      {m : Machine} : Fails given (.fail kind message token) m ⟨.host kind message, token⟩
  | later {given : List Answer} {callee : Nat} {arguments : List Offer} {next : View → Action}
      {g : Value} {vs : List Value} {answer : Answer} {m m₁ m₂ m₃ : Machine} {f : Failure} :
      passed given (.given callee) m = .ok g m₁ → passedAll given arguments m₁ = .ok vs m₂ →
      below.invoke g vs m₂ = .ok answer m₃ →
      Fails (given ++ [answer]) (next (.ofAnswer answer)) m₃ f →
      Fails given (.invoke callee arguments next) m f
  | compared {given : List Answer} {left right : Nat} {next : Bool → Action} {same : Bool}
      {m m' : Machine} {f : Failure} :
      compared given left right m = .ok same m' → Fails given (next same) m' f →
      Fails given (.compare left right next) m f
  | noted {given : List Answer} {entry : View} {next : Action} {m m' : Machine} {f : Failure} :
      Run.note entry m = .ok () m' → Fails given next m' f → Fails given (.note entry next) m f
  | consulted {given : List Answer} {next : List View → Action} {m : Machine} {f : Failure} :
      Fails given (next m.notes) m f → Fails given (.consult next) m f

/-- The runtime errors that a task raises itself when it finds a machine. Where this happens in a
call by the program that the task makes, there is the closing parenthesis of this call; the errors
are those from before the call has blamed them on it. -/
inductive Raises : Task → Machine → Option Token → Failure → Prop
  | literal {l : Literal} {m : Machine} {f : Failure} :
      l.value = .error f → Raises (.evaluate (.literal l)) m none f
  | unary {operator : Token} {n : Node} {v : Value} {m m' : Machine} {f : Failure} :
      below.evaluate n m = .ok v m' → v.applyUnary operator = .error f →
      Raises (.evaluate (.unary operator n)) m none f
  | binary {l r : Node} {operator : Token} {a b : Value} {m m' m'' : Machine} {f : Failure} :
      below.evaluate l m = .ok a m' → below.evaluate r m' = .ok b m'' →
      a.applyBinary operator b = .error f → Raises (.evaluate (.binary l operator r)) m none f
  | reference {name : Token} {m : Machine} :
      m.scopes.get? m.scope name.lexeme = none →
      Raises (.evaluate (.reference name)) m none ⟨.undefinedVariable name.lexeme, some name⟩
  | assign {name : Token} {n : Node} {v : Value} {m m' : Machine} :
      below.evaluate n m = .ok v m' → m'.scopes.owner? m'.scope name.lexeme = none →
      Raises (.evaluate (.assign name n)) m none ⟨.undefinedVariable name.lexeme, some name⟩
  | notCallable {c : Node} {paren : Token} {arguments : List Node} {g : Value} {m m' : Machine} :
      below.evaluate c m = .ok g m' → g.isCallable = false →
      Raises (.evaluate (.call c paren arguments)) m none ⟨.notCallable, some paren⟩
  | argumentCount {c : Node} {paren : Token} {arguments : List Node} {g : Value} {vs : List Value}
      {m m' m'' : Machine} :
      below.evaluate c m = .ok g m' → g.isCallable → evaluateAll below arguments m' = .ok vs m'' →
      vs.length ≠ arity host g →
      Raises (.evaluate (.call c paren arguments)) m none
        ⟨.argumentCount (arity host g) vs.length, some paren⟩
  | foreign {c : Node} {paren : Token} {arguments : List Node} {g : Value} {vs : List Value}
      {typeName : String} {m m' m'' m₃ : Machine} :
      below.evaluate c m = .ok g m' → g.isCallable → evaluateAll below arguments m' = .ok vs m'' →
      vs.length = arity host g → below.invoke g vs m''.inCall = .ok (.foreign typeName) m₃ →
      Raises (.evaluate (.call c paren arguments)) m (some paren) ⟨.unexpectedValue typeName, none⟩
  | noExpression {n : Node} {m : Machine} :
      n.isEvaluable = false → Raises (.evaluate n) m none ⟨.unknownExpression n.label, none⟩
  | returnOutside {keyword : Token} {value : Option Node} {m : Machine} :
      m.callDepth = 0 →
      Raises (.execute (.returning keyword value)) m none ⟨.returnOutsideFunction, some keyword⟩
  | noStatement {n : Node} {m : Machine} :
      n.isExecutable = false → Raises (.execute n) m none ⟨.unknownStatement n.label, none⟩
  | native {index : Nat} {native : Native} {arguments : List Value} {m : Machine} {f : Failure} :
      host.natives[index]? = some native →
      Fails below (arguments.map .value) (native.action (arguments.map View.ofValue)) m f →
      Raises (.invoke (.native index) arguments) m none f

variable {host below} {t : Task} {m : Machine} {f : Failure}

theorem Fails.breaks {given : List Answer} {action : Action} (h : Fails below given action m f) :
    (act below given action).Breaks (.failed f) m := by
  induction h with
  | now => exact ⟨_, rfl⟩
  | later hg hvs hinvoke _ ih => exact .bind_of_ok hg (.bind_of_ok hvs (.bind_of_ok hinvoke ih))
  | compared hsame _ ih => exact .bind_of_ok hsame ih
  | noted hnote _ ih => exact .bind_of_ok hnote ih
  | consulted _ ih => exact .bind_of_ok rfl ih

/-- What a task raises breaks it off. -/
theorem Raises.breaks {paren : Option Token} (h : Raises host below t m paren f) :
    (above host below).Breaks (.failed (f.through paren.toList)) t m := by
  cases h with
  | literal hl => exact ⟨m, congrArg (fun r => Run.ofExcept r m) hl⟩
  | unary hv hop =>
    exact .bind_of_ok hv (.bind ⟨_, congrArg (fun r => Run.ofExcept r _) hop⟩ _)
  | binary hl hr hop =>
    exact .bind_of_ok hl (.bind_of_ok hr (.bind ⟨_, congrArg (fun r => Run.ofExcept r _) hop⟩ _))
  | reference hget =>
    refine ⟨m, ?_⟩
    change Run.lookup _ m = _
    rw [Run.lookup, hget]
    rfl
  | @assign name n v m m' hv howner =>
    refine .bind_of_ok hv (.bind ⟨m', ?_⟩ _)
    rw [Run.assign, howner]
    rfl
  | notCallable hc hg =>
    refine .bind_of_ok hc ?_
    rw [if_neg (by simp [hg])]
    exact ⟨_, rfl⟩
  | argumentCount hc hg hvs hlength =>
    refine .bind_of_ok hc ?_
    rw [if_pos hg]
    refine .bind_of_ok hvs ?_
    rw [call, if_pos hlength]
    exact ⟨_, rfl⟩
  | @foreign c paren arguments g vs typeName m m' m'' m₃ hc hg hvs hlength hinvoke =>
    have hensure : (do Run.ofExcept (← below.invoke g vs).ensure : Run Value).Breaks
        (.failed ⟨.unexpectedValue typeName, none⟩) m''.inCall :=
      .bind_of_ok hinvoke ⟨m₃, rfl⟩
    refine .bind_of_ok hc ?_
    rw [if_pos hg]
    refine .bind_of_ok hvs ?_
    rw [call, if_neg (not_not_intro hlength)]
    exact .counted (hensure.adopting paren)
  | noExpression hn =>
    refine ⟨m, ?_⟩
    change evaluateNode host below _ m = _
    rw [evaluateNode_of_not_isEvaluable hn]
    rfl
  | returnOutside hzero => exact ⟨m, Run.returning_of_zero _ _ hzero⟩
  | noStatement hn =>
    refine ⟨m, ?_⟩
    change executeNode host.passes below _ m = _
    rw [executeNode_of_not_isExecutable hn]
    rfl
  | native hindex hfails =>
    have hact := hfails.breaks
    simpa only [Breaks, above, perform, hindex, Option.toList_none, Failure.through_nil] using hact

/-! ### Nothing else fails -/

theorem breaks_of_evaluateAll {ns : List Node} (h : (evaluateAll below ns).Breaks (.failed f) m) :
    ∃ before n after vs m', ns = before ++ n :: after ∧ evaluateAll below before m = .ok vs m' ∧
      (below.evaluate n).Breaks (.failed f) m' := by
  induction ns generalizing m with
  | nil => exact absurd h (Run.not_breaks_of_ok rfl)
  | cons n ns ih =>
    obtain h | ⟨v, m₁, hv, h⟩ := Run.breaks_bind_iff.mp h
    · exact ⟨[], n, ns, [], m, rfl, rfl, h⟩
    obtain h | ⟨vs, m₂, -, h⟩ := Run.breaks_bind_iff.mp h
    · obtain ⟨before, n', after, vs, m', rfl, hbefore, h⟩ := ih h
      exact ⟨n :: before, n', after, v :: vs, m', rfl,
        (Run.bind_of_ok hv).trans ((Run.bind_of_ok hbefore).trans rfl), h⟩
    · exact absurd h (Run.not_breaks_of_ok rfl)

theorem breaks_of_executeAll {ns : List Node} (h : (executeAll below ns).Breaks (.failed f) m) :
    ∃ before n after m', ns = before ++ n :: after ∧ executeAll below before m = .ok () m' ∧
      (below.execute n).Breaks (.failed f) m' := by
  induction ns generalizing m with
  | nil => exact absurd h (Run.not_breaks_of_ok rfl)
  | cons n ns ih =>
    obtain h | ⟨_, m₁, hn, h⟩ := Run.breaks_bind_iff.mp h
    · exact ⟨[], n, ns, m, rfl, rfl, h⟩
    · obtain ⟨before, n', after, m', rfl, hbefore, h⟩ := ih h
      exact ⟨n :: before, n', after, m', rfl, (Run.bind_of_ok hn).trans hbefore, h⟩

theorem not_breaks_offered {given : List Answer} {offer : Offer} :
    ¬ (offered given offer).Breaks (.failed f) m := by
  intro h
  cases offer with
  | given index =>
    simp only [offered] at h
    split at h
    · exact Run.not_breaks_of_ok rfl h
    · cases h.of_throw
  | number x =>
    obtain ⟨v, m₁, -, h⟩ := h.of_bind (Run.not_breaks_computed _)
    exact Run.not_breaks_of_ok rfl h
  | _ => exact Run.not_breaks_of_ok rfl h

theorem not_breaks_passed {given : List Answer} {offer : Offer} :
    ¬ (passed given offer).Breaks (.failed f) m := by
  intro h
  obtain ⟨answer, m₁, -, h⟩ := h.of_bind not_breaks_offered
  cases answer with
  | value v => exact Run.not_breaks_of_ok rfl h
  | nothing | foreign => cases h.of_throw

theorem not_breaks_passedAll {given : List Answer} {offers : List Offer} :
    ¬ (passedAll given offers).Breaks (.failed f) m := by
  intro h
  induction offers generalizing m with
  | nil => exact Run.not_breaks_of_ok rfl h
  | cons offer offers ih =>
    obtain ⟨v, m₁, -, h⟩ := h.of_bind not_breaks_passed
    obtain ⟨vs, m₂, -, h⟩ := h.of_bind ih
    exact Run.not_breaks_of_ok rfl h

theorem not_breaks_compared {given : List Answer} {left right : Nat} :
    ¬ (compared given left right).Breaks (.failed f) m := by
  intro h
  rw [compared] at h
  split at h
  · exact Run.not_breaks_of_ok rfl h
  · cases h.of_throw

/-- A host function is broken off by an error of its own or in one of its calls. -/
theorem breaks_of_act {given : List Answer} {action : Action}
    (h : (act below given action).Breaks (.failed f) m) :
    Fails below given action m f ∨
      ∃ g vs m', CallsBack below given action m g vs m' ∧
        (below.invoke g vs).Breaks (.failed f) m' := by
  induction action generalizing given m with
  | done offer => exact absurd h not_breaks_offered
  | fail kind message token =>
    obtain rfl := h.of_fail
    exact .inl .now
  | crash fault => cases h.of_throw
  | invoke callee arguments next ih =>
    obtain ⟨g, m₁, hg, hrest⟩ := h.of_bind not_breaks_passed
    obtain ⟨vs, m₂, hvs, hcall⟩ := hrest.of_bind not_breaks_passedAll
    obtain hnow | ⟨answer, m₃, hanswer, hnext⟩ := Run.breaks_bind_iff.mp hcall
    · exact .inr ⟨g, vs, m₂, .now hg hvs, hnow⟩
    obtain hfails | ⟨g', vs', m', hcalls, hlater⟩ := ih _ hnext
    · exact .inl (.later hg hvs hanswer hfails)
    · exact .inr ⟨g', vs', m', .later hg hvs hanswer hcalls, hlater⟩
  | compare left right next ih =>
    obtain ⟨same, m₁, hsame, hnext⟩ := h.of_bind not_breaks_compared
    obtain hfails | ⟨g, vs, m', hcalls, hlater⟩ := ih _ hnext
    · exact .inl (.compared hsame hfails)
    · exact .inr ⟨g, vs, m', .compared hsame hcalls, hlater⟩
  | note entry next ih =>
    obtain ⟨_, m₁, hnote, hnext⟩ := h.of_bind (Run.not_breaks_of_ok rfl)
    obtain hfails | ⟨g, vs, m', hcalls, hlater⟩ := ih hnext
    · exact .inl (.noted hnote hfails)
    · exact .inr ⟨g, vs, m', .noted hnote hcalls, hlater⟩
  | consult next ih =>
    obtain ⟨_, _, hget, hnext⟩ := h.of_bind (Run.not_breaks_of_ok rfl)
    cases hget
    obtain hfails | ⟨g, vs, m', hcalls, hlater⟩ := ih _ hnext
    · exact .inl (.consulted hfails)
    · exact .inr ⟨g, vs, m', .consulted hcalls, hlater⟩

/-- A runtime error of a task on one level comes from the task itself, or from a task that it starts
on the level below. -/
def Explained (host : Host) (below : Engine) (t : Task) (m : Machine) (f : Failure) : Prop :=
  (∃ paren f₀, Raises host below t m paren f₀ ∧ f = f₀.through paren.toList) ∨
    ∃ t' m' f₀, Starts host below t m t' m' ∧ below.Breaks (.failed f₀) t' m' ∧
      f = f₀.through (t.paren? t').toList

theorem Raises.explained (h : Raises host below t m none f) : Explained host below t m f :=
  .inl ⟨none, f, h, rfl⟩

/-- Where no call by the program is started, an error from below passes through as it is. -/
theorem Starts.explained {t' : Task} {m' : Machine} (h : Starts host below t m t' m')
    (hf : below.Breaks (.failed f) t' m') (hparen : t.paren? t' = none) :
    Explained host below t m f :=
  .inr ⟨t', m', f, h, hf, by rw [hparen]; rfl⟩

theorem explained_call {c : Node} {paren : Token} {arguments : List Node} {g : Value}
    {vs : List Value} {m' m'' : Machine} (hc : below.evaluate c m = .ok g m') (hg : g.isCallable)
    (hvs : evaluateAll below arguments m' = .ok vs m'')
    (h : (call host below g vs paren).Breaks (.failed f) m'') :
    Explained host below (.evaluate (.call c paren arguments)) m f := by
  rw [call] at h
  split at h
  · obtain rfl := h.of_fail
    exact (Raises.argumentCount hc hg hvs ‹_›).explained
  · have hlength := Decidable.not_not.mp ‹_›
    obtain ⟨f₀, hbody, rfl⟩ := h.of_counted.of_adopting
    obtain hcall | ⟨answer, m₃, hinvoke, hensure⟩ := Run.breaks_bind_iff.mp hbody
    · exact .inr ⟨_, _, f₀, .call hc hg hvs hlength, hcall, rfl⟩
    · obtain ⟨typeName, rfl, rfl⟩ := Answer.error_of_ensure hensure.of_ofExcept
      exact .inl ⟨some paren, _, .foreign hc hg hvs hlength hinvoke, rfl⟩

theorem explained_evaluate {n : Node} (h : (evaluateNode host below n).Breaks (.failed f) m) :
    Explained host below (.evaluate n) m f := by
  -- Every form is taken apart at its binds: a part is broken off, or the step behind the parts.
  cases n with
  | literal l => exact (Raises.literal h.of_ofExcept).explained
  | grouping inner => exact Starts.grouping.explained h rfl
  | unary operator operand =>
    obtain h | ⟨v, m', hv, h⟩ := Run.breaks_bind_iff.mp h
    · exact Starts.operand.explained h rfl
    · exact (Raises.unary hv h.of_result).explained
  | binary left operator right =>
    obtain h | ⟨l, m', hl, h⟩ := Run.breaks_bind_iff.mp h
    · exact Starts.left.explained h rfl
    obtain h | ⟨r, m'', hr, h⟩ := Run.breaks_bind_iff.mp h
    · exact (Starts.right hl).explained h rfl
    · exact (Raises.binary hl hr h.of_result).explained
  | logical left operator right =>
    obtain h | ⟨l, m', hl, h⟩ := Run.breaks_bind_iff.mp h
    · exact Starts.logicalLeft.explained h rfl
    have hright (hl' : l.truthy = true ↔ operator.kind ≠ .kwOr)
        (h : (below.evaluate right).Breaks (.failed f) m') :
        Explained host below (.evaluate (.logical left operator right)) m f :=
      (Starts.logicalRight hl hl').explained h rfl
    split at h
    · split at h
      · exact absurd h (Run.not_breaks_of_ok rfl)
      · exact hright (by simp_all) h
    · split at h
      · exact hright (by simp_all) h
      · exact absurd h (Run.not_breaks_of_ok rfl)
  | ternary condition question thenBranch elseBranch =>
    obtain h | ⟨v, m', hv, h⟩ := Run.breaks_bind_iff.mp h
    · exact Starts.choice.explained h rfl
    refine (Starts.chosen hv).explained ?_ rfl
    split at h
    · rwa [if_pos ‹_›]
    · rwa [if_neg ‹_›]
  | reference name =>
    obtain ⟨hget, rfl⟩ := Run.Breaks.of_lookup h
    exact (Raises.reference hget).explained
  | assign name value =>
    obtain h | ⟨v, m', hv, h⟩ := Run.breaks_bind_iff.mp h
    · exact Starts.assigned.explained h rfl
    obtain h | ⟨_, m'', -, h⟩ := Run.breaks_bind_iff.mp h
    · obtain ⟨howner, rfl⟩ := h.of_assign
      exact (Raises.assign hv howner).explained
    · exact absurd h (Run.not_breaks_of_ok rfl)
  | call callee paren arguments =>
    obtain h | ⟨g, m', hg, h⟩ := Run.breaks_bind_iff.mp h
    · exact Starts.callee.explained h rfl
    split at h
    · obtain h | ⟨vs, m'', hvs, h⟩ := Run.breaks_bind_iff.mp h
      · obtain ⟨before, n, after, vs, m'', rfl, hbefore, h⟩ := breaks_of_evaluateAll h
        exact (Starts.argument before hg ‹_› hbefore).explained h rfl
      · exact explained_call hg ‹_› hvs h
    · obtain rfl := h.of_fail
      exact (Raises.notCallable hg (Bool.eq_false_iff.mpr ‹_›)).explained
  | _ =>
    obtain rfl := Run.Breaks.of_fail h
    exact (Raises.noExpression rfl).explained

theorem explained_execute {n : Node} (h : (executeNode host.passes below n).Breaks (.failed f) m) :
    Explained host below (.execute n) m f := by
  cases n with
  | expression inner =>
    obtain h | ⟨v, m', -, h⟩ := Run.breaks_bind_iff.mp h
    · exact Starts.expression.explained h rfl
    · exact absurd h (Run.not_breaks_of_ok rfl)
  | print inner =>
    obtain h | ⟨v, m', -, h⟩ := Run.breaks_bind_iff.mp h
    · exact Starts.print.explained h rfl
    · exact absurd h (Run.not_breaks_of_ok rfl)
  | declare name initializer =>
    cases initializer with
    | none => exact absurd h (Run.not_breaks_of_ok rfl)
    | some e =>
      obtain h | ⟨v, m', -, h⟩ := Run.breaks_bind_iff.mp h
      · exact Starts.initializer.explained h rfl
      · exact absurd h (Run.not_breaks_of_ok rfl)
  | block statements =>
    have hwithin : (Run.within (m.scope.extend m.scopes.next) (executeAll below statements)).Breaks
        (.failed f) { m with scopes := m.scopes.push [] } := h
    obtain ⟨before, n, after, m', rfl, hbefore, h⟩ := breaks_of_executeAll hwithin.of_within
    exact (Starts.inBlock before hbefore).explained h rfl
  | branch condition thenBranch elseBranch =>
    obtain h | ⟨v, m', hv, h⟩ := Run.breaks_bind_iff.mp h
    · exact Starts.condition.explained h rfl
    split at h
    · exact (Starts.thenBranch hv ‹_›).explained h rfl
    · cases elseBranch with
      | none => exact absurd h (Run.not_breaks_of_ok rfl)
      | some e => exact (Starts.elseBranch hv (Bool.eq_false_iff.mpr ‹_›)).explained h rfl
  | loop condition body =>
    obtain ⟨k, m', hk, hlt, h⟩ := Run.Breaks.of_iterate h
    obtain h | ⟨v, m'', hv, h⟩ := Run.breaks_bind_iff.mp h
    · exact (Starts.loopCondition hk hlt).explained h rfl
    split at h
    · obtain h | ⟨_, m₁, -, h⟩ := Run.breaks_bind_iff.mp h
      · exact (Starts.loopBody hk hlt hv ‹_›).explained h rfl
      · exact absurd h (Run.not_breaks_of_ok rfl)
    · exact absurd h (Run.not_breaks_of_ok rfl)
  | function name params body => exact absurd h (Run.not_breaks_of_ok rfl)
  | returning keyword value =>
    obtain ⟨m₁, m₂, hm, h⟩ := Run.Breaks.of_bind h (Run.not_breaks_of_ok rfl)
    cases hm
    split at h
    · obtain rfl := h.of_fail
      exact (Raises.returnOutside ‹_›).explained
    · obtain h | ⟨v, m', -, h⟩ := Run.breaks_bind_iff.mp h
      · cases value with
        | none => exact absurd h (Run.not_breaks_of_ok rfl)
        | some e => exact (Starts.givenBack ‹_›).explained h rfl
      · cases h.of_throw
  | _ =>
    obtain rfl := Run.Breaks.of_fail h
    exact (Raises.noStatement rfl).explained

theorem explained_invoke {callee : Value} {arguments : List Value}
    (h : (perform host below callee arguments).Breaks (.failed f) m) :
    Explained host below (.invoke callee arguments) m f := by
  cases callee with
  | function g =>
    obtain h | ⟨v, m', -, h⟩ := Run.breaks_bind_iff.mp h
    · have hbody : (Run.catchingReturn (Run.within (g.scope.extend m.scopes.next)
          (executeAll below g.body))).Breaks (.failed f)
          { m with scopes := m.scopes.push (g.bindings arguments) } := h
      obtain ⟨before, n, after, m', hbody, hbefore, h⟩ :=
        breaks_of_executeAll hbody.of_catchingReturn.of_within
      exact (Starts.body before hbody hbefore).explained h rfl
    · exact absurd h (Run.not_breaks_of_ok rfl)
  | native index =>
    cases hindex : host.natives[index]? with
    | none =>
      simp only [perform, hindex] at h
      cases h.of_throw
    | some native =>
      simp only [perform, hindex] at h
      obtain hfails | ⟨g, vs, m', hcalls, h⟩ := breaks_of_act h
      · exact (Raises.native hindex hfails).explained
      · exact (Starts.callback hindex hcalls).explained h rfl
  | _ => cases Run.Breaks.of_throw h

/-- A level fails with the runtime errors that are raised on it and with those of the level below,
blamed on a closing parenthesis where they come out of a call by the program. -/
theorem breaks_above_iff :
    (above host below).Breaks (.failed f) t m ↔ Explained host below t m f := by
  constructor
  · intro h
    cases t with
    | evaluate n => exact explained_evaluate h
    | execute n => exact explained_execute h
    | invoke callee arguments => exact explained_invoke h
  · rintro (⟨paren, f₀, hraises, rfl⟩ | ⟨t', m', f₀, hstarts, hf, rfl⟩)
    · exact hraises.breaks
    · rw [← Interrupt.elim_adopt]
      exact hstarts.breaks (by simp) hf

end Engine

/-! ### Runs -/

section Raised

variable (host : Host)

/-- A runtime error that is raised somewhere in the performance of a task, as it is raised there,
with the closing parentheses of the calls by the program that are in progress then, the innermost
first. -/
inductive Raised : Nat → Task → Machine → List Token → Failure → Prop
  | here {depth : Nat} {t : Task} {m : Machine} {paren : Option Token} {f : Failure} :
      Engine.Raises host (.ofDepth host depth) t m paren f → Raised (depth + 1) t m paren.toList f
  | inside {depth : Nat} {t t' : Task} {m m' : Machine} {parens : List Token} {f : Failure} :
      Engine.Starts host (.ofDepth host depth) t m t' m' → Raised depth t' m' parens f →
      Raised (depth + 1) t m (parens ++ (t.paren? t').toList) f

/-- A runtime error that is raised somewhere in the execution of statements. -/
def RaisedIn (ns : List Node) (m : Machine) (parens : List Token) (f : Failure) : Prop :=
  ∃ before n after m', ns = before ++ n :: after ∧ Run.executeAll host before m = .ok () m' ∧
    Raised host host.depth (.execute n) m' parens f

variable {host}

/-- A task fails exactly with what is raised somewhere in its performance, on its way out of the
calls by the program that are in progress there. -/
theorem breaks_ofDepth_iff {depth : Nat} {t : Task} {m : Machine} {f : Failure} :
    (Engine.ofDepth host depth).Breaks (.failed f) t m ↔
      ∃ parens f₀, Raised host depth t m parens f₀ ∧ f = f₀.through parens := by
  induction depth generalizing t m f with
  | zero =>
    constructor
    · intro h
      cases t <;> cases Run.Breaks.of_throw h
    · rintro ⟨_, _, h, -⟩
      cases h
  | succ depth ih =>
    refine Engine.breaks_above_iff.trans ⟨?_, ?_⟩
    · rintro (⟨paren, f₀, hraises, rfl⟩ | ⟨t', m', f₁, hstarts, hf, rfl⟩)
      · exact ⟨_, f₀, .here hraises, rfl⟩
      · obtain ⟨parens, f₀, hraised, rfl⟩ := ih.mp hf
        exact ⟨_, f₀, .inside hstarts hraised, (f₀.through_append _ _).symm⟩
    · rintro ⟨_, f₀, hraised, rfl⟩
      cases hraised with
      | here hraises => exact .inl ⟨_, f₀, hraises, rfl⟩
      | inside hstarts hraised =>
        exact .inr ⟨_, _, _, hstarts, ih.mpr ⟨_, f₀, hraised, rfl⟩, f₀.through_append _ _⟩

/-- What is raised without a token is raised while a call by the program is in progress, unless the
task itself is a call. The form of a tree aside, only host functions and their answers lead to such
errors. -/
theorem Raised.parens_ne_nil {depth : Nat} {t : Task} {m : Machine} {parens : List Token}
    {f : Failure} (h : Raised host depth t m parens f) (htoken : f.token = none)
    (hcause : f.cause.isFallback = false) : parens ≠ [] ∨ ∃ g vs, t = .invoke g vs := by
  -- Outwards from where it is raised: what starts a call is a call by the program or a call itself.
  induction h with
  | here hraises =>
    cases hraises with
    | literal hl =>
      obtain ⟨shown, -, rfl⟩ := Literal.error_of_value hl
      cases hcause
    | unary _ hop => obtain rfl | rfl := Value.error_of_applyUnary hop <;> cases htoken
    | binary _ _ hop =>
      obtain rfl | rfl | rfl | rfl := Value.error_of_applyBinary hop <;> cases htoken
    | foreign => exact .inl (List.cons_ne_nil _ _)
    | native => exact .inr ⟨_, _, rfl⟩
    | noExpression | noStatement => cases hcause
    | _ => cases htoken
  | @inside _ t _ _ _ parens _ hstarts _ ih =>
    obtain hne | ⟨g, vs, rfl⟩ := ih htoken hcause
    · exact .inl fun hnil => hne (List.append_eq_nil_iff.mp hnil).1
    · cases hstarts with
      | call => exact .inl (List.append_ne_nil_of_right_ne_nil parens (List.cons_ne_nil _ _))
      | callback => exact .inr ⟨_, _, rfl⟩

/-- Statements fail exactly with what is raised in the execution of one of them. -/
theorem Run.breaks_executeAll_iff {ns : List Node} {m : Machine} {f : Failure} :
    (Run.executeAll host ns).Breaks (.failed f) m ↔
      ∃ parens f₀, RaisedIn host ns m parens f₀ ∧ f = f₀.through parens := by
  constructor
  · intro h
    obtain ⟨before, n, after, m', hns, hbefore, h⟩ := Engine.breaks_of_executeAll h
    obtain ⟨parens, f₀, hraised, hf⟩ := breaks_ofDepth_iff (t := .execute n).mp h
    exact ⟨parens, f₀, ⟨before, n, after, m', hns, hbefore, hraised⟩, hf⟩
  · rintro ⟨parens, f₀, ⟨before, n, after, m', rfl, hbefore, hraised⟩, hf⟩
    have h := breaks_ofDepth_iff.mpr ⟨parens, f₀, hraised, hf⟩
    exact Engine.breaks_executeAll hbefore h after

end Raised

end Lox
