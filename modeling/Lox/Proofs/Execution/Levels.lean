import Lox.Proofs.Execution.Return

/-!
# Levels that suffice

Nothing in a program can catch a runtime error or a stack overflow: a task that ends in one takes all
tasks with it that it is a part of. Conversely none of the tasks overflows that a task performs which
does not overflow itself, and then it makes no difference to it how many further levels there are.

## Main definitions

* `Run.Breaks`, `Engine.Breaks`: a step and a task that are broken off by some interrupt.
* `Run.Overflows`, `Engine.Overflows`: a step and a task that end in a stack overflow.

## Main results

* `Engine.Starts.breaks`, `Engine.Starts.overflows`: a task is broken off if one is that it starts.
* `Engine.agree_ofDepth`: what does not overflow is the same with more levels.
-/

namespace Lox

/-- The interrupt of a call with this closing parenthesis: a runtime error is blamed on it, unless it
is blamed on a token already. -/
def Interrupt.adopt (paren : Token) : Interrupt → Interrupt
  | failed f => failed (f.adopt paren)
  | e => e

/-- The closing parenthesis of a call by the program, if one task performs such a call by starting
the other. -/
def Task.paren? : Task → Task → Option Token
  | evaluate (.call _ paren _), invoke .. => some paren
  | _, _ => none

namespace Run

variable {α β : Type} {m m' : Machine}

/-- A step is broken off by this interrupt. -/
def Breaks (e : Interrupt) (r : Run α) (m : Machine) : Prop := ∃ m', r m = .error e m'

/-- A step ends in a stack overflow. -/
def Overflows (r : Run α) (m : Machine) : Prop := ∃ m', r m = .error .overflow m'

instance (r : Run α) (m : Machine) : Decidable (r.Overflows m) :=
  match h : r m with
  | .error .overflow m' => .isTrue ⟨m', h⟩
  | .error (.returned _) _ | .error (.failed _) _ | .error .unfinished _ | .error (.broken _) _
  | .ok _ _ => .isFalse fun ho => by
    obtain ⟨m', hm'⟩ := ho
    rw [h] at hm'
    cases hm'

namespace Breaks

variable {e : Interrupt}

theorem bind {p : Run α} (h : p.Breaks e m) (q : α → Run β) : (p >>= q).Breaks e m := by
  obtain ⟨m', hm'⟩ := h
  exact ⟨m', bind_of_error hm'⟩

theorem bind_of_ok {p : Run α} {q : α → Run β} {a : α} (hp : p m = .ok a m')
    (h : (q a).Breaks e m') : (p >>= q).Breaks e m := by
  obtain ⟨m'', hm''⟩ := h
  exact ⟨m'', (Run.bind_of_ok hp).trans hm''⟩

theorem within {r : Run Unit} {c : Chain} (h : r.Breaks e { m with scope := c }) :
    (Run.within c r).Breaks e m := by
  obtain ⟨m', hm'⟩ := h
  exact ⟨{ m' with scope := m.scope }, by rw [Run.within, hm']⟩

theorem counted {r : Run α} (h : r.Breaks e m.inCall) : (Run.counted r).Breaks e m := by
  obtain ⟨m', hm'⟩ := h
  rw [Machine.inCall] at hm'
  exact ⟨{ m' with callDepth := m'.callDepth - 1 }, by rw [Run.counted, hm']⟩

theorem adopting {r : Run α} (t : Token) (h : r.Breaks e m) :
    (Run.adopting t r).Breaks (e.adopt t) m := by
  obtain ⟨m', hm'⟩ := h
  refine ⟨m', ?_⟩
  rw [Run.adopting, hm']
  cases e <;> rfl

theorem catchingReturn {r : Run Unit} (he : ∀ v, e ≠ .returned v) (h : r.Breaks e m) :
    (Run.catchingReturn r).Breaks e m := by
  obtain ⟨m', hm'⟩ := h
  refine ⟨m', ?_⟩
  rw [Run.catchingReturn, hm']
  cases e with
  | returned v => exact absurd rfl (he v)
  | _ => rfl

end Breaks

end Run

namespace Engine

/-- A task is broken off by this interrupt. -/
def Breaks (i : Interrupt) (e : Engine) : Task → Machine → Prop
  | .evaluate n, m => (e.evaluate n).Breaks i m
  | .execute n, m => (e.execute n).Breaks i m
  | .invoke f vs, m => (e.invoke f vs).Breaks i m

/-- A task ends in a stack overflow. -/
def Overflows (e : Engine) : Task → Machine → Prop
  | .evaluate n, m => (e.evaluate n).Overflows m
  | .execute n, m => (e.execute n).Overflows m
  | .invoke f vs, m => (e.invoke f vs).Overflows m

theorem breaks_overflow {e : Engine} {t : Task} {m : Machine} :
    e.Breaks .overflow t m ↔ e.Overflows t m := by
  cases t <;> rfl

variable {host : Host} {below : Engine} {t t' : Task} {m m' : Machine} {i : Interrupt}

theorem breaks_evaluateAll {before : List Node} {n : Node} {vs : List Value}
    (hbefore : evaluateAll below before m = .ok vs m') (h : (below.evaluate n).Breaks i m')
    (after : List Node) : (evaluateAll below (before ++ n :: after)).Breaks i m := by
  induction before generalizing m vs with
  | nil =>
    cases hbefore
    exact h.bind _
  | cons b before ih =>
    obtain ⟨v, m₁, hb, hrest⟩ := Run.exists_of_bind hbefore
    obtain ⟨ws, m₂, hws, hend⟩ := Run.exists_of_bind hrest
    cases hend
    exact .bind_of_ok hb ((ih hws).bind _)

theorem breaks_executeAll {before : List Node} {n : Node}
    (hbefore : executeAll below before m = .ok () m') (h : (below.execute n).Breaks i m')
    (after : List Node) : (executeAll below (before ++ n :: after)).Breaks i m := by
  obtain ⟨m'', hm''⟩ := h
  exact ⟨m'', executeAll_of_error hbefore hm''⟩

/-- A pass of a loop that is broken off ends the loop. -/
theorem breaks_loop {c body : Node} {k : Nat} (hp : Passed (pass below c body) k m m')
    (hk : k < host.passes) (h : (pass below c body).Breaks i m') :
    (above host below).Breaks i (.execute (.loop c body)) m := by
  obtain ⟨m'', hm''⟩ := h
  exact ⟨m'', hp.iterate_of_error hk hm''⟩

theorem CallsBack.breaks {given : List Answer} {action : Action} {f : Value} {vs : List Value}
    (h : CallsBack below given action m f vs m') (hi : (below.invoke f vs).Breaks i m') :
    (act below given action).Breaks i m := by
  induction h with
  | now hf hvs => exact .bind_of_ok hf (.bind_of_ok hvs (hi.bind _))
  | later hf hvs hinvoke _ ih =>
    exact .bind_of_ok hf (.bind_of_ok hvs (.bind_of_ok hinvoke (ih hi)))
  | compared hsame _ ih => exact .bind_of_ok hsame (ih hi)
  | noted hnote _ ih => exact .bind_of_ok hnote (ih hi)
  | consulted _ ih => exact .bind_of_ok rfl (ih hi)

/-- A task is broken off if one is that it starts, unless this gives back a value. A call by the
program blames the failure on its closing parenthesis, if it is not blamed on anything yet. -/
theorem Starts.breaks (h : Starts host below t m t' m') (hreturned : ∀ v, i ≠ .returned v)
    (hi : below.Breaks i t' m') :
    (above host below).Breaks ((t.paren? t').elim i i.adopt) t m := by
  cases h with
  | grouping => exact hi
  | operand | left | logicalLeft | choice | assigned | callee | expression | print | initializer
  | condition => exact hi.bind _
  | right hl => exact .bind_of_ok hl (hi.bind _)
  | @logicalRight l r operator a _ _ hl ha =>
    refine .bind_of_ok hl ?_
    by_cases hor : operator.kind = .kwOr
    · have hfalse : ¬ a.truthy = true := fun h => ha.mp h hor
      rwa [if_pos hor, if_neg hfalse]
    · rwa [if_neg hor, if_pos (ha.mpr hor)]
  | @chosen c t e _ a _ _ hc =>
    have hchosen : (if a.truthy = true then below.evaluate t else below.evaluate e).Breaks i m' := by
      by_cases ha : a.truthy = true
      · rw [if_pos ha] at hi ⊢
        exact hi
      · rw [if_neg ha] at hi ⊢
        exact hi
    exact .bind_of_ok hc hchosen
  | @argument before c n paren after f vs _ _ _ hc hf ha =>
    refine .bind_of_ok hc ?_
    rw [if_pos hf]
    exact (breaks_evaluateAll ha hi after).bind _
  | @call c paren arguments f vs _ _ _ hc hf ha hlength =>
    refine .bind_of_ok hc ?_
    rw [if_pos hf]
    refine .bind_of_ok ha ?_
    rw [Engine.call]
    rw [if_neg (not_not_intro hlength)]
    exact .counted (.adopting paren (hi.bind _))
  | @inBlock before after n _ _ hbefore =>
    obtain ⟨m'', hm''⟩ := breaks_executeAll hbefore hi after
    have hblock : executeNode host.passes below (.block (before ++ n :: after)) m =
        .error i { m'' with scope := m.scope } := executeNode_block_of_error hm''
    exact ⟨_, hblock⟩
  | thenBranch hc ha =>
    refine .bind_of_ok hc ?_
    rwa [if_pos ha]
  | elseBranch hc ha =>
    refine .bind_of_ok hc ?_
    rwa [if_neg (by simp [ha])]
  | loopCondition hp hk => exact breaks_loop hp hk (hi.bind _)
  | loopBody hp hk hc ha =>
    refine breaks_loop hp hk (.bind_of_ok hc ?_)
    rw [if_pos ha]
    exact hi.bind _
  | givenBack hm =>
    refine .bind_of_ok (rfl : (get : Run Machine) m = .ok m m) ?_
    rw [if_neg hm]
    exact hi.bind _
  | @body before f arguments after n _ _ hf hbefore =>
    have hall : (executeAll below f.body).Breaks i (m.inScope f.scope (f.bindings arguments)) :=
      hf ▸ breaks_executeAll hbefore hi after
    exact .bind (.bind_of_ok rfl (.catchingReturn hreturned (.within hall))) _
  | @callback index native arguments vs f _ _ hindex hcall =>
    have hact := hcall.breaks hi
    simpa only [Breaks, above, perform, hindex, Task.paren?, Option.elim_none] using hact

/-- A task overflows if one does that it starts. -/
theorem Starts.overflows (h : Starts host below t m t' m') (ho : below.Overflows t' m') :
    (above host below).Overflows t m := by
  have hbreaks := h.breaks (by simp) (breaks_overflow.mpr ho)
  have hadopt : (t.paren? t').elim Interrupt.overflow Interrupt.overflow.adopt = .overflow := by
    cases t.paren? t' <;> rfl
  rw [hadopt] at hbreaks
  exact breaks_overflow.mp hbreaks

/-- What does not overflow is the same with more levels. -/
theorem agree_ofDepth {depth depth' : Nat} (hdepth : depth ≤ depth')
    (h : ¬ (ofDepth host depth).Overflows t m) :
    Agree (ofDepth host depth) (ofDepth host depth') t m := by
  induction depth generalizing depth' t m with
  | zero => exact absurd (by cases t <;> exact ⟨m, rfl⟩) h
  | succ depth ih =>
    obtain ⟨depth', rfl⟩ : ∃ d, depth' = d + 1 := ⟨depth' - 1, by omega⟩
    exact agree_above fun t' m' hstarts =>
      ih (Nat.le_of_succ_le_succ hdepth) fun ho => h (hstarts.overflows ho)

end Engine

end Lox
