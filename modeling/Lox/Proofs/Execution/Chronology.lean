import Lox.Proofs.Execution.Progress

/-!
# What comes before what

The tasks of a run lie one inside the other, or one before the other. Each of them begins with the
machine it finds and is over with the machine it leaves behind; the tasks it performs lie in
between, one after the other, and nothing that one of them has made is missing where the next one
begins.

A life is a row of expressions and statements, each of which finds the machine that the one before
it has left behind, however that one has ended. Whatever is done in a session makes up such a life.

## Main definitions

* `Engine.after`: the machine that a task leaves behind.
* `Performs`: the tasks that a task performs.
* `Occurs`: the tasks that are performed in a life.
* `Session.tasks`: the life that a session leads.
* `Session.concluded`: what comes of a session when a program ends.

## Main results

* `Performs.inside_or_apart`, `Occurs.inside_or_apart`: of two tasks one lies inside the other, or
  one is over before the other begins.
* `Session.machine_obey`: a session ends with the machine that its life leaves behind.
-/

namespace Lox

/-- A task that can be asked for from outside: no value is called there. -/
def Task.IsOuter : Task → Prop
  | invoke _ _ => False
  | _ => True

/-- The machine that a task leaves behind. -/
def Engine.after (e : Engine) : Task → Machine → Machine
  | .evaluate n, m => endState (e.evaluate n m)
  | .execute n, m => endState (e.execute n m)
  | .invoke f vs, m => endState (e.invoke f vs m)

theorem Engine.Has.precedes_after {e : Engine} (h : e.Has Run.Progresses Run.Progresses) (t : Task)
    (m : Machine) : m.Precedes (e.after t m) := by
  cases t with
  | evaluate n => exact h.evaluate n m
  | execute n => exact h.execute n m
  | invoke f vs => exact h.invoke f vs m

/-! ### A part is over before the whole -/

namespace Run

variable {α β : Type} {m m' m₀ : Machine}

theorem Progresses.pure (a : α) : Progresses (pure a) := fun m => .refl m

theorem Progresses.throw (e : Interrupt) : Progresses (throw e : Run α) := fun m => .refl m

theorem Progresses.ofExcept (r : Except Failure α) : Progresses (ofExcept r) := by
  cases r <;> exact fun m => .refl m

/-- The first of two steps is over before both are. -/
theorem precedes_bind {p : Run α} {q : α → Run β} (hq : ∀ a, Progresses (q a)) (m : Machine) :
    (endState (p m)).Precedes (endState ((p >>= q) m)) := by
  cases h : p m with
  | ok a m' => exact bind_of_ok h ▸ hq a m'
  | error e m' =>
    rw [bind_of_error h]
    exact .refl _

/-- What is over before the second of two steps is over before both are. -/
theorem precedes_bind_of_ok {p : Run α} {q : α → Run β} {a : α} (h : p m = .ok a m')
    (hq : m₀.Precedes (endState (q a m'))) : m₀.Precedes (endState ((p >>= q) m)) :=
  bind_of_ok h ▸ hq

theorem precedes_within (r : Run α) (c : Chain) (m : Machine) :
    (endState (r { m with scope := c })).Precedes (endState (within c r m)) := by
  rw [within]
  split <;> rename_i h <;> rw [h] <;> exact .ofEq rfl rfl

theorem precedes_counted (r : Run α) (m : Machine) :
    (endState (r m.inCall)).Precedes (endState (counted r m)) := by
  change (endState (r { m with callDepth := m.callDepth + 1 })).Precedes _
  rw [counted]
  split <;> rename_i h <;> rw [h] <;> exact .ofEq rfl rfl

theorem precedes_adopting (t : Token) (r : Run α) (m : Machine) :
    (endState (r m)).Precedes (endState (adopting t r m)) := by
  rw [adopting]
  split
  · rename_i h
    rw [h]
    exact .refl _
  · exact .refl _

theorem precedes_catchingReturn (r : Run Unit) (m : Machine) :
    (endState (r m)).Precedes (endState (catchingReturn r m)) := by
  rw [catchingReturn]
  split <;> rename_i h <;> rw [h] <;> exact .refl _

theorem precedes_iterate {r : Run Bool} (h : Progresses r) (passes : Nat) (m : Machine) :
    (endState (r m)).Precedes (endState (iterate (passes + 1) r m)) := by
  cases hr : r m with
  | ok again m' =>
    cases again with
    | true => exact iterate_of_again passes hr ▸ h.iterate passes m'
    | false => exact iterate_of_done passes hr ▸ .refl _
  | error e m' => exact iterate_of_error passes hr ▸ .refl _

end Run

/-- A pass of a loop is over before the loop is. -/
theorem Passed.precedes_iterate {pass : Run Bool} {k passes : Nat} {m m' : Machine}
    (h : Passed pass k m m') (hk : k < passes) (hpass : Run.Progresses pass) :
    (endState (pass m')).Precedes (endState (Run.iterate passes pass m)) := by
  obtain ⟨j, rfl⟩ : ∃ j, passes = k + (j + 1) := ⟨passes - k - 1, by omega⟩
  rw [h.iterate_add]
  exact Run.precedes_iterate hpass j m'

namespace Engine

variable {host : Host} {below : Engine} {t t' t'' : Task} {m m' m'' : Machine}

section

variable (hb : below.Has Run.Progresses Run.Progresses)

include hb

theorem precedes_evaluateAll {before : List Node} {vs : List Value}
    (h : evaluateAll below before m = .ok vs m') (n : Node) (after : List Node) :
    (endState (below.evaluate n m')).Precedes
      (endState (evaluateAll below (before ++ n :: after) m)) := by
  have hall := Run.handedOn_progresses.evaluateAll hb
  induction before generalizing m vs with
  | nil =>
    cases h
    exact Run.precedes_bind (fun _ => (hall _).bind fun _ => .pure _) m'
  | cons b before ih =>
    obtain ⟨v, m₁, hbm, hrest⟩ := Run.exists_of_bind h
    obtain ⟨ws, m₂, hbefore, hend⟩ := Run.exists_of_bind hrest
    cases hend
    refine Run.precedes_bind_of_ok hbm ((ih hbefore).trans ?_)
    exact Run.precedes_bind (fun _ => .pure _) m₁

/-- So an argument is evaluated before those behind it are. -/
theorem precedes_of_evaluateAll {before after : List Node} {n : Node} {vs ws : List Value}
    (h : evaluateAll below before m = .ok vs m')
    (h' : evaluateAll below (before ++ n :: after) m = .ok ws m'') :
    (below.after (.evaluate n) m').Precedes m'' := by
  have hover := precedes_evaluateAll hb h n after
  rwa [h'] at hover

theorem precedes_executeAll {before : List Node} (h : executeAll below before m = .ok () m')
    (n : Node) (after : List Node) :
    (endState (below.execute n m')).Precedes
      (endState (executeAll below (before ++ n :: after) m)) := by
  have hall := Run.handedOn_progresses.executeAll hb
  rw [executeAll_append]
  exact Run.precedes_bind_of_ok h (Run.precedes_bind (fun _ => hall _) m')

theorem precedes_of_executeAll {before after : List Node} {n : Node}
    (h : executeAll below before m = .ok () m')
    (h' : executeAll below (before ++ n :: after) m = .ok () m'') :
    (below.after (.execute n) m').Precedes m'' := by
  have hover := precedes_executeAll hb h n after
  rwa [h'] at hover

theorem CallsBack.precedes_act {given : List Answer} {action : Action} {f : Value}
    {vs : List Value} (h : CallsBack below given action m f vs m') :
    (endState (below.invoke f vs m')).Precedes (endState (act below given action m)) := by
  have hact := Run.handedOn_progresses.act hb
  induction h with
  | now hf hvs =>
    refine Run.precedes_bind_of_ok hf (Run.precedes_bind_of_ok hvs ?_)
    exact Run.precedes_bind (fun _ => hact _ _) _
  | later hf hvs hinvoke _ ih =>
    exact Run.precedes_bind_of_ok hf (Run.precedes_bind_of_ok hvs
      (Run.precedes_bind_of_ok hinvoke ih))
  | compared hsame _ ih => exact Run.precedes_bind_of_ok hsame ih
  | noted hnote _ ih => exact Run.precedes_bind_of_ok hnote ih
  | consulted _ ih => exact Run.precedes_bind_of_ok rfl ih

end

/-- A call that a program makes is over when the function is. -/
theorem precedes_call {f : Value} {vs : List Value} (paren : Token) (m : Machine)
    (h : vs.length = arity host f) :
    (endState (below.invoke f vs m.inCall)).Precedes (endState (call host below f vs paren m)) := by
  rw [call]
  rw [if_neg (not_not_intro h)]
  refine .trans ?_ (Run.precedes_counted _ m)
  refine .trans ?_ (Run.precedes_adopting paren _ m.inCall)
  exact Run.precedes_bind (fun _ => .ofExcept _) m.inCall

/-- The tasks that a pass of a loop starts: its condition, and its body if the condition holds. -/
inductive StartsInPass (below : Engine) (c body : Node) (m : Machine) : Task → Machine → Prop
  | condition : StartsInPass below c body m (.evaluate c) m
  | body {a : Value} {m' : Machine} :
      below.evaluate c m = .ok a m' → a.truthy = true →
      StartsInPass below c body m (.execute body) m'

/-- Whatever a loop starts is started in one of its passes. -/
theorem Starts.exists_pass {c body : Node}
    (h : Starts host below (.execute (.loop c body)) m t' m') :
    ∃ k m₁, Passed (pass below c body) k m m₁ ∧ k < host.passes ∧
      StartsInPass below c body m₁ t' m' := by
  cases h with
  | loopCondition hp hk => exact ⟨_, _, hp, hk, .condition⟩
  | loopBody hp hk hc ha => exact ⟨_, _, hp, hk, .body hc ha⟩

theorem StartsInPass.precedes {c body : Node} (h : StartsInPass below c body m t' m')
    (hb : below.Has Run.Progresses Run.Progresses) : m.Precedes m' := by
  cases h with
  | condition => exact .refl m
  | body hc _ => exact (hb.evaluate c).of_ok hc

/-- The tasks of a pass are over before the next pass begins. -/
theorem StartsInPass.precedes_after {c body : Node} (h : StartsInPass below c body m t' m')
    (hb : below.Has Run.Progresses Run.Progresses) :
    (below.after t' m').Precedes (endState (pass below c body m)) := by
  cases h with
  | condition =>
    have hwalk := Run.handedOn_progresses
    exact Run.precedes_bind (fun _ => hwalk.ite ((hb.execute _).bind fun _ => .pure _) (.pure _)) m
  | body hc ha =>
    refine Run.precedes_bind_of_ok hc ?_
    rw [if_pos ha]
    exact Run.precedes_bind (fun _ => .pure _) m'

/-- A block is over when its statements are. -/
theorem precedes_block (ns : List Node) (m : Machine) :
    (endState (executeAll below ns (m.inScope m.scope []))).Precedes
      ((above host below).after (.execute (.block ns)) m) :=
  Run.precedes_within (executeAll below ns) (m.scope.extend m.scopes.next)
    { m with scopes := m.scopes.push [] }

/-- So is a function. -/
theorem precedes_enter (f : Closure) (vs : List Value) (m : Machine) :
    (endState (executeAll below f.body (m.inScope f.scope (f.bindings vs)))).Precedes
      ((above host below).after (.invoke (.function f) vs) m) := by
  refine .trans ?_ (Run.precedes_bind (p := enter below f vs) (fun _ => .pure _) m)
  have hwithin := Run.precedes_within (executeAll below f.body) (f.scope.extend m.scopes.next)
    { m with scopes := m.scopes.push (f.bindings vs) }
  exact hwithin.trans (Run.precedes_catchingReturn _ _)

/-- A task that is started is over before the one it is started by. -/
theorem Starts.precedes_after (h : Starts host below t m t' m')
    (hb : below.Has Run.Progresses Run.Progresses) :
    (below.after t' m').Precedes ((above host below).after t m) := by
  have hwalk := Run.handedOn_progresses
  have hcomputed (r : Except Failure Value) : Run.Progresses (Run.ofExcept r >>= Run.computed) :=
    (Run.Progresses.ofExcept r).bind hwalk.computed
  have hstart := h
  cases h with
  | grouping => exact .refl _
  | operand => exact Run.precedes_bind (fun _ => hcomputed _) m
  | left => exact Run.precedes_bind (fun _ => (hb.evaluate _).bind fun _ => hcomputed _) m
  | right hl => exact Run.precedes_bind_of_ok hl (Run.precedes_bind (fun _ => hcomputed _) m')
  | logicalLeft =>
    refine Run.precedes_bind (fun a => ?_) m
    have hr := hb.evaluate
    exact hwalk.ite (hwalk.ite (.pure _) (hr _)) (hwalk.ite (hr _) (.pure _))
  | @logicalRight l r operator a _ _ hl ha =>
    refine Run.precedes_bind_of_ok hl ?_
    by_cases hor : operator.kind = .kwOr
    · have hfalse : ¬ a.truthy = true := fun h => ha.mp h hor
      rw [if_pos hor, if_neg hfalse]
      exact .refl _
    · rw [if_neg hor, if_pos (ha.mpr hor)]
      exact .refl _
  | choice => exact Run.precedes_bind (fun _ => hwalk.ite (hb.evaluate _) (hb.evaluate _)) m
  | chosen hc =>
    refine Run.precedes_bind_of_ok hc ?_
    split <;> exact .refl _
  | assigned => exact Run.precedes_bind (fun _ => (hwalk.assign _ _).bind fun _ => .pure _) m
  | callee =>
    refine Run.precedes_bind (fun f => hwalk.ite ?_ (.throw _)) m
    exact (hwalk.evaluateAll hb _).bind fun _ => hwalk.call hb host _ _ _
  | @argument before c n paren after f vs _ m₁ _ hc hf ha =>
    refine Run.precedes_bind_of_ok hc ?_
    rw [if_pos hf]
    refine (precedes_evaluateAll hb ha n after).trans ?_
    exact Run.precedes_bind (fun _ => hwalk.call hb host _ _ _) m₁
  | @call c paren arguments f vs _ m₁ m₂ hc hf ha hlength =>
    refine Run.precedes_bind_of_ok hc ?_
    rw [if_pos hf]
    exact Run.precedes_bind_of_ok ha (precedes_call paren m₂ hlength)
  | expression => exact Run.precedes_bind (fun _ => .pure _) m
  | print => exact Run.precedes_bind (fun _ => hwalk.printLine _) m
  | initializer => exact Run.precedes_bind (fun _ => hwalk.define _ _) m
  | inBlock before hbefore => exact (precedes_executeAll hb hbefore _ _).trans (precedes_block _ m)
  | @condition c t e =>
    refine Run.precedes_bind (fun _ => hwalk.ite (hb.execute _) ?_) m
    cases e with
    | none => exact .pure _
    | some e => exact hb.execute e
  | thenBranch hc ha =>
    refine Run.precedes_bind_of_ok hc ?_
    rw [if_pos ha]
    exact .refl _
  | elseBranch hc ha =>
    refine Run.precedes_bind_of_ok hc ?_
    rw [if_neg (by simp [ha])]
    exact .refl _
  | @loopCondition c body | @loopBody c body =>
    obtain ⟨k, m₁, hp, hk, hpass⟩ := hstart.exists_pass
    exact (hpass.precedes_after hb).trans (hp.precedes_iterate hk (hwalk.pass hb c body))
  | givenBack hm =>
    refine Run.precedes_bind_of_ok (rfl : (get : Run Machine) m = .ok m m) ?_
    rw [if_neg hm]
    exact Run.precedes_bind (fun _ => .throw _) m
  | body before hf hbefore =>
    refine .trans ?_ (precedes_enter _ _ m)
    rw [hf]
    exact precedes_executeAll hb hbefore _ _
  | @callback index native arguments vs f _ _ hindex hcall =>
    have hact : (above host below).after (.invoke (.native index) arguments) m
        = endState
          (act below (arguments.map .value) (native.action (arguments.map View.ofValue)) m) := by
      simp only [after, above, perform, hindex]
    rw [hact]
    exact hcall.precedes_act hb

end Engine

/-! ### Tasks one after the other -/

/-- Two tasks with the machines they find which are the same, or one of which is over before the
other begins. -/
inductive InTurn (e : Engine) (t : Task) (m : Machine) (t' : Task) (m' : Machine) : Prop
  | same : t = t' → m = m' → InTurn e t m t' m'
  | before : (e.after t m).Precedes m' → InTurn e t m t' m'
  | behind : (e.after t' m').Precedes m → InTurn e t m t' m'

/-- Of two places in a list one is in front of the other, unless they are the same. -/
theorem eq_or_append_of_append_eq {α : Type} {before after before' after' : List α} {a a' : α}
    (h : before ++ a :: after = before' ++ a' :: after') :
    (before = before' ∧ a = a') ∨ (∃ rest, before' = before ++ a :: rest) ∨
      ∃ rest, before = before' ++ a' :: rest := by
  induction before generalizing before' with
  | nil =>
    cases before' with
    | nil => exact .inl ⟨rfl, (List.cons.inj h).1⟩
    | cons b before' => exact .inr (.inl ⟨before', by rw [(List.cons.inj h).1]; rfl⟩)
  | cons b before ih =>
    cases before' with
    | nil => exact .inr (.inr ⟨before, by rw [(List.cons.inj h).1]; rfl⟩)
    | cons b' before' =>
      obtain ⟨rfl, htail⟩ := List.cons.inj h
      obtain ⟨rfl, rfl⟩ | ⟨rest, rfl⟩ | ⟨rest, rfl⟩ := ih htail
      · exact .inl ⟨rfl, rfl⟩
      · exact .inr (.inl ⟨rest, rfl⟩)
      · exact .inr (.inr ⟨rest, rfl⟩)

theorem Passed.unique {pass : Run Bool} {k : Nat} {m m' m'' : Machine} (h : Passed pass k m m')
    (h' : Passed pass k m m'') : m' = m'' := by
  induction h generalizing m'' with
  | none => cases h'; rfl
  | another _ hp ih =>
    cases h' with
    | another h' hp' =>
      obtain rfl := ih h'
      rw [hp] at hp'
      cases hp'
      rfl

/-- An earlier pass is over before a later one begins. -/
theorem Passed.precedes_of_lt {pass : Run Bool} {k k' : Nat} {m m' m'' : Machine}
    (h : Passed pass k m m') (h' : Passed pass k' m m'') (hk : k < k')
    (hpass : Run.Progresses pass) : (endState (pass m')).Precedes m'' := by
  induction h' with
  | none => exact absurd hk (Nat.not_lt_zero k)
  | @another j m m₁ m₂ h' hp ih =>
    obtain hlt | rfl := Nat.lt_succ_iff_lt_or_eq.mp hk
    · exact (ih h hlt).trans (hpass.of_ok hp)
    · obtain rfl := h.unique h'
      rw [hp]
      exact .refl _

/-- Two passes of a loop are the same, or one of them is over before the other begins. -/
theorem Passed.inTurn {pass : Run Bool} {k k' : Nat} {m m' m'' : Machine}
    (h : Passed pass k m m') (h' : Passed pass k' m m'') (hpass : Run.Progresses pass) :
    m' = m'' ∨ (endState (pass m')).Precedes m'' ∨ (endState (pass m'')).Precedes m' := by
  obtain hlt | rfl | hlt := Nat.lt_trichotomy k k'
  · exact .inr (.inl (h.precedes_of_lt h' hlt hpass))
  · exact .inl (h.unique h')
  · exact .inr (.inr (h'.precedes_of_lt h hlt hpass))

namespace Engine

variable {host : Host} {below : Engine} {t t' t'' : Task} {m m' m'' : Machine}

theorem CallsBack.inTurn (hb : below.Has Run.Progresses Run.Progresses) {given : List Answer}
    {action : Action} {f g : Value} {vs ws : List Value}
    (h : CallsBack below given action m f vs m')
    (h' : CallsBack below given action m g ws m'') :
    InTurn below (.invoke f vs) m' (.invoke g ws) m'' := by
  induction h generalizing g ws m'' with
  | now hf hvs =>
    cases h' with
    | now hf' hvs' =>
      cases hf.symm.trans hf'
      cases hvs.symm.trans hvs'
      exact .same rfl rfl
    | later hf' hvs' hinvoke hrest =>
      cases hf.symm.trans hf'
      cases hvs.symm.trans hvs'
      refine .before ?_
      rw [after, hinvoke]
      exact hrest.precedes hb
  | later hf hvs hinvoke hrest ih =>
    cases h' with
    | now hf' hvs' =>
      cases hf.symm.trans hf'
      cases hvs.symm.trans hvs'
      refine .behind ?_
      rw [after, hinvoke]
      exact hrest.precedes hb
    | later hf' hvs' hinvoke' hrest' =>
      cases hf.symm.trans hf'
      cases hvs.symm.trans hvs'
      cases hinvoke.symm.trans hinvoke'
      exact ih hrest'
  | compared hsame _ ih =>
    cases h' with
    | compared hsame' hrest' =>
      cases hsame.symm.trans hsame'
      exact ih hrest'
  | noted hnote _ ih =>
    cases h' with
    | noted hnote' hrest' =>
      cases hnote.symm.trans hnote'
      exact ih hrest'
  | consulted _ ih =>
    cases h' with
    | consulted hrest' => exact ih hrest'

theorem inTurn_evaluateAll (hb : below.Has Run.Progresses Run.Progresses)
    {before after before' after' : List Node} {n n' : Node} {vs vs' : List Value}
    (h : evaluateAll below before m = .ok vs m') (h' : evaluateAll below before' m = .ok vs' m'')
    (hns : before ++ n :: after = before' ++ n' :: after') :
    InTurn below (.evaluate n) m' (.evaluate n') m'' := by
  obtain ⟨rfl, rfl⟩ | ⟨rest, rfl⟩ | ⟨rest, rfl⟩ := eq_or_append_of_append_eq hns
  · rw [h] at h'
    cases h'
    exact .same rfl rfl
  · exact .before (precedes_of_evaluateAll hb h h')
  · exact .behind (precedes_of_evaluateAll hb h' h)

theorem inTurn_executeAll (hb : below.Has Run.Progresses Run.Progresses)
    {before after before' after' : List Node} {n n' : Node}
    (h : executeAll below before m = .ok () m') (h' : executeAll below before' m = .ok () m'')
    (hns : before ++ n :: after = before' ++ n' :: after') :
    InTurn below (.execute n) m' (.execute n') m'' := by
  obtain ⟨rfl, rfl⟩ | ⟨rest, rfl⟩ | ⟨rest, rfl⟩ := eq_or_append_of_append_eq hns
  · rw [h] at h'
    cases h'
    exact .same rfl rfl
  · exact .before (precedes_of_executeAll hb h h')
  · exact .behind (precedes_of_executeAll hb h' h)

theorem precedes_of_ok {n : Node} {a : Value} (h : below.evaluate n m = .ok a m') :
    (below.after (.evaluate n) m).Precedes m' := by
  rw [after, h]
  exact .refl _

/-- In a pass the condition comes before the body. -/
theorem StartsInPass.inTurn {c body : Node} (h : StartsInPass below c body m t' m')
    (h' : StartsInPass below c body m t'' m'') : InTurn below t' m' t'' m'' := by
  cases h with
  | condition =>
    cases h' with
    | condition => exact .same rfl rfl
    | body hc => exact .before (precedes_of_ok hc)
  | body hc =>
    cases h' with
    | condition => exact .behind (precedes_of_ok hc)
    | body hc' =>
      cases hc.symm.trans hc'
      exact .same rfl rfl

/-- Two tasks that are started by a loop come one after the other, in one pass or in two. -/
theorem Starts.inTurn_loop {c body : Node}
    (h : Starts host below (.execute (.loop c body)) m t' m')
    (h' : Starts host below (.execute (.loop c body)) m t'' m'')
    (hb : below.Has Run.Progresses Run.Progresses) : InTurn below t' m' t'' m'' := by
  obtain ⟨k, m₁, hp, -, hin⟩ := h.exists_pass
  obtain ⟨k', m₂, hp', -, hin'⟩ := h'.exists_pass
  obtain rfl | hlt | hlt := hp.inTurn hp' (Run.handedOn_progresses.pass hb c body)
  · exact hin.inTurn hin'
  · exact .before (((hin.precedes_after hb).trans hlt).trans (hin'.precedes hb))
  · exact .behind (((hin'.precedes_after hb).trans hlt).trans (hin.precedes hb))

/-- Two tasks that are started by the same one come one after the other. -/
theorem Starts.inTurn (h : Starts host below t m t' m') (h' : Starts host below t m t'' m'')
    (hb : below.Has Run.Progresses Run.Progresses) : InTurn below t' m' t'' m'' := by
  have hcall {m₁ : Machine} : m₁.Precedes m₁.inCall := .ofEq rfl rfl
  have harguments := Run.handedOn_progresses.evaluateAll hb
  have hstart := h
  cases h with
  | grouping | operand | assigned | expression | print | initializer | givenBack =>
    cases h'
    exact .same rfl rfl
  | left =>
    cases h' with
    | left => exact .same rfl rfl
    | right hl => exact .before (precedes_of_ok hl)
  | right hl =>
    cases h' with
    | left => exact .behind (precedes_of_ok hl)
    | right hl' =>
      cases hl.symm.trans hl'
      exact .same rfl rfl
  | logicalLeft =>
    cases h' with
    | logicalLeft => exact .same rfl rfl
    | logicalRight hl => exact .before (precedes_of_ok hl)
  | logicalRight hl =>
    cases h' with
    | logicalLeft => exact .behind (precedes_of_ok hl)
    | logicalRight hl' =>
      cases hl.symm.trans hl'
      exact .same rfl rfl
  | choice =>
    cases h' with
    | choice => exact .same rfl rfl
    | chosen hc => exact .before (precedes_of_ok hc)
  | chosen hc =>
    cases h' with
    | choice => exact .behind (precedes_of_ok hc)
    | chosen hc' =>
      cases hc.symm.trans hc'
      exact .same rfl rfl
  | callee =>
    cases h' with
    | callee => exact .same rfl rfl
    | argument _ hc _ ha => exact .before ((precedes_of_ok hc).trans ((harguments _).of_ok ha))
    | call hc _ ha => exact .before ((precedes_of_ok hc).trans (((harguments _).of_ok ha).trans hcall))
  | argument before hc hf ha =>
    generalize hns : before ++ _ :: _ = ns at h'
    cases h' with
    | callee => exact .behind ((precedes_of_ok hc).trans ((harguments _).of_ok ha))
    | argument before' hc' hf' ha' =>
      cases hc.symm.trans hc'
      exact inTurn_evaluateAll hb ha ha' hns
    | call hc' _ ha' =>
      cases hc.symm.trans hc'
      subst hns
      exact .before ((precedes_of_evaluateAll hb ha ha').trans hcall)
  | call hc _ ha =>
    cases h' with
    | callee => exact .behind ((precedes_of_ok hc).trans (((harguments _).of_ok ha).trans hcall))
    | argument before' hc' _ ha' =>
      cases hc.symm.trans hc'
      exact .behind ((precedes_of_evaluateAll hb ha' ha).trans hcall)
    | call hc' _ ha' =>
      cases hc.symm.trans hc'
      cases ha.symm.trans ha'
      exact .same rfl rfl
  | inBlock before hbefore =>
    generalize hns : before ++ _ :: _ = ns at h'
    cases h' with
    | inBlock before' hbefore' => exact inTurn_executeAll hb hbefore hbefore' hns
  | condition =>
    cases h' with
    | condition => exact .same rfl rfl
    | thenBranch hc | elseBranch hc => exact .before (precedes_of_ok hc)
  | thenBranch hc ha =>
    cases h' with
    | condition => exact .behind (precedes_of_ok hc)
    | thenBranch hc' =>
      cases hc.symm.trans hc'
      exact .same rfl rfl
    | elseBranch hc' ha' =>
      cases hc.symm.trans hc'
      exact absurd (ha.symm.trans ha') nofun
  | elseBranch hc ha =>
    cases h' with
    | condition => exact .behind (precedes_of_ok hc)
    | thenBranch hc' ha' =>
      cases hc.symm.trans hc'
      exact absurd (ha.symm.trans ha') nofun
    | elseBranch hc' =>
      cases hc.symm.trans hc'
      exact .same rfl rfl
  | loopCondition | loopBody => exact hstart.inTurn_loop h' hb
  | body before hf hbefore =>
    cases h' with
    | body before' hf' hbefore' => exact inTurn_executeAll hb hbefore hbefore' (hf.symm.trans hf')
  | callback hindex hcall =>
    cases h' with
    | callback hindex' hcall' =>
      cases hindex.symm.trans hindex'
      exact hcall.inTurn hb hcall'

end Engine

/-! ### Inside or apart -/

section Performs

variable (host : Host) (depth : Nat) (t : Task) (m : Machine)

/-- The tasks that a task performs, itself among them, with their level, the machine they find, and
the function calls that have become active, the innermost first. -/
inductive Performs : Nat → Task → Machine → List Frame → Prop
  | self : Performs depth t m []
  | inside {depth' : Nat} {t' t'' : Task} {m' m'' : Machine} {frames : List Frame} :
      Performs (depth' + 1) t' m' frames →
      Engine.Starts host (.ofDepth host depth') t' m' t'' m'' →
      Performs depth' t'' m'' (t'.frames (depth' + 1) m' ++ frames)

/-- A task lies inside another, or one of them is over before the other begins. -/
inductive Placed (depth' : Nat) (t' : Task) (m' : Machine) : Prop
  | inside {frames : List Frame} : Performs host depth t m depth' t' m' frames → Placed depth' t' m'
  | around {frames : List Frame} : Performs host depth' t' m' depth t m frames → Placed depth' t' m'
  | before : ((Engine.ofDepth host depth).after t m).Precedes m' → Placed depth' t' m'
  | behind : ((Engine.ofDepth host depth').after t' m').Precedes m → Placed depth' t' m'

end Performs

namespace Performs

variable {host : Host} {depth depth' depth'' : Nat} {t t' t'' : Task} {m m' m'' : Machine}
  {frames frames' : List Frame}

theorem trans (h : Performs host depth t m depth' t' m' frames)
    (h' : Performs host depth' t' m' depth'' t'' m'' frames') :
    Performs host depth t m depth'' t'' m'' (frames' ++ frames) := by
  induction h' with
  | self => exact h
  | inside _ hstarts ih =>
    rw [List.append_assoc]
    exact ih.inside hstarts

/-- What is performed is the task itself, or lies inside one it starts. -/
theorem eq_or_starts (h : Performs host depth t m depth' t' m' frames) :
    (depth = depth' ∧ t = t' ∧ m = m' ∧ frames = []) ∨
      ∃ d t₁ m₁ fs, depth = d + 1 ∧ Engine.Starts host (.ofDepth host d) t m t₁ m₁ ∧
        Performs host d t₁ m₁ depth' t' m' fs ∧ frames = fs ++ t.frames depth m := by
  induction h with
  | self => exact .inl ⟨rfl, rfl, rfl, rfl⟩
  | inside _ hstarts ih =>
    refine .inr ?_
    obtain ⟨rfl, rfl, rfl, rfl⟩ | ⟨d, t₁, m₁, fs, rfl, hfirst, hrest, rfl⟩ := ih
    · exact ⟨_, _, _, [], rfl, hstarts, .self, by simp⟩
    · exact ⟨d, t₁, m₁, _, rfl, hfirst, hrest.inside hstarts, (List.append_assoc _ _ _).symm⟩

theorem precedes (h : Performs host depth t m depth' t' m' frames) : m.Precedes m' := by
  induction h with
  | self => exact .refl m
  | inside _ hstarts ih => exact ih.trans (hstarts.precedes (Engine.ofDepth_progresses host _))

theorem precedes_after (h : Performs host depth t m depth' t' m' frames) :
    ((Engine.ofDepth host depth').after t' m').Precedes
      ((Engine.ofDepth host depth).after t m) := by
  induction h with
  | self => exact .refl _
  | inside _ hstarts ih =>
    exact (hstarts.precedes_after (Engine.ofDepth_progresses host _)).trans ih

/-- Of two tasks that are performed for a third one, one lies inside the other, or one is over
before the other begins. -/
theorem inside_or_apart (h : Performs host depth t m depth' t' m' frames)
    (h' : Performs host depth t m depth'' t'' m'' frames') :
    Placed host depth' t' m' depth'' t'' m'' := by
  induction h with
  | self => exact .inside h'
  | @inside d t₁ t₂ m₁ m₂ fs h hstarts ih =>
    have hlevel := Engine.ofDepth_progresses host d
    cases ih with
    | inside hinside =>
      obtain ⟨rfl, rfl, rfl, -⟩ | ⟨_, t₃, m₃, _, hdepth, hother, hrest, -⟩ := hinside.eq_or_starts
      · exact .around (Performs.self.inside hstarts)
      · obtain rfl := Nat.succ.inj hdepth
        cases hstarts.inTurn hother hlevel with
        | same ht hm =>
          subst ht hm
          exact .inside hrest
        | before hover => exact .before (hover.trans hrest.precedes)
        | behind hover => exact .behind (hrest.precedes_after.trans hover)
    | around haround => exact .around (haround.inside hstarts)
    | before hover => exact .before ((hstarts.precedes_after hlevel).trans hover)
    | behind hover => exact .behind (hover.trans (hstarts.precedes hlevel))

end Performs

/-! ### Lives -/

/-- The machine that tasks leave behind, each of which finds what the one before it has left. -/
def Engine.afterAll (e : Engine) : List Task → Machine → Machine
  | [], m => m
  | t :: ts, m => e.afterAll ts (e.after t m)

theorem Engine.afterAll_append (e : Engine) (ts ts' : List Task) (m : Machine) :
    e.afterAll (ts ++ ts') m = e.afterAll ts' (e.afterAll ts m) := by
  induction ts generalizing m with
  | nil => rfl
  | cons t ts ih => exact ih (e.after t m)

theorem Host.precedes_afterAll (host : Host) (ts : List Task) (m : Machine) :
    m.Precedes (host.engine.afterAll ts m) := by
  induction ts generalizing m with
  | nil => exact .refl m
  | cons t ts ih =>
    exact ((Engine.ofDepth_progresses host host.depth).precedes_after t m).trans (ih _)

/-- The tasks that are performed in a life, with their level, the machine they find, and the
function calls that are active around them, the innermost first. -/
def Occurs (host : Host) (m₀ : Machine) (ts : List Task) (depth : Nat) (t : Task) (m : Machine)
    (frames : List Frame) : Prop :=
  ∃ before t₀ after, ts = before ++ t₀ :: after ∧
    Performs host host.depth t₀ (host.engine.afterAll before m₀) depth t m frames

namespace Occurs

variable {host : Host} {m₀ : Machine} {ts : List Task} {depth depth' : Nat} {t t' : Task}
  {m m' : Machine} {frames frames' : List Frame}

theorem trans (h : Occurs host m₀ ts depth t m frames)
    (h' : Performs host depth t m depth' t' m' frames') :
    Occurs host m₀ ts depth' t' m' (frames' ++ frames) := by
  obtain ⟨before, t₀, after, hts, hperforms⟩ := h
  exact ⟨before, t₀, after, hts, hperforms.trans h'⟩

theorem append (h : Occurs host m₀ ts depth t m frames) (ts' : List Task) :
    Occurs host m₀ (ts ++ ts') depth t m frames := by
  obtain ⟨before, t₀, after, rfl, hperforms⟩ := h
  exact ⟨before, t₀, after ++ ts', by simp, hperforms⟩

theorem cons {t₀ : Task} (h : Occurs host (host.engine.after t₀ m₀) ts depth t m frames) :
    Occurs host m₀ (t₀ :: ts) depth t m frames := by
  obtain ⟨before, t₁, after, rfl, hperforms⟩ := h
  exact ⟨t₀ :: before, t₁, after, rfl, hperforms⟩

theorem precedes (h : Occurs host m₀ ts depth t m frames) : m₀.Precedes m := by
  obtain ⟨before, t₀, after, rfl, hperforms⟩ := h
  exact (host.precedes_afterAll before m₀).trans hperforms.precedes

/-- Of two tasks that are performed in a life, one lies inside the other, or one is over before the
other begins. -/
theorem inside_or_apart (h : Occurs host m₀ ts depth t m frames)
    (h' : Occurs host m₀ ts depth' t' m' frames') : Placed host depth t m depth' t' m' := by
  obtain ⟨before, t₀, after, rfl, hperforms⟩ := h
  obtain ⟨before', t₀', after', hts, hperforms'⟩ := h'
  -- The machine that a part of a life leaves behind comes before whatever is performed later.
  have hover {front rest : List Task} {a b : Task} {d d' : Nat} {c c' : Task} {n n' : Machine}
      {fs fs' : List Frame}
      (ha : Performs host host.depth a (host.engine.afterAll front m₀) d c n fs)
      (hb : Performs host host.depth b (host.engine.afterAll (front ++ a :: rest) m₀) d' c' n'
        fs') :
      ((Engine.ofDepth host d).after c n).Precedes n' := by
    rw [Engine.afterAll_append] at hb
    exact ha.precedes_after.trans ((host.precedes_afterAll rest _).trans hb.precedes)
  obtain ⟨rfl, rfl⟩ | ⟨rest, rfl⟩ | ⟨rest, rfl⟩ := eq_or_append_of_append_eq hts
  · exact hperforms.inside_or_apart hperforms'
  · exact .before (hover hperforms hperforms')
  · exact .behind (hover hperforms' hperforms)

end Occurs

/-! ### The life that a session leads -/

/-- The statements of a program that are executed: all of them, or those up to the first that does
not end normally. -/
def Run.begun (host : Host) : List Node → Machine → List Task
  | [], _ => []
  | n :: ns, m => .execute n :: match Run.execute host n m with
    | .ok _ m' => begun host ns m'
    | .error _ _ => []

theorem Run.afterAll_begun (host : Host) (ns : List Node) (m : Machine) :
    host.engine.afterAll (begun host ns m) m = endState (executeAll host ns m) := by
  induction ns generalizing m with
  | nil => rfl
  | cons n ns ih =>
    have hfirst : executeAll host (n :: ns) = execute host n >>= fun _ => executeAll host ns := rfl
    have hafter : host.engine.after (.execute n) m = endState (execute host n m) := rfl
    rw [begun, Engine.afterAll, hafter, hfirst]
    cases h : execute host n m with
    | ok u m' => rw [Run.bind_of_ok h]; exact ih m'
    | error e m' => rw [Run.bind_of_error h]; rfl

namespace Session

variable (host : Host)

/-- The statements that are executed when a program is run. -/
def programTasks (source : String) (s : Session) : List Task :=
  let program := Program.ofText source
  if (s.reporter.reportAll program.diagnostics).hadError then []
  else Run.begun host program.statements s.machine

/-- The expressions and statements that are performed for an order. -/
def Order.tasks : Order → Session → List Task
  | program source, s => programTasks host source s
  | entry text, s =>
    if endsStatement text then programTasks host text s
    else match (Fragment.ofText text).expression with
      | some e =>
        if (Fragment.ofText text).diagnostics.isEmpty then [.evaluate e]
        else programTasks host text s
      | none => programTasks host text s
  | forget, _ => []

/-- The expressions and statements that are performed in a session. -/
def tasks : List Order → Session → List Task
  | [], _ => []
  | order :: orders, s => order.tasks host s ++ tasks orders (endState (order.act host s))

theorem run_of_hadError {source : String} {s : Session}
    (h : (s.reporter.reportAll (Program.ofText source).diagnostics).hadError = true) :
    run host source s
      = .ok () { s with reporter := s.reporter.reportAll (Program.ofText source).diagnostics } := by
  change (if (s.reporter.reportAll (Program.ofText source).diagnostics).hadError = true then
    (pure () : Act Unit) else _) _ = _
  rw [if_pos h]
  rfl

theorem run_of_clean {source : String} {s : Session}
    (h : (s.reporter.reportAll (Program.ofText source).diagnostics).hadError = false) :
    run host source s
      = (do let _ ← guarded (interpret host (Program.ofText source).statements) : Act Unit)
        { s with reporter := s.reporter.reportAll (Program.ofText source).diagnostics } := by
  change (if (s.reporter.reportAll (Program.ofText source).diagnostics).hadError = true then
    (pure () : Act Unit) else _) _ = _
  rw [if_neg (by simp [h])]

theorem diagnostics_noteFailure (f : Failure) (s : Session) :
    (noteFailure f s).reporter.diagnostics = s.reporter.diagnostics ++ [.ofFailure f] := by
  simp only [noteFailure, Reporter.traceHeading, Reporter.failure, Reporter.keep,
    Reporter.writeLine]
  split <;> split <;> rfl

theorem hadError_noteFailure (f : Failure) (s : Session) :
    (noteFailure f s).reporter.hadError = s.reporter.hadError := by
  simp only [noteFailure, Reporter.traceHeading, Reporter.failure, Reporter.keep,
    Reporter.writeLine]
  split <;> split <;> rfl

theorem hadRuntimeError_noteFailure (f : Failure) (s : Session) :
    (noteFailure f s).reporter.hadRuntimeError = true := by
  simp only [noteFailure, Reporter.traceHeading, Reporter.failure, Reporter.keep,
    Reporter.writeLine]
  split <;> split <;> rfl

/-- What comes of a session in which the machine ends a program in some way: a runtime error or a
stack overflow is reported. -/
def concluded (s : Session) :
    EStateM.Result Interrupt Machine Unit → EStateM.Result Interrupt Session Unit
  | .ok _ m => .ok () { s with machine := m }
  | .error (.failed f) m => .ok () (noteFailure f { s with machine := m })
  | .error .overflow m => .ok () (noteFailure ⟨.stackOverflow, none⟩ { s with machine := m })
  | .error e m => .error e { s with machine := m }

/-- Statements are executed, and what comes of it is reported. -/
theorem guarded_interpret (statements : List Node) (s : Session) :
    (do let _ ← guarded (interpret host statements) : Act Unit) s
      = s.concluded (Run.executeAll host statements s.machine) := by
  change EStateM.bind (guarded (interpret host statements)) _ s = _
  simp only [EStateM.bind, guarded, interpret, step]
  cases Run.executeAll host statements s.machine with
  | ok u m => rfl
  | error e m => cases e <;> rfl

/-- A program with nothing wrong in its text is executed. -/
theorem run_eq_concluded {source : String} {s : Session}
    (hclean : (Program.ofText source).diagnostics = []) (hs : s.reporter.hadError = false) :
    run host source s
      = s.concluded (Run.executeAll host (Program.ofText source).statements s.machine) := by
  rw [run_of_clean host (by rw [hclean]; exact hs), hclean]
  exact guarded_interpret host _ s

/-- What is done behind the last look at the machine does not touch it. -/
theorem machine_bind_pure {α β : Type} (act : Act α) (b : β) (s : Session) :
    (endState ((act >>= fun _ => pure b) s)).machine = (endState (act s)).machine := by
  change (endState (EStateM.bind act (fun _ => pure b) s)).machine = _
  rw [EStateM.bind]
  split <;> rename_i h <;> rw [h] <;> rfl

theorem machine_run (source : String) (s : Session) :
    (endState (run host source s)).machine
      = host.engine.afterAll (programTasks host source s) s.machine := by
  rw [programTasks]
  cases h : (s.reporter.reportAll (Program.ofText source).diagnostics).hadError with
  | true =>
    rw [run_of_hadError host h]
    rfl
  | false =>
    rw [run_of_clean host h, machine_bind_pure, machine_guarded, machine_interpret]
    exact (Run.afterAll_begun host _ _).symm

theorem machine_enter (text : String) (s : Session) :
    (endState (enter host text s)).machine
      = host.engine.afterAll (Order.tasks host (.entry text) s) s.machine := by
  have hprogram : (endState ((do run host text; return none : Act (Option Value)) s)).machine
      = host.engine.afterAll (programTasks host text s) s.machine :=
    (machine_bind_pure _ _ s).trans (machine_run host text s)
  simp only [enter, Order.tasks]
  by_cases hends : endsStatement text
  · simpa only [if_pos hends] using hprogram
  · cases he : (Fragment.ofText text).expression with
    | none => simpa only [if_neg hends] using hprogram
    | some e =>
      by_cases hclean : (Fragment.ofText text).diagnostics.isEmpty
      · simp only [if_neg hends, if_pos hclean, machine_guarded, machine_step]
        rfl
      · simpa only [if_neg hends, if_neg hclean] using hprogram

theorem machine_order (order : Order) (s : Session) :
    (endState (order.act host s)).machine
      = host.engine.afterAll (order.tasks host s) s.machine := by
  cases order with
  | program source => exact machine_run host source s
  | entry text => exact (machine_bind_pure _ _ s).trans (machine_enter host text s)
  | forget => rfl

/-- The tasks that are performed in a session, with their level, the machine they find, and the
function calls that are active around them, the innermost first. -/
abbrev Occurs (orders : List Order) (s : Session) : Nat → Task → Machine → List Frame → Prop :=
  Lox.Occurs host s.machine (tasks host orders s)

theorem isOuter_of_begun {ns : List Node} {m : Machine} :
    ∀ t ∈ Run.begun host ns m, t.IsOuter := by
  induction ns generalizing m with
  | nil => exact List.forall_mem_nil _
  | cons n ns ih =>
    refine List.forall_mem_cons.mpr ⟨trivial, ?_⟩
    split
    · exact ih
    · exact List.forall_mem_nil _

theorem isOuter_of_programTasks {source : String} {s : Session} :
    ∀ t ∈ programTasks host source s, t.IsOuter := by
  rw [programTasks]
  split
  · exact List.forall_mem_nil _
  · exact isOuter_of_begun host

theorem isOuter_of_order (order : Order) (s : Session) : ∀ t ∈ order.tasks host s, t.IsOuter := by
  cases order with
  | program source => exact isOuter_of_programTasks host
  | entry text =>
    rw [Order.tasks]
    split
    · exact isOuter_of_programTasks host
    · split
      · split
        · exact List.forall_mem_singleton.mpr trivial
        · exact isOuter_of_programTasks host
      · exact isOuter_of_programTasks host
  | forget => exact List.forall_mem_nil _

/-- In a session nothing is called from outside. -/
theorem isOuter_of_tasks (orders : List Order) (s : Session) :
    ∀ t ∈ tasks host orders s, t.IsOuter := by
  induction orders generalizing s with
  | nil => exact List.forall_mem_nil _
  | cons order orders ih =>
    intro t ht
    obtain ht | ht := List.mem_append.mp ht
    · exact isOuter_of_order host order s t ht
    · exact ih _ t ht

/-- A session ends with the machine that its life leaves behind. -/
theorem machine_obey (orders : List Order) (s : Session) :
    (obey host orders s).machine = host.engine.afterAll (tasks host orders s) s.machine := by
  induction orders generalizing s with
  | nil => rfl
  | cons order orders ih =>
    rw [tasks, Engine.afterAll_append, ← machine_order]
    exact ih _

end Session

end Lox
