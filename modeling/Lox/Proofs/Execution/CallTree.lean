import Lox.Evaluation

/-!
# What a run performs

A run is a tree of tasks: the evaluation of an expression starts the evaluation of its parts and
the performance of calls, the performance of a call starts the execution of statements, and so on,
each task one level below the one it is started by. This tree is described here, with the machine
each task finds. The siblings that come first have to end normally for a task to be started.

Along a path from the root of the tree to some task lie the function calls that are active when
that task is performed; they are kept in a list, the innermost first. Calls by a program and calls
by a host function are alike in this respect.

## Main definitions

* `Task`: what an engine can be asked to do.
* `Engine.Starts`: a task and one it starts on the level below.
* `Begins`: the tasks that a run begins with.
* `Reaches`: the tasks a run performs, and the function calls active there.

## Main results

* `Engine.agree_above`: no task is missing from the tree, since what a level does depends on
  nothing but the tasks it starts.
-/

namespace Lox

/-- What an engine can be asked to do. -/
inductive Task
  | evaluate (n : Node)
  | execute (n : Node)
  | invoke (callee : Value) (arguments : List Value)

/-- The machine in a new scope. -/
def Machine.inScope (m : Machine) (around : Chain) (t : Table) : Machine :=
  { m with scopes := m.scopes.push t, scope := around.extend m.scopes.next }

/-- The machine inside one more call of a program. -/
def Machine.inCall (m : Machine) : Machine := { m with callDepth := m.callDepth + 1 }

/-- Complete passes of a loop, counted, from one machine to another. -/
inductive Passed (pass : Run Bool) : Nat → Machine → Machine → Prop
  | none (m : Machine) : Passed pass 0 m m
  | another {k : Nat} {m m' m'' : Machine} :
      Passed pass k m m' → pass m' = .ok true m'' → Passed pass (k + 1) m m''

/-- A first pass, and others behind it. -/
theorem Passed.cons {pass : Run Bool} {k : Nat} {m m' m'' : Machine}
    (h : pass m = .ok true m') (hk : Passed pass k m' m'') : Passed pass (k + 1) m m'' := by
  induction hk with
  | none => exact .another (.none m) h
  | another _ hp ih => exact .another (ih h) hp

namespace Engine

variable (host : Host) (below : Engine)

/-- A call that a host function makes: at once, or after an earlier one has been answered, a
comparison has been made, or notes have been added or read. -/
inductive CallsBack : List Answer → Action → Machine → Value → List Value → Machine → Prop
  | now {given : List Answer} {callee : Nat} {arguments : List Offer} {next : View → Action}
      {f : Value} {vs : List Value} {m m' m'' : Machine} :
      passed given (.given callee) m = .ok f m' → passedAll given arguments m' = .ok vs m'' →
      CallsBack given (.invoke callee arguments next) m f vs m''
  | later {given : List Answer} {callee : Nat} {arguments : List Offer} {next : View → Action}
      {f g : Value} {vs ws : List Value} {answer : Answer} {m m₁ m₂ m₃ m' : Machine} :
      passed given (.given callee) m = .ok f m₁ → passedAll given arguments m₁ = .ok vs m₂ →
      below.invoke f vs m₂ = .ok answer m₃ →
      CallsBack (given ++ [answer]) (next (.ofAnswer answer)) m₃ g ws m' →
      CallsBack given (.invoke callee arguments next) m g ws m'
  | compared {given : List Answer} {left right : Nat} {next : Bool → Action} {g : Value}
      {ws : List Value} {same : Bool} {m m₁ m' : Machine} :
      compared given left right m = .ok same m₁ → CallsBack given (next same) m₁ g ws m' →
      CallsBack given (.compare left right next) m g ws m'
  | noted {given : List Answer} {entry : View} {next : Action} {g : Value} {ws : List Value}
      {m m₁ m' : Machine} :
      Run.note entry m = .ok () m₁ → CallsBack given next m₁ g ws m' →
      CallsBack given (.note entry next) m g ws m'
  | consulted {given : List Answer} {next : List View → Action} {g : Value} {ws : List Value}
      {m m' : Machine} :
      CallsBack given (next m.notes) m g ws m' → CallsBack given (.consult next) m g ws m'

/-- A task with the machine it finds, and a task it starts on the level below with the machine
that one finds. -/
inductive Starts : Task → Machine → Task → Machine → Prop
  | grouping {inner : Node} {m : Machine} :
      Starts (.evaluate (.grouping inner)) m (.evaluate inner) m
  | operand {operator : Token} {n : Node} {m : Machine} :
      Starts (.evaluate (.unary operator n)) m (.evaluate n) m
  | left {l r : Node} {operator : Token} {m : Machine} :
      Starts (.evaluate (.binary l operator r)) m (.evaluate l) m
  | right {l r : Node} {operator : Token} {a : Value} {m m' : Machine} :
      below.evaluate l m = .ok a m' →
      Starts (.evaluate (.binary l operator r)) m (.evaluate r) m'
  | logicalLeft {l r : Node} {operator : Token} {m : Machine} :
      Starts (.evaluate (.logical l operator r)) m (.evaluate l) m
  | logicalRight {l r : Node} {operator : Token} {a : Value} {m m' : Machine} :
      below.evaluate l m = .ok a m' → (a.truthy = true ↔ operator.kind ≠ .kwOr) →
      Starts (.evaluate (.logical l operator r)) m (.evaluate r) m'
  | choice {c t e : Node} {question : Token} {m : Machine} :
      Starts (.evaluate (.ternary c question t e)) m (.evaluate c) m
  | chosen {c t e : Node} {question : Token} {a : Value} {m m' : Machine} :
      below.evaluate c m = .ok a m' →
      Starts (.evaluate (.ternary c question t e)) m (.evaluate (if a.truthy then t else e)) m'
  | assigned {name : Token} {value : Node} {m : Machine} :
      Starts (.evaluate (.assign name value)) m (.evaluate value) m
  | callee {c : Node} {paren : Token} {arguments : List Node} {m : Machine} :
      Starts (.evaluate (.call c paren arguments)) m (.evaluate c) m
  | argument (before : List Node) {c n : Node} {paren : Token} {after : List Node} {f : Value}
      {vs : List Value} {m m' m'' : Machine} :
      below.evaluate c m = .ok f m' → f.isCallable → evaluateAll below before m' = .ok vs m'' →
      Starts (.evaluate (.call c paren (before ++ n :: after))) m (.evaluate n) m''
  | call {c : Node} {paren : Token} {arguments : List Node} {f : Value} {vs : List Value}
      {m m' m'' : Machine} :
      below.evaluate c m = .ok f m' → f.isCallable → evaluateAll below arguments m' = .ok vs m'' →
      vs.length = arity host f →
      Starts (.evaluate (.call c paren arguments)) m (.invoke f vs) m''.inCall
  | expression {n : Node} {m : Machine} : Starts (.execute (.expression n)) m (.evaluate n) m
  | print {n : Node} {m : Machine} : Starts (.execute (.print n)) m (.evaluate n) m
  | initializer {name : Token} {n : Node} {m : Machine} :
      Starts (.execute (.declare name (some n))) m (.evaluate n) m
  | inBlock (before : List Node) {after : List Node} {n : Node} {m m' : Machine} :
      executeAll below before (m.inScope m.scope []) = .ok () m' →
      Starts (.execute (.block (before ++ n :: after))) m (.execute n) m'
  | condition {c t : Node} {e : Option Node} {m : Machine} :
      Starts (.execute (.branch c t e)) m (.evaluate c) m
  | thenBranch {c t : Node} {e : Option Node} {a : Value} {m m' : Machine} :
      below.evaluate c m = .ok a m' → a.truthy = true →
      Starts (.execute (.branch c t e)) m (.execute t) m'
  | elseBranch {c t e : Node} {a : Value} {m m' : Machine} :
      below.evaluate c m = .ok a m' → a.truthy = false →
      Starts (.execute (.branch c t (some e))) m (.execute e) m'
  | loopCondition {c body : Node} {k : Nat} {m m' : Machine} :
      Passed (pass below c body) k m m' → k < host.passes →
      Starts (.execute (.loop c body)) m (.evaluate c) m'
  | loopBody {c body : Node} {k : Nat} {a : Value} {m m' m'' : Machine} :
      Passed (pass below c body) k m m' → k < host.passes → below.evaluate c m' = .ok a m'' →
      a.truthy = true →
      Starts (.execute (.loop c body)) m (.execute body) m''
  | givenBack {keyword : Token} {n : Node} {m : Machine} :
      m.callDepth ≠ 0 → Starts (.execute (.returning keyword (some n))) m (.evaluate n) m
  | body (before : List Node) {f : Closure} {arguments : List Value} {after : List Node} {n : Node}
      {m m' : Machine} :
      f.body = before ++ n :: after →
      executeAll below before (m.inScope f.scope (f.bindings arguments)) = .ok () m' →
      Starts (.invoke (.function f) arguments) m (.execute n) m'
  | callback {index : Nat} {native : Native} {arguments vs : List Value} {f : Value}
      {m m' : Machine} :
      host.natives[index]? = some native →
      CallsBack below (arguments.map .value) (native.action (arguments.map View.ofValue)) m f vs m' →
      Starts (.invoke (.native index) arguments) m (.invoke f vs) m'

/-! ### Nothing else is performed -/

/-- Two engines that do the same with a task in a machine. -/
def Agree (e e' : Engine) : Task → Machine → Prop
  | .evaluate n, m => e.evaluate n m = e'.evaluate n m
  | .execute n, m => e.execute n m = e'.execute n m
  | .invoke f vs, m => e.invoke f vs m = e'.invoke f vs m

variable {host below} {below' : Engine}

theorem executeAll_congr {ns : List Node} {m : Machine}
    (h : ∀ before n after m', ns = before ++ n :: after → executeAll below before m = .ok () m' →
      below.execute n m' = below'.execute n m') :
    executeAll below ns m = executeAll below' ns m := by
  induction ns generalizing m with
  | nil => rfl
  | cons n ns ih =>
    refine Run.bind_congr (h [] n ns m rfl rfl) fun _ m₁ hm₁ => ih ?_
    rintro before n' after m' rfl hbefore
    exact h (n :: before) n' after m' rfl ((Run.bind_of_ok hm₁).trans hbefore)

theorem evaluateAll_congr {ns : List Node} {m : Machine}
    (h : ∀ before n after vs m', ns = before ++ n :: after →
      evaluateAll below before m = .ok vs m' → below.evaluate n m' = below'.evaluate n m') :
    evaluateAll below ns m = evaluateAll below' ns m := by
  induction ns generalizing m with
  | nil => rfl
  | cons n ns ih =>
    refine Run.bind_congr (h [] n ns [] m rfl rfl) fun v m₁ hm₁ =>
      Run.bind_congr (ih ?_) fun _ _ _ => rfl
    rintro before n' after vs m' rfl hbefore
    refine h (n :: before) n' after (v :: vs) m' rfl ?_
    exact (Run.bind_of_ok hm₁).trans ((Run.bind_of_ok hbefore).trans rfl)

theorem iterate_congr {pass pass' : Run Bool} {passes : Nat} {m : Machine}
    (h : ∀ k m', Passed pass k m m' → k < passes → pass m' = pass' m') :
    Run.iterate passes pass m = Run.iterate passes pass' m := by
  induction passes generalizing m with
  | zero => rfl
  | succ passes ih =>
    have hpass := h 0 m (.none m) (Nat.succ_pos _)
    cases hp : pass m with
    | ok again m' =>
      have hp' := hpass.symm.trans hp
      cases again with
      | true =>
        rw [Run.iterate_of_again passes hp, Run.iterate_of_again passes hp']
        exact ih fun k m'' hk hlt => h (k + 1) m'' (.cons hp hk) (Nat.succ_lt_succ hlt)
      | false => rw [Run.iterate_of_done passes hp, Run.iterate_of_done passes hp']
    | error e m' =>
      rw [Run.iterate_of_error passes hp, Run.iterate_of_error passes (hpass.symm.trans hp)]

theorem act_congr {given : List Answer} {action : Action} {m : Machine}
    (h : ∀ f vs m', CallsBack below given action m f vs m' →
      below.invoke f vs m' = below'.invoke f vs m') :
    act below given action m = act below' given action m := by
  induction action generalizing given m with
  | done | fail | crash => rfl
  | invoke callee arguments next ih =>
    refine Run.bind_congr rfl fun f m₁ hf => Run.bind_congr rfl fun vs m₂ hvs => ?_
    refine Run.bind_congr (h f vs m₂ (.now hf hvs)) fun answer m₃ hanswer => ih _ ?_
    exact fun g ws m' hg => h g ws m' (.later hf hvs hanswer hg)
  | compare left right next ih =>
    refine Run.bind_congr rfl fun same m₁ hsame => ih same ?_
    exact fun g ws m' hg => h g ws m' (.compared hsame hg)
  | note entry next ih =>
    refine Run.bind_congr rfl fun _ m₁ hnote => ih ?_
    exact fun g ws m' hg => h g ws m' (.noted hnote hg)
  | consult next ih =>
    refine Run.bind_congr rfl fun m₁ m₂ hget => ?_
    cases hget
    exact ih m.notes fun g ws m' hg => h g ws m' (.consulted hg)

theorem within_congr {r r' : Run Unit} {scope : Chain} {m : Machine}
    (h : r { m with scope } = r' { m with scope }) :
    Run.within scope r m = Run.within scope r' m := by
  unfold Run.within
  rw [h]

theorem evaluateNode_congr {n : Node} {m : Machine}
    (h : ∀ t' m', Starts host below (.evaluate n) m t' m' → Agree below below' t' m') :
    evaluateNode host below n m = evaluateNode host below' n m := by
  cases n with
  | grouping inner => exact h _ _ .grouping
  | unary operator operand => exact Run.bind_congr (h _ _ .operand) fun _ _ _ => rfl
  | binary left operator right =>
    exact Run.bind_congr (h _ _ .left) fun _ _ hl =>
      Run.bind_congr (h _ _ (.right hl)) fun _ _ _ => rfl
  | logical left operator right =>
    refine Run.bind_congr (h _ _ .logicalLeft) fun l m' hl => ?_
    split
    · split
      · rfl
      · exact h _ _ (.logicalRight hl (by simp_all))
    · split
      · exact h _ _ (.logicalRight hl (by simp_all))
      · rfl
  | ternary condition question thenBranch elseBranch =>
    refine Run.bind_congr (h _ _ .choice) fun v m' hv => ?_
    have hchosen := h _ _ (.chosen hv)
    split
    · simpa [*, Agree] using hchosen
    · simpa [*, Agree] using hchosen
  | assign name value => exact Run.bind_congr (h _ _ .assigned) fun _ _ _ => rfl
  | call callee paren arguments =>
    refine Run.bind_congr (h _ _ .callee) fun f m' hf => ?_
    split
    · rename_i hcallable
      refine Run.bind_congr (evaluateAll_congr ?_) fun vs m'' hvs => ?_
      · rintro before n after vs m'' rfl hbefore
        exact h _ _ (.argument before hf hcallable hbefore)
      · unfold call
        split
        · rfl
        · rename_i hlength
          have hinvoke := h _ _ (.call hf hcallable hvs (Decidable.not_not.mp hlength))
          unfold Run.counted Run.adopting
          have hcall := Run.bind_congr (q := fun answer => Run.ofExcept answer.ensure)
            hinvoke fun _ _ _ => rfl
          simp only [Machine.inCall] at hcall
          rw [hcall]
    · rfl
  | _ => rfl

theorem executeNode_congr {n : Node} {m : Machine}
    (h : ∀ t' m', Starts host below (.execute n) m t' m' → Agree below below' t' m') :
    executeNode host.passes below n m = executeNode host.passes below' n m := by
  cases n with
  | expression inner => exact Run.bind_congr (h _ _ .expression) fun _ _ _ => rfl
  | print inner => exact Run.bind_congr (h _ _ .print) fun _ _ _ => rfl
  | declare name initializer =>
    cases initializer with
    | none => rfl
    | some e => exact Run.bind_congr (h _ _ .initializer) fun _ _ _ => rfl
  | block statements =>
    refine within_congr (executeAll_congr ?_)
    rintro before n after m' rfl hbefore
    exact h _ _ (.inBlock before hbefore)
  | branch condition thenBranch elseBranch =>
    refine Run.bind_congr (h _ _ .condition) fun v m' hv => ?_
    split
    · exact h _ _ (.thenBranch hv ‹_›)
    · cases elseBranch with
      | none => rfl
      | some e => exact h _ _ (.elseBranch hv (by simp_all))
  | loop condition body =>
    refine iterate_congr fun k m' hk hlt => ?_
    refine Run.bind_congr (h _ _ (.loopCondition hk hlt)) fun v m'' hv => ?_
    split
    · exact Run.bind_congr (h _ _ (.loopBody hk hlt hv ‹_›)) fun _ _ _ => rfl
    · rfl
  | returning keyword value =>
    refine Run.bind_congr rfl fun m₁ m₂ hm => ?_
    cases hm
    split
    · rfl
    · cases value with
      | none => rfl
      | some e => exact Run.bind_congr (h _ _ (.givenBack ‹_›)) fun _ _ _ => rfl
  | _ => rfl

theorem perform_congr {callee : Value} {arguments : List Value} {m : Machine}
    (h : ∀ t' m', Starts host below (.invoke callee arguments) m t' m' →
      Agree below below' t' m') :
    perform host below callee arguments m = perform host below' callee arguments m := by
  cases callee with
  | function f =>
    refine Run.bind_congr ?_ fun _ _ _ => rfl
    refine Run.bind_congr rfl fun scope m' hscope => ?_
    cases hscope
    unfold Run.catchingReturn
    rw [within_congr (executeAll_congr ?_)]
    intro before n after m' hf hbefore
    exact h _ _ (.body before hf hbefore)
  | native index =>
    cases hindex : host.natives[index]? with
    | none => simp only [perform, hindex]
    | some native =>
      simp only [perform, hindex]
      exact act_congr fun f vs m' hcall => h _ _ (.callback hindex hcall)
  | _ => rfl

/-- What an engine does with a task in terms of the level below depends on nothing but the tasks
it starts there. -/
theorem agree_above {t : Task} {m : Machine}
    (h : ∀ t' m', Starts host below t m t' m' → Agree below below' t' m') :
    Agree (above host below) (above host below') t m := by
  cases t with
  | evaluate n => exact evaluateNode_congr h
  | execute n => exact executeNode_congr h
  | invoke callee arguments => exact perform_congr h

end Engine

/-! ### Paths from the root -/

/-- A function call that is active: the level it is performed at, the function, its arguments, and
the machine it has found. -/
structure Frame where
  depth : Nat
  callee : Closure
  arguments : List Value
  machine : Machine

/-- The function call, if any, that is active inside a task. -/
def Task.frames (depth : Nat) (m : Machine) : Task → List Frame
  | invoke (.function f) arguments => [⟨depth, f, arguments, m⟩]
  | _ => []

variable (host : Host) (m₀ : Machine)

/-- The tasks that a run begins with: an expression, a statement, or the statements of a program,
each behind those that have been executed before it. -/
inductive Begins : Task → Machine → Prop
  | evaluate (n : Node) : Begins (.evaluate n) m₀
  | execute (n : Node) : Begins (.execute n) m₀
  | statement (before : List Node) (n : Node) {m : Machine} :
      Run.executeAll host before m₀ = .ok () m → Begins (.execute n) m

/-- The tasks that a run performs, with their level, the machine they find, and the function calls
that are active around them, the innermost first. -/
inductive Reaches : Nat → Task → Machine → List Frame → Prop
  | start {t : Task} {m : Machine} : Begins host m₀ t m → Reaches host.depth t m []
  | inside {depth : Nat} {t t' : Task} {m m' : Machine} {frames : List Frame} :
      Reaches (depth + 1) t m frames → Engine.Starts host (.ofDepth host depth) t m t' m' →
      Reaches depth t' m' (t.frames (depth + 1) m ++ frames)

end Lox
