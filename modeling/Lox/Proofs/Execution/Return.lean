import Lox.Native.Library
import Lox.Proofs.Execution.CallTree
import Lox.Proofs.Execution.Restoration

/-!
# Return statements

Whether a return statement is allowed is decided by the count of calls made by a program, whereas
the value it gives back is caught by the innermost active function, which a host function may have
called without being counted. The two agree on every path of a run: outside all functions the
count is zero, inside some function it is not.

## Main definitions

* `Interrupt.Admissible`: the interrupts that may end a step with a given count of calls.
* `Run.Disciplined`: a step that puts the place back and ends with admissible interrupts only.
* `Session.Returnless`: the same for what is done in a session outside of all calls.

## Main results

* `Reaches.callDepth_eq_zero_iff`: the count is zero exactly outside all functions.
* `Reaches.returned`: what a return statement gives back ends the innermost active function.
* `return_innermost`: where a return statement leads, for every statement of every run.
-/

namespace Lox

/-! ### Interrupts and the count of calls -/

/-- An interrupt that may end a step started with a count of calls. A function gives back a value
only to a call, and only where `returns` holds; outside all calls return statements fail. -/
def Interrupt.Admissible (returns : Prop) (callDepth : Nat) : Interrupt → Prop
  | .returned _ => returns ∧ callDepth ≠ 0
  | .failed f => f.cause = .returnOutsideFunction → callDepth = 0
  | _ => True

/-- A step that puts the place of the machine back and ends with admissible interrupts only. -/
structure Run.Disciplined (returns : Prop) {α : Type} (r : Run α) : Prop where
  restores : Restores r
  admissible {m m' : Machine} {e : Interrupt} :
    r m = .error e m' → e.Admissible returns m.callDepth

namespace Run

variable {α β : Type} {returns : Prop}

theorem returning_of_zero {m : Machine} (keyword : Token) (r : Run Value)
    (h : m.callDepth = 0) :
    returning keyword r m = .error (.failed ⟨.returnOutsideFunction, some keyword⟩) m := by
  rw [returning]
  rw [bind_of_ok (rfl : (get : Run Machine) m = .ok m m), if_pos h]
  rfl

theorem returning_of_ok {r : Run Value} {v : Value} {m m' : Machine} (keyword : Token)
    (h : m.callDepth ≠ 0) (hr : r m = .ok v m') :
    returning keyword r m = .error (.returned v) m' := by
  rw [returning]
  rw [bind_of_ok (rfl : (get : Run Machine) m = .ok m m), if_neg h, bind_of_ok hr]
  rfl

theorem returning_of_error {r : Run Value} {e : Interrupt} {m m' : Machine} (keyword : Token)
    (h : m.callDepth ≠ 0) (hr : r m = .error e m') :
    returning keyword r m = .error e m' := by
  rw [returning]
  rw [bind_of_ok (rfl : (get : Run Machine) m = .ok m m), if_neg h, bind_of_error hr]

theorem Restores.callDepth_eq {r : Run α} (h : Restores r) {m m' : Machine} {a : α}
    (hr : r m = .ok a m') : m'.callDepth = m.callDepth := by
  have hm := h m
  rw [hr] at hm
  exact congrArg Place.callDepth hm

theorem Restores.scope_eq {r : Run α} (h : Restores r) {m m' : Machine} {a : α}
    (hr : r m = .ok a m') : m'.scope = m.scope := by
  have hm := h m
  rw [hr] at hm
  exact congrArg Place.scope hm

theorem Restores.scope_eq_of_error {r : Run α} (h : Restores r) {m m' : Machine} {e : Interrupt}
    (hr : r m = .error e m') : m'.scope = m.scope := by
  have hm := h m
  rw [hr] at hm
  exact congrArg Place.scope hm

/-- A step that never breaks off. -/
theorem Disciplined.ofTotal {r : Run α} (h : Restores r) (hr : ∀ m, ∃ a m', r m = .ok a m') :
    Disciplined returns r := by
  refine ⟨h, fun {m m' e} he => ?_⟩
  obtain ⟨a, m'', ha⟩ := hr m
  rw [ha] at he
  cases he

theorem Disciplined.throw {e : Interrupt} (h : ∀ n, e.Admissible returns n) :
    Disciplined returns (throw e : Run α) :=
  ⟨keeps_throw e, fun he => by cases he; exact h _⟩

theorem Disciplined.fail {cause : Cause} (token : Option Token)
    (h : cause ≠ .returnOutsideFunction) : Disciplined returns (Run.fail cause token : Run α) :=
  .throw fun _ (hc : cause = .returnOutsideFunction) => absurd hc h

theorem Disciplined.bind {p : Run α} {q : α → Run β} (hp : Disciplined returns p)
    (hq : ∀ a, Disciplined returns (q a)) : Disciplined returns (p >>= q) := by
  refine ⟨hp.restores.bind fun a => (hq a).restores, fun {m m' e} he => ?_⟩
  cases hpm : p m with
  | ok a m'' =>
    rw [bind_of_ok hpm] at he
    exact hp.restores.callDepth_eq hpm ▸ (hq a).admissible he
  | error e' m'' =>
    rw [bind_of_error hpm] at he
    cases he
    exact hp.admissible hpm

theorem Disciplined.weaken {r : Run α} (h : Disciplined False r) : Disciplined returns r := by
  refine ⟨h.restores, fun {m m' e} he => ?_⟩
  have ha := h.admissible he
  cases e with
  | returned v => exact ha.1.elim
  | _ => exact ha

theorem Disciplined.within {r : Run Unit} (h : Disciplined returns r) (scope : Chain) :
    Disciplined returns (Run.within scope r) := by
  refine ⟨h.restores.within scope, fun {m m' e} he => ?_⟩
  rw [Run.within] at he
  cases hr : r { m with scope } with
  | ok a m'' => simp [hr] at he
  | error e' m'' =>
    have ha := h.admissible hr
    simp only [hr, EStateM.Result.error.injEq] at he
    exact he.1 ▸ ha

/-- Inside a call the count is not zero, so that no return statement fails there. -/
theorem Disciplined.counted {r : Run Value} (h : Disciplined False r) (t : Token) :
    Disciplined False (Run.counted (Run.adopting t r)) := by
  refine ⟨Restores.counted (h.restores.adopting t), fun {m m' e} he => ?_⟩
  rw [Run.counted, Run.adopting] at he
  cases hr : r { m with callDepth := m.callDepth + 1 } with
  | ok a m'' => simp [hr] at he
  | error e' m'' =>
    have ha := h.admissible hr
    cases e' with
    | failed f =>
      simp only [hr, EStateM.Result.error.injEq] at he
      obtain ⟨rfl, -⟩ := he
      exact fun hc => absurd (ha hc) (Nat.succ_ne_zero _)
    | returned v => exact ha.1.elim
    | _ =>
      simp only [hr, EStateM.Result.error.injEq] at he
      obtain ⟨rfl, -⟩ := he
      trivial

/-- What a function gives back does not leave it. -/
theorem Disciplined.catchingReturn {r : Run Unit} (h : Disciplined True r) :
    Disciplined False (Run.catchingReturn r) := by
  refine ⟨h.restores.catchingReturn, fun {m m' e} he => ?_⟩
  rw [Run.catchingReturn] at he
  cases hr : r m with
  | ok a m'' => simp [hr] at he
  | error e' m'' =>
    have ha := h.admissible hr
    cases e' with
    | returned v => simp [hr] at he
    | failed f =>
      simp only [hr, EStateM.Result.error.injEq] at he
      exact he.1 ▸ ha
    | _ =>
      simp only [hr, EStateM.Result.error.injEq] at he
      exact he.1 ▸ trivial

theorem Disciplined.iterate {r : Run Bool} (h : Disciplined returns r) (passes : Nat) :
    Disciplined returns (Run.iterate passes r) := by
  refine ⟨h.restores.iterate passes, fun {m m' e} he => ?_⟩
  induction passes generalizing m with
  | zero => cases he; trivial
  | succ passes ih =>
    unfold Run.iterate at he
    split at he
    · rename_i m'' hr
      exact h.restores.callDepth_eq hr ▸ ih he
    · cases he
    · rename_i hr
      cases he
      exact h.admissible hr

/-- The check of a return statement fails exactly outside all calls. -/
theorem Disciplined.returning {r : Run Value} (keyword : Token) (h : Disciplined False r) :
    Disciplined True (Run.returning keyword r) := by
  refine ⟨handedOn_restores.returning keyword h.restores, fun {m m' e} he => ?_⟩
  by_cases hm : m.callDepth = 0
  · rw [returning_of_zero keyword r hm] at he
    cases he
    exact fun _ => hm
  · cases hr : r m with
    | ok v m'' =>
      rw [returning_of_ok keyword hm hr] at he
      cases he
      exact ⟨trivial, hm⟩
    | error e' m'' =>
      rw [returning_of_error keyword hm hr] at he
      cases he
      exact h.weaken.admissible hr

/-- All constructs hand on the discipline; the execution of statements may give back a value. -/
theorem handedOn_disciplined : HandedOn (Disciplined False) (Disciplined True) where
  ofEvaluation := Disciplined.weaken
  pure a := .ofTotal (keeps_pure a) fun m => ⟨a, m, rfl⟩
  bind := Disciplined.bind
  sequence := Disciplined.bind
  overflow := .throw fun _ => trivial
  broken _ := .throw fun _ => trivial
  fail := Disciplined.fail
  get := .ofTotal keeps_get fun m => ⟨m, m, rfl⟩
  printLine text := .ofTotal (handedOn_restores.printLine text) fun m => ⟨(), _, rfl⟩
  newIdentity := .ofTotal handedOn_restores.newIdentity fun m => ⟨_, _, rfl⟩
  note entry := .ofTotal (handedOn_restores.note entry) fun m => ⟨(), _, rfl⟩
  lookup name := ⟨restores_lookup name, fun {m m' e} he => by
    rw [Run.lookup] at he
    split at he <;> cases he
    exact fun h => by cases h⟩
  assign name v := ⟨restores_assign name v, fun {m m' e} he => by
    rw [Run.assign] at he
    split at he <;> cases he
    exact fun h => by cases h⟩
  define name v := .ofTotal (handedOn_restores.define name v) fun m => ⟨(), _, rfl⟩
  newScope around t := .ofTotal (handedOn_restores.newScope around t) fun m => ⟨_, _, rfl⟩
  within scope h := h.within scope
  counted t h := h.counted t
  catchingReturn := Disciplined.catchingReturn
  iterate passes h := h.iterate passes
  returning := Disciplined.returning

end Run

/-- Every level of the engine keeps the discipline. -/
theorem Engine.ofDepth_disciplined (host : Host) (depth : Nat) :
    (Engine.ofDepth host depth).Has (Run.Disciplined False) (Run.Disciplined True) :=
  Run.handedOn_disciplined.ofDepth host depth

/-! ### The count of calls along a path -/

namespace Engine

variable {host : Host} {below : Engine}

/-- Some statements and then some more are executed one after the other. -/
theorem executeAll_append (ns ns' : List Node) :
    executeAll below (ns ++ ns') = executeAll below ns >>= fun _ => executeAll below ns' := by
  induction ns with
  | nil => exact (pure_bind _ _).symm
  | cons n ns ih => exact (bind_congr fun _ => ih).trans (bind_assoc _ _ _).symm

/-- An error behind statements that have ended normally is one of the whole. -/
theorem executeAll_of_error {before after : List Node} {n : Node} {e : Interrupt}
    {m m' m'' : Machine} (hbefore : executeAll below before m = .ok () m')
    (h : below.execute n m' = .error e m'') :
    executeAll below (before ++ n :: after) m = .error e m'' := by
  rw [executeAll_append, Run.bind_of_ok hbefore]
  exact Run.bind_of_error h

end Engine

/-- After complete passes a loop goes on where the last of them has ended. -/
theorem Passed.iterate_add {pass : Run Bool} {k : Nat} {m m' : Machine}
    (h : Passed pass k m m') (j : Nat) :
    Run.iterate (k + j) pass m = Run.iterate j pass m' := by
  induction h generalizing j with
  | none m => rw [Nat.zero_add]
  | @another k m m' m'' _ hp ih =>
    rw [Nat.add_right_comm, Nat.add_assoc, ih, Run.iterate]
    simp only [hp]

theorem Passed.iterate_of_error {pass : Run Bool} {k passes : Nat} {e : Interrupt}
    {m m' m'' : Machine} (h : Passed pass k m m') (hk : k < passes)
    (he : pass m' = .error e m'') : Run.iterate passes pass m = .error e m'' := by
  obtain ⟨j, rfl⟩ : ∃ j, passes = k + (j + 1) := ⟨passes - k - 1, by omega⟩
  rw [h.iterate_add, Run.iterate]
  simp only [he]

theorem Passed.place_eq {pass : Run Bool} {k : Nat} {m m' : Machine}
    (hpass : Run.Restores pass) (h : Passed pass k m m') : m'.place = m.place := by
  induction h with
  | none m => rfl
  | @another k m m' m'' _ hp ih =>
    have hm := hpass m'
    rw [hp] at hm
    exact hm.trans ih

namespace Engine

variable {host : Host} {below : Engine} {t t' : Task} {m m' : Machine}

/-- What a host function does before one of its calls leads where all constructs lead. -/
theorem CallsBack.leads {R : Machine → Machine → Prop} {S : ∀ {α : Type}, Run α → Prop}
    (htrans : ∀ {m m' m''}, R m m' → R m' m'' → R m m'') (hR : HandedOn (Leads R) S) (hb : below.Has (Leads R) S) {given : List Answer}
    {action : Action} {f : Value} {vs : List Value}
    (h : CallsBack below given action m f vs m') : R m m' := by
  induction h with
  | now hf hvs => exact htrans ((hR.passed _ _).of_ok hf) ((hR.passedAll _ _).of_ok hvs)
  | later hf hvs hinvoke _ ih =>
    have hbefore := htrans ((hR.passed _ _).of_ok hf) ((hR.passedAll _ _).of_ok hvs)
    exact htrans hbefore (htrans ((hb.invoke _ _).of_ok hinvoke) ih)
  | compared hsame _ ih => exact htrans ((hR.compared _ _ _).of_ok hsame) ih
  | noted hnote _ ih => exact htrans ((hR.note _).of_ok hnote) ih
  | consulted _ ih => exact ih

/-- A host function calls from the place it has been called at. -/
theorem CallsBack.place_eq {given : List Answer} {action : Action} {f : Value} {vs : List Value}
    (h : CallsBack below given action m f vs m') (hb : below.Has Run.Restores Run.Restores) :
    m'.place = m.place := by
  have hR : HandedOn (Leads fun m m' : Machine => m'.place = m.place) Run.Restores :=
    Run.handedOn_restores
  exact h.leads (fun h h' => h'.trans h) hR hb

/-- Only a call by a program changes the count of calls; what a host function calls and what a
function executes finds it as it is. -/
theorem Starts.callDepth_eq (h : Starts host below t m t' m')
    (hb : below.Has Run.Restores Run.Restores) :
    m'.callDepth = match t, t' with
      | .evaluate _, .invoke .. => m.callDepth + 1
      | _, _ => m.callDepth := by
  have hall := Run.handedOn_restores.executeAll hb
  have hpass := Run.handedOn_restores.pass hb
  have harguments := Run.handedOn_restores.evaluateAll hb
  cases h with
  | right h | logicalRight h _ | chosen h | thenBranch h _ | elseBranch h _ =>
    exact (hb.evaluate _).callDepth_eq h
  | argument _ hc _ ha =>
    exact ((harguments _).callDepth_eq ha).trans ((hb.evaluate _).callDepth_eq hc)
  | call hc _ ha _ =>
    exact congrArg (· + 1) (((harguments _).callDepth_eq ha).trans ((hb.evaluate _).callDepth_eq hc))
  | inBlock _ h | body _ _ h => exact ((hall _).callDepth_eq h).trans rfl
  | loopCondition h _ => exact congrArg Place.callDepth (h.place_eq (hpass _ _))
  | loopBody h _ hc _ =>
    exact ((hb.evaluate _).callDepth_eq hc).trans
      (congrArg Place.callDepth (h.place_eq (hpass _ _)))
  | callback _ h => exact congrArg Place.callDepth (h.place_eq hb)
  | _ => rfl

/-- Statements are executed by statements and functions only. -/
theorem Starts.not_execute_of_evaluate {e n : Node} :
    ¬ Starts host below (.evaluate e) m (.execute n) m' := nofun

theorem Starts.not_invoke_of_execute {n : Node} {f : Value} {vs : List Value} :
    ¬ Starts host below (.execute n) m (.invoke f vs) m' := nofun

/-- A function executes statements, a host function makes calls. -/
theorem Starts.of_invoke {callee : Value} {arguments : List Value}
    (h : Starts host below (.invoke callee arguments) m t' m') :
    (∃ f n, callee = .function f ∧ t' = .execute n) ∨
      (∃ index f vs, callee = .native index ∧ t' = .invoke f vs) := by
  cases h with
  | body => exact .inl ⟨_, _, rfl, rfl⟩
  | callback => exact .inr ⟨_, _, _, rfl, rfl⟩

theorem executeNode_block_of_error {ns : List Node} {e : Interrupt}
    (h : executeAll below ns (m.inScope m.scope []) = .error e m') :
    executeNode host.passes below (.block ns) m = .error e { m' with scope := m.scope } := by
  change Run.within (m.scope.extend m.scopes.next) (executeAll below ns)
    { m with scopes := m.scopes.push [] } = _
  rw [Run.within]
  simp only [Machine.inScope] at h
  rw [h]

theorem executeNode_branch (passes : Nat) (c t : Node) (e : Option Node) :
    executeNode passes below (.branch c t e) = below.evaluate c >>= fun v =>
      if v.truthy then below.execute t else match e with
        | none => pure ()
        | some n => below.execute n := rfl

theorem pass_of_error {c body : Node} {a : Value} {e : Interrupt} {m'' : Machine}
    (hc : below.evaluate c m = .ok a m') (ha : a.truthy = true)
    (h : below.execute body m' = .error e m'') : pass below c body m = .error e m'' := by
  rw [pass]
  rw [Run.bind_of_ok hc, if_pos ha, Run.bind_of_error h]

theorem execute_returning (depth : Nat) (keyword : Token) (value : Option Node) :
    (ofDepth host (depth + 1)).execute (.returning keyword value)
      = Run.returning keyword (givenBack (ofDepth host depth) value) := rfl

/-- A value that a statement gives back leaves the statement it is part of. -/
theorem Starts.returned {n n' : Node} {v : Value} {m'' : Machine}
    (h : Starts host below (.execute n) m (.execute n') m')
    (hb : below.Has Run.Restores Run.Restores)
    (hr : below.execute n' m' = .error (.returned v) m'') :
    executeNode host.passes below n m = .error (.returned v) { m'' with scope := m.scope } := by
  have hscope {r : Run Unit} {m₁ : Machine} (hr : Run.Restores r) (hm₁ : m₁.scope = m.scope)
      (he : r m₁ = .error (.returned v) m'') : { m'' with scope := m.scope } = m'' := by
    rw [← hm₁, ← hr.scope_eq_of_error he]
  cases h with
  | inBlock _ hbefore => exact executeNode_block_of_error (executeAll_of_error hbefore hr)
  | thenBranch hc ha =>
    rw [hscope (hb.execute _) ((hb.evaluate _).scope_eq hc) hr, executeNode_branch,
      Run.bind_of_ok hc, if_pos ha, hr]
  | elseBranch hc ha =>
    rw [hscope (hb.execute _) ((hb.evaluate _).scope_eq hc) hr, executeNode_branch,
      Run.bind_of_ok hc, if_neg (by simp [ha])]
    exact hr
  | loopBody hp hk hc ha =>
    have hplace := hp.place_eq (Run.handedOn_restores.pass hb _ _)
    have hm' := ((hb.evaluate _).scope_eq hc).trans (congrArg Place.scope hplace)
    rw [hscope (hb.execute _) hm' hr]
    exact hp.iterate_of_error hk (pass_of_error hc ha hr)

theorem enter_of_returned {f : Closure} {arguments : List Value} {v : Value}
    (h : executeAll below f.body (m.inScope f.scope (f.bindings arguments))
      = .error (.returned v) m') :
    enter below f arguments m = .ok v { m' with scope := m.scope } := by
  have hwithin : Run.within (f.scope.extend m.scopes.next) (executeAll below f.body)
      { m with scopes := m.scopes.push (f.bindings arguments) }
        = .error (.returned v) { m' with scope := m.scope } := by
    rw [Run.within]
    simp only [Machine.inScope] at h
    rw [h]
  change Run.catchingReturn (Run.within _ (executeAll below f.body))
    { m with scopes := m.scopes.push (f.bindings arguments) } = _
  rw [Run.catchingReturn, hwithin]

/-- A value that a statement of a function gives back is the answer of the call. -/
theorem Starts.answer {f : Closure} {arguments : List Value} {n : Node} {v : Value}
    {m'' : Machine} (h : Starts host below (.invoke (.function f) arguments) m (.execute n) m')
    (hr : below.execute n m' = .error (.returned v) m'') :
    perform host below (.function f) arguments m
      = .ok (.value v) { m'' with scope := m.scope } := by
  cases h with
  | body _ hf hbefore =>
    have hall : executeAll below f.body (m.inScope f.scope (f.bindings arguments))
        = .error (.returned v) m'' := hf ▸ executeAll_of_error hbefore hr
    exact Run.bind_of_ok (enter_of_returned hall)

end Engine

/-! ### Paths of a run -/

section Paths

variable {host : Host} {m₀ : Machine}

theorem Begins.callDepth_eq {t : Task} {m : Machine} (h : Begins host m₀ t m) :
    m.callDepth = m₀.callDepth := by
  cases h with
  | evaluate | execute => rfl
  | statement _ _ hbefore => exact (Run.restores_executeAll host _).callDepth_eq hbefore

/-- On a path that begins outside of all calls the count of calls is zero exactly outside of all
functions. Inside a call it is not, even if the call is one of a host function. -/
theorem Reaches.callDepth_eq_zero_iff {depth : Nat} {t : Task} {m : Machine}
    {frames : List Frame} (h : Reaches host m₀ depth t m frames) (h₀ : m₀.callDepth = 0) :
    m.callDepth = 0 ↔ frames = [] ∧ ∀ f vs, t ≠ .invoke f vs := by
  induction h with
  | start hbegin =>
    refine iff_of_true (hbegin.callDepth_eq.trans h₀) ⟨rfl, fun f vs => ?_⟩
    rintro rfl
    cases hbegin
  | @inside depth t t' m m' frames _ hstarts ih =>
    have hm' := hstarts.callDepth_eq (Engine.ofDepth_restores host depth)
    cases t with
    | evaluate e =>
      cases t' with
      | evaluate e' => simp_all [Task.frames]
      | execute n => exact absurd hstarts Engine.Starts.not_execute_of_evaluate
      | invoke f vs => simp [hm']
    | execute n =>
      cases t' with
      | evaluate | execute => simp_all [Task.frames]
      | invoke f vs => exact absurd hstarts Engine.Starts.not_invoke_of_execute
    | invoke callee arguments =>
      have hm : m.callDepth ≠ 0 := fun h => (ih.mp h).2 _ _ rfl
      obtain ⟨f, n, rfl, rfl⟩ | ⟨index, f, vs, rfl, rfl⟩ := hstarts.of_invoke
      · simpa [hm', Task.frames] using hm
      · simpa [hm'] using hm

/-- What a return statement gives back ends the innermost active function: it is the answer of
its call, and nothing but the scope in effect differs from the machine in which it was given
back. -/
theorem Reaches.returned {depth : Nat} {n : Node} {m m' : Machine} {v : Value} {frame : Frame}
    {frames : List Frame} (h : Reaches host m₀ depth (.execute n) m (frame :: frames))
    (hr : (Engine.ofDepth host depth).execute n m = .error (.returned v) m') :
    (Engine.ofDepth host frame.depth).invoke (.function frame.callee) frame.arguments frame.machine
      = .ok (.value v) { m' with scope := frame.machine.scope } := by
  generalize ht : Task.execute n = t at h
  generalize hframes : frame :: frames = fs at h
  induction h generalizing n m' with
  | start => cases hframes
  | @inside depth t t' m m' fs h hstarts ih =>
    subst ht
    cases t with
    | evaluate e => exact absurd hstarts Engine.Starts.not_execute_of_evaluate
    | execute n' =>
      have hanswer := ih (hstarts.returned (Engine.ofDepth_restores host depth) hr) rfl hframes
      exact hanswer
    | invoke callee arguments =>
      obtain ⟨f, _, rfl, -⟩ | ⟨_, _, _, -, hinvoke⟩ := hstarts.of_invoke
      · cases hframes
        exact hstarts.answer hr
      · cases hinvoke

end Paths

/-! ### Return statements of a run -/

namespace Run

variable {m m' : Machine} {v : Value}

theorem disciplined_evaluate (host : Host) (n : Node) : Disciplined False (evaluate host n) :=
  (Engine.ofDepth_disciplined host host.depth).evaluate n

theorem disciplined_execute (host : Host) (n : Node) : Disciplined True (execute host n) :=
  (Engine.ofDepth_disciplined host host.depth).execute n

theorem disciplined_executeAll (host : Host) (ns : List Node) :
    Disciplined True (executeAll host ns) :=
  handedOn_disciplined.executeAll (Engine.ofDepth_disciplined host host.depth) ns

/-- An expression never gives back a value to a call. -/
theorem Disciplined.not_returned {α : Type} {r : Run α} (h : Disciplined False r) :
    r m ≠ .error (.returned v) m' := fun he => (h.admissible he).1

/-- Outside of all calls no statement does so either. -/
theorem Disciplined.not_returned_of_zero {r : Run Unit} (h : Disciplined True r)
    (hm : m.callDepth = 0) : r m ≠ .error (.returned v) m' := fun he => (h.admissible he).2 hm

end Run

/-- Something done in a session that leaves the machine where it stands and, outside of all
calls, does not end with a value that a function gives back. -/
structure Session.Returnless {α : Type} (act : Act α) : Prop where
  keeps : Keeps place act
  not_returned {s s' : Session} {v : Value} :
    s.machine.callDepth = 0 → act s ≠ .error (.returned v) s'

namespace Session

variable {α β : Type} {host : Host}

theorem Returnless.ofTotal {act : Act α} (h : Keeps place act)
    (hact : ∀ s, ∃ a s', act s = .ok a s') : Returnless act := by
  refine ⟨h, fun {s s' v} _ he => ?_⟩
  obtain ⟨a, s'', ha⟩ := hact s
  rw [ha] at he
  cases he

theorem Returnless.bind {p : Act α} {q : α → Act β} (hp : Returnless p)
    (hq : ∀ a, Returnless (q a)) : Returnless (p >>= q) := by
  refine ⟨hp.keeps.bind fun a => (hq a).keeps, fun {s s' v} hs he => ?_⟩
  change EStateM.bind p q s = _ at he
  rw [EStateM.bind] at he
  cases hps : p s with
  | ok a s'' =>
    have hplace := hp.keeps s
    rw [hps] at hplace he
    exact (hq a).not_returned ((congrArg Place.callDepth hplace).trans hs) he
  | error e s'' =>
    rw [hps] at he
    cases he
    exact hp.not_returned hs hps

theorem Returnless.guarded {act : Act α} (h : Returnless act) : Returnless (guarded act) := by
  refine ⟨keeps_guarded h.keeps, fun {s s' v} hs he => ?_⟩
  rw [Session.guarded] at he
  split at he
  · cases he
  · cases he
  · cases he
  · rename_i hr
    cases he
    exact h.not_returned hs hr

theorem Returnless.step {r : Run α} (h : Run.Restores r)
    (hr : ∀ {m m' v}, m.callDepth = 0 → r m ≠ .error (.returned v) m') :
    Returnless (step r) := by
  refine ⟨keeps_step h, fun {s s' v} hs he => ?_⟩
  rw [Session.step] at he
  split at he
  · cases he
  · rename_i hr'
    cases he
    exact hr hs hr'

theorem Returnless.interpret (statements : List Node) :
    Returnless (interpret host statements) := by
  refine ⟨keeps_interpret host statements, fun {s s' v} hs he => ?_⟩
  have hall := Run.disciplined_executeAll host statements
  have hstep := Returnless.step hall.restores hall.not_returned_of_zero
  rw [Session.interpret] at he
  split at he
  · cases he
  · cases he
  · rename_i hr
    cases he
    exact hstep.not_returned hs hr

theorem handedOn_returnless (host : Host) : HandedOn host Returnless where
  pure a := .ofTotal (keeps_pure a) fun s => ⟨a, s, rfl⟩
  bind := Returnless.bind
  get := .ofTotal keeps_get fun s => ⟨s, s, rfl⟩
  report f := .ofTotal ((handedOn_keeps_place host).report f) fun _ => ⟨(), _, rfl⟩
  guarded := Returnless.guarded
  interpret := Returnless.interpret
  evaluate n :=
    have h := Run.disciplined_evaluate host n
    .step h.restores fun _ => h.not_returned

end Session

/-- Where return statements lead, in any run that begins outside of all calls. No value that a
function gives back leaves an evaluation, an execution or the run of a program. A return
statement outside of all functions fails, is blamed by its keyword, and starts nothing, so that
its operand is not evaluated. One inside a function does not fail in this way; if its operand has
a value, this value is the answer of the innermost active function, and the machine is the one the
value was given back in but for the scope in effect, so that nothing else of the function is
executed and everything around the call goes on. -/
theorem return_innermost (host : Host) (m₀ : Machine) (h₀ : m₀.callDepth = 0) :
    Cause.returnOutsideFunction.message = "Can't return from top-level code." ∧
    (∀ n v m, Run.evaluate host n m₀ ≠ .error (.returned v) m) ∧
    (∀ n v m, Run.execute host n m₀ ≠ .error (.returned v) m) ∧
    (∀ ns v reporter settings s,
      Session.interpret host ns ⟨m₀, reporter, settings⟩ ≠ .error (.returned v) s) ∧
    (∀ source v reporter settings s,
      Session.run host source ⟨m₀, reporter, settings⟩ ≠ .error (.returned v) s) ∧
    ∀ depth keyword value m frames,
      Reaches host m₀ (depth + 1) (.execute (.returning keyword value)) m frames →
      match frames with
      | [] =>
        (Engine.ofDepth host (depth + 1)).execute (.returning keyword value) m
            = .error (.failed ⟨.returnOutsideFunction, some keyword⟩) m ∧
          ∀ t m', ¬ Engine.Starts host (.ofDepth host depth)
            (.execute (.returning keyword value)) m t m'
      | frame :: _ =>
        (∀ token m', (Engine.ofDepth host (depth + 1)).execute (.returning keyword value) m
            ≠ .error (.failed ⟨.returnOutsideFunction, token⟩) m') ∧
          ∀ v m', (Engine.ofDepth host depth).givenBack value m = .ok v m' →
            (Engine.ofDepth host frame.depth).invoke (.function frame.callee) frame.arguments
                frame.machine
              = .ok (.value v) { m' with scope := frame.machine.scope } := by
  refine ⟨rfl, fun n v m => (Run.disciplined_evaluate host n).not_returned,
    fun n v m => (Run.disciplined_execute host n).not_returned_of_zero h₀, ?_, ?_, ?_⟩
  · intro ns v reporter settings s
    exact (Session.Returnless.interpret ns).not_returned h₀
  · intro source v reporter settings s
    exact ((Session.handedOn_returnless host).run source).not_returned h₀
  · intro depth keyword value m frames h
    have hcount := h.callDepth_eq_zero_iff h₀
    cases frames with
    | nil =>
      have hm : m.callDepth = 0 := hcount.mpr (by simp)
      rw [Engine.execute_returning]
      refine ⟨Run.returning_of_zero keyword _ hm, fun t m' hstarts => ?_⟩
      cases hstarts with
      | givenBack h => exact h hm
    | cons frame frames =>
      have hm : m.callDepth ≠ 0 := fun h => List.cons_ne_nil _ _ (hcount.mp h).1
      refine ⟨fun token m' he => ?_, fun v m' hv => h.returned ?_⟩
      · have hlevel := Engine.ofDepth_disciplined host (depth + 1)
        exact hm ((hlevel.execute _).admissible he rfl)
      · rw [Engine.execute_returning]
        exact Run.returning_of_ok keyword hm hv

namespace CalledBack

/-- A host with a function that calls its argument without being counted, with a text of its
own. -/
def host : Host := ⟨[⟨"call", 1, Action.callWith [.string "v"]⟩], 12, 5⟩

def word (kind : Kind) (lexeme : String) : Token := ⟨kind, lexeme, .nil, 1⟩

/-- `return x;` -/
def giveBack : Node := .returning (word .kwReturn "return") (some (.reference (word .identifier "x")))

/-- A function that returns its argument out of a block in a loop. -/
def declaration : Node :=
  .function (word .identifier "f") [word .identifier "x"]
    [.loop (.literal (.bool true)) (.block [giveBack])]

/-- The statement `call(f);`. -/
def use : Node :=
  .expression (.call (.reference (word .identifier "call")) (word .rightParen ")")
    [.reference (word .identifier "f")])

/-- The return statement is reached through the host function, and ends the function with its
value. -/
theorem return_innermost_calledBack :
    (Machine.fresh host.natives).callDepth = 0 ∧
    ∃ m frame, Reaches host (.fresh host.natives) 6 (.execute giveBack) m [frame] ∧
      (Engine.ofDepth host frame.depth).invoke (.function frame.callee) frame.arguments
          frame.machine
        = .ok (.value (.string "v")) { m with scope := frame.machine.scope } := by
  have hbegin : Begins host (.fresh host.natives) (.execute use) _ :=
    .statement [declaration] use rfl
  have hcall := ((Reaches.start hbegin).inside .expression).inside (.call rfl rfl rfl rfl)
  have hbody := (hcall.inside (.callback rfl (.now rfl rfl))).inside (.body [] rfl rfl)
  have hblock := hbody.inside (.loopBody (.none _) (by decide) rfl rfl)
  have hreturn := hblock.inside (.inBlock [] rfl)
  obtain ⟨-, -, -, -, -, hall⟩ := return_innermost host (.fresh host.natives) rfl
  exact ⟨rfl, _, _, hreturn, (hall _ _ _ _ _ hreturn).2 _ _ rfl⟩

end CalledBack

end Lox
