import Lox.Proofs.Execution.Traversal
import Lox.Session

/-!
# Scope and call count are put back

A step that enters a scope or a call changes where the machine stands: the scope in effect, or
the number of active calls. Every operation puts both back, however it ends.

## Main definitions

* `Keeps`: a quantity of the state that is the same when a step has ended, however it ends.
* `Leads`: a relation between the states before and after a step, however it ends.
* `Machine.place`: the scope in effect and the number of active calls.
* `Session.Order`, `Session.obey`: programs and entries one after the other.

## Main results

* `Engine.ofDepth_restores`: every level of the engine puts the place back.
* `place_restored`: so do all operations, and a session stands at the global scope after any
  sequence of runs.
-/

namespace Lox

/-! ### Quantities that a step keeps -/

section Keeps

variable {σ α β γ : Type}

/-- The state in which a step ends. -/
def endState : EStateM.Result Interrupt σ α → σ
  | .ok _ s | .error _ s => s

/-- A step that ends in a state with the same `f` as the one it was started in. -/
def Keeps (f : σ → γ) (r : EStateM Interrupt σ α) : Prop :=
  ∀ s, f (endState (r s)) = f s

variable {f : σ → γ} {p : EStateM Interrupt σ α} {q : α → EStateM Interrupt σ β}

theorem keeps_pure (a : α) : Keeps f (pure a : EStateM Interrupt σ α) := fun _ => rfl

theorem keeps_throw (e : Interrupt) : Keeps f (throw e : EStateM Interrupt σ α) := fun _ => rfl

theorem keeps_get : Keeps f (get : EStateM Interrupt σ σ) := fun _ => rfl

/-- A change of the state that leaves `f` alone. -/
theorem keeps_modifyGet {g : σ → α × σ} (h : ∀ s, f (g s).2 = f s) :
    Keeps f (modifyGet g : EStateM Interrupt σ α) := h

theorem keeps_modify {g : σ → σ} (h : ∀ s, f (g s) = f s) :
    Keeps f (modify g : EStateM Interrupt σ PUnit) := h

/-- Two steps in a row keep what both of them keep. -/
theorem Keeps.bind (hp : Keeps f p) (hq : ∀ a, Keeps f (q a)) : Keeps f (p >>= q) := by
  intro s
  have h := hp s
  change f (endState (EStateM.bind p q s)) = f s
  unfold EStateM.bind
  cases hs : p s with
  | ok a s' => rw [hq a s', ← h, hs, endState]
  | error e s' => rw [← h, hs]; rfl

theorem Keeps.ite {c : Prop} [Decidable c] {p q : EStateM Interrupt σ α} (hp : Keeps f p)
    (hq : Keeps f q) : Keeps f (if c then p else q) := by
  split
  · exact hp
  · exact hq

end Keeps

section Leads

variable {σ α β : Type} {R : σ → σ → Prop}

/-- A step that leads from a state to one that is related to it, however it ends. -/
def Leads (R : σ → σ → Prop) (r : EStateM Interrupt σ α) : Prop :=
  ∀ s, R s (endState (r s))

theorem Leads.of_ok {r : EStateM Interrupt σ α} {a : α} {s s' : σ} (h : Leads R r)
    (hr : r s = .ok a s') : R s s' := by
  have hs := h s
  rwa [hr] at hs

/-- Two steps in a row lead where a transitive relation goes. -/
theorem Leads.bind {p : EStateM Interrupt σ α} {q : α → EStateM Interrupt σ β}
    (htrans : ∀ {s s' s''}, R s s' → R s' s'' → R s s'') (hp : Leads R p)
    (hq : ∀ a, Leads R (q a)) : Leads R (p >>= q) := by
  intro s
  have hs := hp s
  change R s (endState (EStateM.bind p q s))
  unfold EStateM.bind
  cases h : p s with
  | ok a s' =>
    rw [h] at hs
    exact htrans hs (hq a s')
  | error e s' =>
    rw [h] at hs
    exact hs

end Leads

/-! ### The steps of the machine -/

/-- Where a machine stands: the scope in effect and the number of active calls. -/
structure Place where
  scope : Chain
  callDepth : Nat
  deriving DecidableEq, Repr, Inhabited

/-- Where a machine stands. -/
def Machine.place (m : Machine) : Place := ⟨m.scope, m.callDepth⟩

theorem Machine.place_fresh (natives : List Native) :
    (Machine.fresh natives).place = ⟨Machine.globalScope, 0⟩ := rfl

namespace Run

variable {α : Type}

/-- A step that puts the place of the machine back. -/
abbrev Restores (r : Run α) : Prop := Keeps Machine.place r

/-- The scope is put back by `within`, the number of calls by the step. -/
theorem Restores.within {r : Run α} (h : Restores r) (scope : Chain) :
    Restores (Run.within scope r) := by
  intro m
  have hm := h { m with scope }
  rw [Run.within]
  cases hr : r { m with scope } with
  | ok a m' | error e m' =>
    simp only [hr, endState, Machine.place, Place.mk.injEq, true_and] at hm ⊢
    exact hm.2

/-- A call is counted out where it ends, however it ends. The count is what it was before since
the step ends with the count it has found. -/
theorem Restores.counted {r : Run α} (h : Restores r) : Restores (Run.counted r) := by
  intro m
  have hm := h { m with callDepth := m.callDepth + 1 }
  rw [Run.counted]
  cases hr : r { m with callDepth := m.callDepth + 1 } with
  | ok a m' | error e m' =>
    simp only [hr, endState, Machine.place, Place.mk.injEq] at hm ⊢
    exact ⟨hm.1, Nat.sub_eq_of_eq_add hm.2⟩

theorem Restores.adopting {r : Run α} (h : Restores r) (t : Token) :
    Restores (Run.adopting t r) := by
  intro m
  have hm := h m
  rw [Run.adopting]
  split
  · rename_i hr
    rwa [hr] at hm
  · exact hm

theorem Restores.catchingReturn {r : Run Unit} (h : Restores r) :
    Restores (Run.catchingReturn r) := by
  intro m
  have hm := h m
  rw [Run.catchingReturn]
  split <;> rename_i hr <;> rwa [hr] at hm

theorem restores_lookup (name : Token) : Restores (Run.lookup name) := by
  intro m
  rw [Run.lookup]
  split <;> rfl

theorem restores_assign (name : Token) (v : Value) : Restores (Run.assign name v) := by
  intro m
  rw [Run.assign]
  split <;> rfl

theorem Restores.iterate {r : Run Bool} (h : Restores r) (passes : Nat) :
    Restores (Run.iterate passes r) := by
  induction passes with
  | zero => exact keeps_throw _
  | succ passes ih =>
    intro m
    have hm := h m
    unfold Run.iterate
    split
    · rename_i m' hr
      rw [ih m', ← hm, hr, endState]
    · rename_i m' hr
      rwa [hr] at hm
    · rename_i e m' hr
      rwa [hr] at hm

/-- All constructs hand on that the place is put back, also those that catch an interrupt. -/
theorem handedOn_restores : HandedOn Restores Restores where
  ofEvaluation hr := hr
  pure := keeps_pure
  bind := Keeps.bind
  sequence := Keeps.bind
  overflow := keeps_throw _
  broken _ := keeps_throw _
  fail _ _ := keeps_throw _
  get := keeps_get
  printLine _ := keeps_modify fun _ => rfl
  newIdentity := keeps_modifyGet fun _ => rfl
  note _ := keeps_modify fun _ => rfl
  lookup := restores_lookup
  assign := restores_assign
  define _ _ := keeps_modify fun _ => rfl
  newScope _ _ := keeps_modifyGet fun _ => rfl
  within scope hr := hr.within scope
  counted t hr := Restores.counted (hr.adopting t)
  catchingReturn hr := hr.catchingReturn
  iterate passes hr := hr.iterate passes
  returning _ hr :=
    keeps_get.bind fun _ => .ite (keeps_throw _) (hr.bind fun _ => keeps_throw _)

end Run

/-- Every level of the engine puts the place back. -/
theorem Engine.ofDepth_restores (host : Host) (depth : Nat) :
    (Engine.ofDepth host depth).Has Run.Restores Run.Restores :=
  Run.handedOn_restores.ofDepth host depth

theorem Run.restores_executeAll (host : Host) (ns : List Node) :
    Run.Restores (Run.executeAll host ns) :=
  Run.handedOn_restores.executeAll (Engine.ofDepth_restores host host.depth) ns

/-! ### Sessions -/

namespace Session

/-- Where the machine of a session stands. -/
def place (s : Session) : Place := s.machine.place

/-- What may be done in a session: to run a program, to run an interactive entry, and to forget
that anything was wrong with a text. -/
inductive Order
  | program (source : String)
  | entry (text : String)
  | forget
  deriving DecidableEq, Repr, Inhabited

/-- What an order does. -/
def Order.act (host : Host) : Order → Act Unit
  | program source => run host source
  | entry text => do let _ ← enter host text
  | forget => modify fun s => { s with reporter := s.reporter.reset }

/-- The session in which a sequence of orders ends, whether or not some of them were broken
off. -/
def obey (host : Host) (orders : List Order) (s : Session) : Session :=
  orders.foldl (fun s order => endState (order.act host s)) s

variable {α : Type} (host : Host)

theorem keeps_step {r : Run α} (h : Run.Restores r) : Keeps place (step r) := by
  intro s
  have hs := h s.machine
  rw [step]
  split <;> rename_i hr <;> rw [hr] at hs <;> exact hs

theorem keeps_guarded {act : Act α} (h : Keeps place act) : Keeps place (guarded act) := by
  intro s
  have hs := h s
  rw [guarded]
  split <;> rename_i hr <;> rw [hr] at hs <;> exact hs

theorem keeps_interpret (statements : List Node) : Keeps place (interpret host statements) := by
  intro s
  have hs := keeps_step (Run.restores_executeAll host statements) s
  rw [interpret]
  split <;> rename_i hr <;> rw [hr] at hs <;> exact hs

theorem machine_step (r : Run α) (s : Session) :
    (endState (step r s)).machine = endState (r s.machine) := by
  rw [step]
  split <;> rename_i h <;> rw [h] <;> rfl

/-- Reporting does not touch the machine. -/
theorem machine_guarded (act : Act α) (s : Session) :
    (endState (guarded act s)).machine = (endState (act s)).machine := by
  rw [guarded]
  split <;> rename_i h <;> rw [h] <;> rfl

theorem machine_interpret (ns : List Node) (s : Session) :
    (endState (interpret host ns s)).machine = endState (Run.executeAll host ns s.machine) := by
  rw [← machine_step, interpret]
  split <;> rename_i h <;> rw [h] <;> rfl

/-- A relation of machines as one of sessions. -/
def OnMachines (R : Machine → Machine → Prop) (s s' : Session) : Prop := R s.machine s'.machine

section OnMachines

variable {R : Machine → Machine → Prop}

theorem leads_step {r : Run α} (h : Leads R r) : Leads (OnMachines R) (step r) := by
  intro s
  rw [OnMachines, machine_step]
  exact h s.machine

theorem leads_guarded {act : Act α} (h : Leads (OnMachines R) act) :
    Leads (OnMachines R) (guarded act) := by
  intro s
  rw [OnMachines, machine_guarded]
  exact h s

theorem leads_interpret {ns : List Node} (h : Leads R (Run.executeAll host ns)) :
    Leads (OnMachines R) (interpret host ns) := by
  intro s
  rw [OnMachines, machine_interpret]
  exact h s.machine

end OnMachines

theorem handedOn_keeps_place : HandedOn host (Keeps place) where
  pure := keeps_pure
  bind := Keeps.bind
  get := keeps_get
  report _ := keeps_modify fun _ => rfl
  guarded := keeps_guarded
  interpret := keeps_interpret host
  evaluate n := keeps_step ((Engine.ofDepth_restores host host.depth).evaluate n)

theorem Order.keeps_act (order : Order) : Keeps place (order.act host) := by
  cases order with
  | program source => exact (handedOn_keeps_place host).run source
  | entry text => exact ((handedOn_keeps_place host).enter text).bind fun _ => keeps_pure _
  | forget => exact keeps_modify fun _ => rfl

section Obey

variable {R : Machine → Machine → Prop} (hrefl : ∀ m, R m m)
  (htrans : ∀ {m m' m''}, R m m' → R m' m'' → R m m'')
  (hprogram : ∀ source, Leads R (Run.executeAll host (Program.ofText source).statements))
  (hentry : ∀ text e, (Fragment.ofText text).expression = some e → Leads R (Run.evaluate host e))

include hrefl htrans hprogram

theorem leads_run (source : String) : Leads (OnMachines R) (run host source) := by
  have hinterpret := leads_guarded (leads_interpret host (hprogram source))
  refine .bind htrans (fun s => hrefl s.machine) fun _ => ?_
  refine .bind htrans (fun s => hrefl s.machine) fun s => ?_
  split
  · exact fun s => hrefl s.machine
  · refine .bind htrans hinterpret fun _ => ?_
    exact fun s => hrefl s.machine

include hentry

theorem leads_enter (text : String) : Leads (OnMachines R) (enter host text) := by
  have hrun : Leads (OnMachines R) (do run host text; return none : Act (Option Value)) := by
    refine .bind htrans (leads_run host hrefl htrans hprogram text) fun _ => ?_
    exact fun s => hrefl s.machine
  rw [enter]
  split
  · exact hrun
  · dsimp only
    split
    · rename_i e he
      split
      · exact leads_guarded (leads_step (hentry text e he))
      · exact hrun
    · exact hrun

/-- What is related to what becomes of it by programs and by entries, as far as these are read from
texts, is related to what becomes of it in a session. -/
theorem leads_obey (orders : List Order) (s : Session) :
    R s.machine (obey host orders s).machine := by
  induction orders generalizing s with
  | nil => exact hrefl s.machine
  | cons order orders ih =>
    refine htrans ?_ (ih _)
    cases order with
    | program source => exact leads_run host hrefl htrans hprogram source s
    | entry text =>
      have hact : Leads (OnMachines R) (Order.act host (.entry text)) := by
        refine .bind htrans (leads_enter host hrefl htrans hprogram hentry text) fun _ => ?_
        exact fun s => hrefl s.machine
      exact hact s
    | forget => exact hrefl s.machine

end Obey

theorem place_obey (orders : List Order) (s : Session) : (obey host orders s).place = s.place := by
  induction orders generalizing s with
  | nil => rfl
  | cons order orders ih => exact (ih _).trans (order.keeps_act host s)

end Session

/-- Every operation puts back the scope in effect and the number of active calls, whether it ends
with a value, with a value given back by a function, with a runtime error raised at any depth or
with an overflow at any level of nesting. So a session in which any programs and entries have
been run stands at the global scope with no active call. -/
theorem place_restored (host : Host) :
    (∀ n, Keeps Machine.place (Run.evaluate host n)) ∧
    (∀ n, Keeps Machine.place (Run.execute host n)) ∧
    (∀ scope ns, Keeps Machine.place (Run.within scope (Run.executeAll host ns))) ∧
    (∀ callee arguments paren,
      Keeps Machine.place (Engine.call host host.engine callee arguments paren)) ∧
    (∀ statements, Keeps Session.place (Session.interpret host statements)) ∧
    (∀ source, Keeps Session.place (Session.run host source)) ∧
    (∀ text, Keeps Session.place (Session.enter host text)) ∧
    (∀ reporter settings orders,
      (Session.obey host orders (.fresh host reporter settings)).place
        = ⟨Machine.globalScope, 0⟩) := by
  have h := Engine.ofDepth_restores host host.depth
  refine ⟨h.evaluate, h.execute, fun scope ns => (Run.restores_executeAll host ns).within scope,
    Run.handedOn_restores.call h host, Session.keeps_interpret host,
    (Session.handedOn_keeps_place host).run, (Session.handedOn_keeps_place host).enter, ?_⟩
  intro reporter settings orders
  rw [Session.place_obey]
  exact Machine.place_fresh host.natives

end Lox
