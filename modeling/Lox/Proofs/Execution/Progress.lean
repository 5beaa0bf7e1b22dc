import Lox.Proofs.Execution.Return

/-!
# What a run only adds to

A run takes nothing away. Scopes and identities are given out one after the other and never taken
back, and a name that is defined in a scope stays there. So the machines that are found one after
the other in a run are ordered, and a machine that comes later can be told from an earlier one by
the scopes, identities and names it has gained.

Where a machine stands, and the values that its variables have, play no part in this.

## Main definitions

* `Table.names`: the names of a scope, in the order of definition.
* `Scopes.Widens`: every scope has the names it had, and maybe further ones behind them.
* `Machine.Precedes`: nothing has been taken away since.

## Main results

* `Engine.ofDepth_progresses`: no level of the engine takes anything away.
* `Engine.Starts.precedes`, `Reaches.precedes`: nor is anything missing at any point of a run.
* `Session.precedes_obey`: nor after any sequence of runs in a session.
-/

namespace Lox

/-! ### Names of a scope -/

namespace Table

/-- The names of a table, in the order of definition. -/
def names (t : Table) : List String := t.map Prod.fst

theorem names_set (t : Table) (a : String) (v : Value) :
    (t.set a v).names = if a ∈ t.names then t.names else t.names ++ [a] := by
  fun_induction Table.set t a v <;> grind [names]

theorem mem_names_set {t : Table} {a b : String} {v : Value} :
    b ∈ (t.set a v).names ↔ b = a ∨ b ∈ t.names := by
  rw [names_set]
  split <;> grind

theorem prefix_names_set (t : Table) (a : String) (v : Value) : t.names <+: (t.set a v).names := by
  rw [names_set]
  split
  · exact List.prefix_refl _
  · exact List.prefix_append _ _

theorem isSome_get?_iff {t : Table} {a : String} : (t.get? a).isSome ↔ a ∈ t.names := by
  induction t with
  | nil => simp [get?, names]
  | cons b t ih =>
    obtain ⟨n, v⟩ := b
    by_cases hn : a = n
    · simp [get?, names, hn]
    · rw [names] at ih ⊢
      rw [get?] at ih ⊢
      rw [List.lookup_cons, beq_false_of_ne hn, ih, List.map_cons, List.mem_cons]
      exact (or_iff_right hn).symm

end Table

namespace Scopes

theorem owner?_eq_some {s : Scopes} {c : Chain} {a : String} {id : ScopeId}
    (h : s.owner? c a = some id) : a ∈ (s.table id).names := by
  have hlocal := List.find?_some (p := fun id => (s.local? id a).isSome) h
  exact Table.isSome_get?_iff.mp hlocal

/-- A name has a value exactly where it belongs to some scope. -/
theorem isSome_get?_iff {s : Scopes} {c : Chain} {a : String} :
    (s.get? c a).isSome ↔ ∃ id ∈ c.scopes, a ∈ (s.table id).names := by
  simp only [get?, List.findSome?_isSome_iff, local?, Table.isSome_get?_iff]

/-- Every scope has the names it had, and maybe further ones behind them. -/
def Widens (s s' : Scopes) : Prop := ∀ id, (s.table id).names <+: (s'.table id).names

namespace Widens

variable {s s' s'' : Scopes}

theorem refl (s : Scopes) : s.Widens s := fun _ => List.prefix_refl _

theorem trans (h : s.Widens s') (h' : s'.Widens s'') : s.Widens s'' :=
  fun id => (h id).trans (h' id)

theorem define (s : Scopes) (id : ScopeId) (a : String) (v : Value) :
    s.Widens (s.define id a v) := by
  intro id'
  rw [table_define]
  split
  · rename_i hid
    rw [hid.1]
    exact Table.prefix_names_set _ _ _
  · exact List.prefix_refl _

theorem push (s : Scopes) (t : Table) : s.Widens (s.push t) := by
  intro id
  rw [table_push]
  split
  · rename_i hid
    rw [table_of_next_le (Nat.le_of_eq hid.symm)]
    exact List.nil_prefix
  · exact List.prefix_refl _

/-- A name that can be resolved goes on to be so. -/
theorem isSome_get? (h : s.Widens s') {c : Chain} {a : String} (ha : (s.get? c a).isSome) :
    (s'.get? c a).isSome := by
  obtain ⟨id, hid, ha⟩ := isSome_get?_iff.mp ha
  exact isSome_get?_iff.mpr ⟨id, hid, (h id).subset ha⟩

end Widens

end Scopes

/-! ### Nothing is taken away -/

/-- Nothing has been taken away from a machine since: all scopes and identities that had been given
out still are, and every scope has the names it had. -/
structure Machine.Precedes (m m' : Machine) : Prop where
  scopes : m.scopes.next ≤ m'.scopes.next
  identities : m.nextIdentity ≤ m'.nextIdentity
  names : m.scopes.Widens m'.scopes

namespace Machine.Precedes

variable {m m' m'' : Machine}

theorem refl (m : Machine) : m.Precedes m := ⟨Nat.le_refl _, Nat.le_refl _, .refl _⟩

theorem trans (h : m.Precedes m') (h' : m'.Precedes m'') : m.Precedes m'' :=
  ⟨Nat.le_trans h.scopes h'.scopes, Nat.le_trans h.identities h'.identities, h.names.trans h'.names⟩

/-- Values that variables are given, and where a machine stands, make no difference. -/
theorem define (m : Machine) (id : ScopeId) (a : String) (v : Value) :
    m.Precedes { m with scopes := m.scopes.define id a v } :=
  ⟨Nat.le_of_eq (Scopes.next_define _ _ _ _).symm, Nat.le_refl _, .define _ _ _ _⟩

theorem push (m : Machine) (t : Table) : m.Precedes { m with scopes := m.scopes.push t } :=
  ⟨by simp, Nat.le_refl _, .push _ _⟩

theorem identify (m : Machine) : m.Precedes { m with nextIdentity := m.nextIdentity + 1 } :=
  ⟨Nat.le_refl _, Nat.le_succ _, .refl _⟩

theorem inScope (m : Machine) (c : Chain) (t : Table) : m.Precedes (m.inScope c t) :=
  ⟨(push m t).scopes, (push m t).identities, (push m t).names⟩

/-- The scopes and identities of two machines are all that counts. -/
theorem ofEq (hscopes : m'.scopes = m.scopes) (hidentity : m'.nextIdentity = m.nextIdentity) :
    m.Precedes m' :=
  ⟨Nat.le_of_eq (by rw [hscopes]), Nat.le_of_eq hidentity.symm, by rw [hscopes]; exact .refl _⟩

end Machine.Precedes

/-- A step that takes nothing away, however it ends. -/
abbrev Run.Progresses {α : Type} (r : Run α) : Prop := Leads Machine.Precedes r

namespace Run

variable {α β : Type}

theorem Progresses.ofEq {r : Run α} (hscopes : ∀ m, (endState (r m)).scopes = m.scopes)
    (hidentity : ∀ m, (endState (r m)).nextIdentity = m.nextIdentity) : Progresses r :=
  fun m => .ofEq (hscopes m) (hidentity m)

theorem Progresses.bind {r : Run α} {q : α → Run β} (hr : Progresses r)
    (hq : ∀ a, Progresses (q a)) : Progresses (r >>= q) :=
  Leads.bind Machine.Precedes.trans hr hq

theorem Progresses.adopting {r : Run α} (h : Progresses r) (t : Token) :
    Progresses (Run.adopting t r) := by
  intro m
  have hm := h m
  rw [Run.adopting]
  split
  · rename_i hr
    rwa [hr] at hm
  · exact hm

theorem Progresses.within {r : Run α} (h : Progresses r) (c : Chain) :
    Progresses (Run.within c r) := by
  intro m
  have hm := h { m with scope := c }
  rw [Run.within]
  split <;> rename_i hr <;> rw [hr] at hm <;> exact ⟨hm.scopes, hm.identities, hm.names⟩

theorem Progresses.counted {r : Run α} (h : Progresses r) : Progresses (Run.counted r) := by
  intro m
  have hm := h { m with callDepth := m.callDepth + 1 }
  rw [Run.counted]
  split <;> rename_i hr <;> rw [hr] at hm <;> exact ⟨hm.scopes, hm.identities, hm.names⟩

theorem Progresses.catchingReturn {r : Run Unit} (h : Progresses r) :
    Progresses (Run.catchingReturn r) := by
  intro m
  have hm := h m
  rw [Run.catchingReturn]
  split <;> rename_i hr <;> rwa [hr] at hm

theorem Progresses.iterate {r : Run Bool} (h : Progresses r) (passes : Nat) :
    Progresses (Run.iterate passes r) := by
  induction passes with
  | zero => exact fun m => .refl m
  | succ passes ih =>
    intro m
    have hm := h m
    cases hr : r m with
    | ok again m' =>
      rw [hr] at hm
      cases again with
      | true => exact iterate_of_again passes hr ▸ hm.trans (ih m')
      | false => exact iterate_of_done passes hr ▸ hm
    | error e m' =>
      rw [hr] at hm
      exact iterate_of_error passes hr ▸ hm

/-- All constructs hand on that nothing is taken away. -/
theorem handedOn_progresses : HandedOn Progresses Progresses where
  ofEvaluation h := h
  pure _ m := .refl m
  bind := .bind
  sequence := .bind
  overflow m := .refl m
  broken _ m := .refl m
  fail _ _ m := .refl m
  get m := .refl m
  printLine _ m := .ofEq rfl rfl
  newIdentity m := .identify m
  note _ m := .ofEq rfl rfl
  lookup name :=
    .ofEq (fun m => by rw [lookup]; split <;> rfl) fun m => by rw [lookup]; split <;> rfl
  assign name v m := by
    rw [assign]
    split
    · exact .define _ _ _ _
    · exact .refl _
  define name v m := .define _ _ _ _
  newScope around t m := .push m t
  within scope h := h.within scope
  counted t h := (h.adopting t).counted
  catchingReturn h := h.catchingReturn
  iterate passes h := h.iterate passes
  returning keyword h :=
    .bind (fun m => .refl m) fun m => by
      split
      · exact fun m => .refl m
      · exact .bind h fun _ m => .refl m

end Run

/-- No level of the engine takes anything away. -/
theorem Engine.ofDepth_progresses (host : Host) (depth : Nat) :
    (Engine.ofDepth host depth).Has Run.Progresses Run.Progresses :=
  Run.handedOn_progresses.ofDepth host depth

theorem Run.progresses_executeAll (host : Host) (ns : List Node) :
    Run.Progresses (Run.executeAll host ns) :=
  Run.handedOn_progresses.executeAll (Engine.ofDepth_progresses host host.depth) ns

/-! ### The points of a run -/

theorem Passed.precedes {pass : Run Bool} {k : Nat} {m m' : Machine} (h : Passed pass k m m')
    (hpass : Run.Progresses pass) : m.Precedes m' := by
  induction h with
  | none => exact .refl _
  | another _ hp ih => exact ih.trans (hpass.of_ok hp)

namespace Engine

variable {host : Host} {below : Engine} {t t' : Task} {m m' : Machine}

theorem CallsBack.precedes {given : List Answer} {action : Action} {f : Value} {vs : List Value}
    (h : CallsBack below given action m f vs m') (hb : below.Has Run.Progresses Run.Progresses) :
    m.Precedes m' :=
  h.leads .trans Run.handedOn_progresses hb

/-- The tasks that come before a task take nothing away. -/
theorem Starts.precedes (h : Starts host below t m t' m')
    (hb : below.Has Run.Progresses Run.Progresses) : m.Precedes m' := by
  have hall := Run.handedOn_progresses.executeAll hb
  have hpass := Run.handedOn_progresses.pass hb
  have harguments := Run.handedOn_progresses.evaluateAll hb
  cases h with
  | right h | logicalRight h _ | chosen h | thenBranch h _ | elseBranch h _ =>
    exact (hb.evaluate _).of_ok h
  | argument _ hc _ ha => exact ((hb.evaluate _).of_ok hc).trans ((harguments _).of_ok ha)
  | call hc _ ha _ =>
    have hcallee := (hb.evaluate _).of_ok hc
    -- One more active call makes no difference.
    exact (hcallee.trans ((harguments _).of_ok ha)).trans (.ofEq rfl rfl)
  | inBlock _ h | body _ _ h => exact (Machine.Precedes.inScope _ _ _).trans ((hall _).of_ok h)
  | loopCondition h _ => exact h.precedes (hpass _ _)
  | loopBody h _ hc _ => exact (h.precedes (hpass _ _)).trans ((hb.evaluate _).of_ok hc)
  | callback _ h => exact h.precedes hb
  | _ => exact .refl _

end Engine

/-- Nothing is missing at any point of a run. -/
theorem Reaches.precedes {host : Host} {m₀ m : Machine} {depth : Nat} {t : Task}
    {frames : List Frame} (h : Reaches host m₀ depth t m frames) : m₀.Precedes m := by
  induction h with
  | start hbegin =>
    cases hbegin with
    | evaluate | execute => exact .refl _
    | statement _ _ hbefore => exact (Run.progresses_executeAll host _).of_ok hbefore
  | @inside depth _ _ _ _ _ _ hstarts ih =>
    exact ih.trans (hstarts.precedes (Engine.ofDepth_progresses host depth))

/-- Nothing is taken away in a session. -/
theorem Session.precedes_obey (host : Host) (orders : List Order) (s : Session) :
    s.machine.Precedes (obey host orders s).machine :=
  leads_obey host Machine.Precedes.refl Machine.Precedes.trans
    (fun _ => Run.progresses_executeAll host _)
    (fun _ e _ => (Engine.ofDepth_progresses host host.depth).evaluate e) orders s

end Lox
