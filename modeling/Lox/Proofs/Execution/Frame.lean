import Lox.Proofs.Execution.Invariant
import Lox.Proofs.Execution.Progress

/-!
# Names that are there and names that are not

Names are never removed from a scope, and a statement adds names to no scope that was there before
but the one it is executed in. Expressions and blocks do not even add to that one: what they define
stands in scopes that they make. So names that are defined inside of a block or a call cannot be
seen from outside, and a name that can be resolved from some scope can be resolved from there ever
after.

## Main definitions

* `Scopes.SameNames`: every scope that was there has the names it had, in the same order.

## Main results

* `Reaches.widens`: no name is missing at any point of a run.
* `names_framed`: where names are added, and that none is removed.
-/

namespace Lox

/-! ### Scopes with the names they had -/

namespace Scopes

/-- Every scope that was there has the names it had, in the same order, but for one that may be
left out. -/
def SameNames (s s' : Scopes) (free : Option ScopeId) : Prop :=
  ∀ id < s.next, free ≠ some id → (s'.table id).names = (s.table id).names

/-- An assignment adds no name. -/
theorem names_assign {s : Scopes} {c : Chain} {a : String} {id : ScopeId}
    (h : s.owner? c a = some id) (v : Value) (id' : ScopeId) :
    ((s.define id a v).table id').names = (s.table id').names := by
  rw [table_define]
  split
  · rename_i hid
    rw [hid.1, Table.names_set, if_pos (owner?_eq_some h)]
  · rfl

namespace SameNames

variable {base s : Scopes} {free : Option ScopeId}

theorem assign (h : base.SameNames s free) {c : Chain} {a : String} {id : ScopeId}
    (howner : s.owner? c a = some id) (v : Value) : base.SameNames (s.define id a v) free :=
  fun id' hid' hfree => (names_assign howner v id').trans (h id' hid' hfree)

/-- A definition adds a name to one scope. -/
theorem define (h : base.SameNames s free) {id : ScopeId} (hid : base.next ≤ id ∨ free = some id)
    (a : String) (v : Value) : base.SameNames (s.define id a v) free := by
  intro id' hid' hfree
  have hne : id' ≠ id := by
    rintro rfl
    exact hid.elim (Nat.not_le_of_lt hid') hfree
  rw [table_define_of_ne hne]
  exact h id' hid' hfree

theorem push (h : base.SameNames s free) (hnext : base.next ≤ s.next) (t : Table) :
    base.SameNames (s.push t) free := by
  intro id' hid' hfree
  rw [table_push_of_ne (Nat.ne_of_lt (Nat.lt_of_lt_of_le hid' hnext))]
  exact h id' hid' hfree

end SameNames

/-- Where no scope is left out, every name is resolved as before from the scopes that were there. -/
theorem SameNames.owner?_eq {s s' : Scopes} (h : s.SameNames s' none) {c : Chain}
    (hc : ∀ id ∈ c.scopes, id < s.next) (a : String) : s'.owner? c a = s.owner? c a := by
  have hlocal (id : ScopeId) (hid : id ∈ c.scopes) :
      (s'.local? id a).isSome = (s.local? id a).isSome := by
    rw [Bool.eq_iff_iff, local?, local?, Table.isSome_get?_iff, Table.isSome_get?_iff,
      h id (hc id hid) (by simp)]
  rw [owner?, owner?]
  clear hc
  generalize c.scopes = ids at hlocal ⊢
  induction ids with
  | nil => rfl
  | cons id ids ih =>
    rw [List.find?_cons, List.find?_cons, hlocal id List.mem_cons_self,
      ih fun id' hid' => hlocal id' (List.mem_cons_of_mem id hid')]

end Scopes

/-! ### Names are never removed -/

/-- Every scope has the names it had in an earlier machine. -/
def Machine.Widens (m m' : Machine) : Prop := m.scopes.Widens m'.scopes

/-- A step after which every scope has the names it had. -/
abbrev Run.Widens {α : Type} (r : Run α) : Prop := Leads Machine.Widens r

/-- No level of the engine removes a name. -/
theorem Engine.ofDepth_widens (host : Host) (depth : Nat) :
    (Engine.ofDepth host depth).Has Run.Widens Run.Widens := by
  have h := Engine.ofDepth_progresses host depth
  exact ⟨fun n m => (h.evaluate n m).names, fun n m => (h.execute n m).names,
    fun f vs m => (h.invoke f vs m).names⟩

/-- No name is missing at any point of a run. -/
theorem Reaches.widens {host : Host} {m₀ m : Machine} {depth : Nat} {t : Task}
    {frames : List Frame} (h : Reaches host m₀ depth t m frames) :
    m₀.scopes.Widens m.scopes :=
  h.precedes.names

/-- No name is removed in a session. -/
theorem Session.widens_obey (host : Host) (orders : List Order) (s : Session) :
    s.machine.Widens (obey host orders s).machine :=
  (Session.precedes_obey host orders s).names

/-! ### Where names are added -/

/-- The scopes that are there in `base` have the names they have there, but for one that may be
left out. Names are defined in new scopes and in that one. -/
def Invariant.framed (base : Scopes) (free : Option ScopeId) : Invariant where
  home c := base.next ≤ c.here ∨ free = some c.here
  store s := base.next ≤ s.scopes.next ∧ base.SameNames s.scopes free
  lax := False

theorem Invariant.framed_reflexive (base : Scopes) (free : Option ScopeId) :
    (Invariant.framed base free).simulation.toLikeness.Reflexive :=
  reflexive (fun _ => trivial) (fun _ => trivial) (fun _ => trivial)

/-- An assignment adds no name, a definition adds one to a scope where this is allowed, and a new
scope is none of those that were there. -/
theorem Invariant.framed_kept (base : Scopes) (free : Option ScopeId) :
    (Invariant.framed base free).Kept where
  expressions _ := (framed_reflexive base free).expressions () _
  statements _ := (framed_reflexive base free).statements () _
  cause _ := trivial
  get? _ _ := (framed_reflexive base free).values () _
  assign := by
    rintro s c a v id ⟨hnext, hnames⟩ howner -
    exact ⟨(Scopes.next_define _ _ _ _).symm ▸ hnext, hnames.assign howner v⟩
  define := by
    rintro s c a v ⟨hnext, hnames⟩ hhome -
    exact ⟨(Scopes.next_define _ _ _ _).symm ▸ hnext, hnames.define hhome a v⟩
  push := by
    rintro s t ⟨hnext, hnames⟩ -
    refine ⟨?_, hnames.push hnext t⟩
    change base.next ≤ (s.scopes.push t).next
    rw [Scopes.next_push]
    exact Nat.le_succ_of_le hnext
  home_extend c hs := .inl hs.1
  printLine _ hs := hs
  note _ hs := hs
  identify hs := hs

/-- Where names are added, from any state and however the execution ends. Expressions and blocks
add a name to no scope that was there before; any other statement does so only to the scope it is
executed in; no name is removed. So a name is resolved from the scopes that were there exactly as
before an expression or a block, and whatever can be resolved goes on to be so: when a statement
has ended, at any point of a run, and after any sequence of runs in a session. -/
theorem names_framed (host : Host) (m : Machine) :
    (∀ n, m.scopes.SameNames (endState (Run.evaluate host n m)).scopes none) ∧
    (∀ ns, m.scopes.SameNames (endState (Run.execute host (.block ns) m)).scopes none) ∧
    (∀ n, m.scopes.SameNames (endState (Run.execute host n m)).scopes (some m.scope.here)) ∧
    (∀ n, m.scopes.Widens (endState (Run.execute host n m)).scopes) ∧
    (∀ c : Chain, (∀ id ∈ c.scopes, id < m.scopes.next) → ∀ name,
      (∀ n, (endState (Run.evaluate host n m)).scopes.owner? c name = m.scopes.owner? c name) ∧
      ∀ ns, (endState (Run.execute host (.block ns) m)).scopes.owner? c name
        = m.scopes.owner? c name) ∧
    (∀ c name, (m.scopes.get? c name).isSome →
      (∀ n, ((endState (Run.execute host n m)).scopes.get? c name).isSome) ∧
      (∀ depth t m' frames, Reaches host m depth t m' frames → (m'.scopes.get? c name).isSome) ∧
      ∀ reporter settings orders,
        ((Session.obey host orders ⟨m, reporter, settings⟩).machine.scopes.get? c name).isSome) := by
  have hbase (free : Option ScopeId) : (Invariant.framed m.scopes free).store m.store :=
    ⟨Nat.le_refl _, fun _ _ _ => rfl⟩
  have hevaluate (n : Node) : m.scopes.SameNames (endState (Run.evaluate host n m)).scopes none :=
    ((Invariant.framed_kept m.scopes none).evaluate id host trivial (hbase none)).2
  have hblock (ns : List Node) :
      m.scopes.SameNames (endState (Run.execute host (.block ns) m)).scopes none :=
    ((Invariant.framed_kept m.scopes none).block id host (fun _ _ => trivial) (hbase none)).2
  have hexecute (n : Node) :
      m.scopes.SameNames (endState (Run.execute host n m)).scopes (some m.scope.here) :=
    ((Invariant.framed_kept m.scopes (some m.scope.here)).execute id host trivial (hbase _)
      (.inr rfl)).2
  have hwidens (n : Node) : m.scopes.Widens (endState (Run.execute host n m)).scopes :=
    (Engine.ofDepth_widens host host.depth).execute n m
  refine ⟨hevaluate, hblock, hexecute, hwidens, fun c hc name => ?_, fun c name hname => ?_⟩
  · exact ⟨fun n => (hevaluate n).owner?_eq hc name, fun ns => (hblock ns).owner?_eq hc name⟩
  · refine ⟨fun n => (hwidens n).isSome_get? hname, ?_, ?_⟩
    · exact fun depth t m' frames h => h.widens.isSome_get? hname
    · intro reporter settings orders
      have hobey := Session.widens_obey host orders ⟨m, reporter, settings⟩
      exact hobey.isSome_get? hname

namespace CalledBack

/-- A function that is declared in a block is not seen from outside, whereas the host function
can still be called. -/
theorem names_framed_calledBack :
    (∀ id ∈ Machine.globalScope.scopes, id < (Machine.fresh host.natives).scopes.next) ∧
    ((Machine.fresh host.natives).scopes.get? Machine.globalScope "call").isSome ∧
    (endState (Run.execute host (.block [declaration]) (.fresh host.natives))).scopes.owner?
      Machine.globalScope "f" = none ∧
    ((endState (Run.execute host (.block [declaration]) (.fresh host.natives))).scopes.get?
      Machine.globalScope "call").isSome := by
  obtain ⟨-, -, -, -, hresolved, hstays⟩ := names_framed host (.fresh host.natives)
  have hglobal : ∀ id ∈ Machine.globalScope.scopes, id < (Machine.fresh host.natives).scopes.next :=
    by decide
  have hcall : ((Machine.fresh host.natives).scopes.get? Machine.globalScope "call").isSome := rfl
  have hnone : (Machine.fresh host.natives).scopes.owner? Machine.globalScope "f" = none := rfl
  have hblock := (hresolved Machine.globalScope hglobal "f").2 [declaration]
  have hstill := (hstays Machine.globalScope "call" hcall).1 (.block [declaration])
  exact ⟨hglobal, hcall, hblock.trans hnone, hstill⟩

end CalledBack

end Lox
