import Lox.Proofs.Execution.Simulation
import Mathlib.Order.CompleteBooleanAlgebra
import Mathlib.Order.CompletePartialOrder

/-!
# A run beside itself

An invariant of the store is a comparison of a run with itself: nothing corresponds but what is the
same, and stores are alike if they are equal and have the property. The same comparison of two
runs from different places says that a step does not depend on where it is made.

## Main definitions

* `Invariant`: a property of stores, with the nodes and causes it goes with.
* `Invariant.simulation`: the comparison of a run with itself.
* `Invariant.Kept`: the steps of the machine keep the property.

## Main results

* `Invariant.Kept.lawful`: then all that is made of these steps keeps it.
* `Invariant.Kept.evaluate`, `Invariant.Kept.execute`, `Invariant.Kept.block`: so do expressions,
  statements and blocks.
-/

namespace Lox

/-- Nothing corresponds but what is the same. Causes, expressions and statements have to be of a
given sort. -/
def Likeness.diagonal (cause : Cause → Prop) (expression statement : Node → Prop) :
    Likeness Unit where
  chain _ := Eq
  identity _ := Eq
  spelling := Eq
  blame := Eq
  cause c c' := c = c' ∧ cause c
  expression _ n n' := n = n' ∧ expression n
  statement _ n n' := n = n' ∧ statement n

theorem Likeness.diagonal_discrete (cause : Cause → Prop) (expression statement : Node → Prop) :
    (Likeness.diagonal cause expression statement).Discrete where
  chain h := h
  identity h := h
  blame h := h
  cause h := h.1
  statement h := h.1

theorem Likeness.diagonal_faithful (cause : Cause → Prop) (expression statement : Node → Prop) :
    (Likeness.diagonal cause expression statement).Faithful :=
  .ofEq id id

/-- A property of stores, with the causes and nodes that occur, the chains in whose innermost scopes
names may be defined, and whether overflows are left out of account. -/
structure Invariant where
  cause : Cause → Prop := fun _ => True
  expression : Node → Prop := fun _ => True
  statement : Node → Prop := fun _ => True
  home : Chain → Prop
  store : Store → Prop
  lax : Prop

namespace Invariant

variable (I : Invariant)

/-- The comparison of a run with itself. -/
def simulation : Simulation Unit where
  toLikeness := .diagonal I.cause I.expression I.statement
  home _ c c' := c = c' ∧ I.home c
  store _ s s' := s = s' ∧ I.store s
  lax := I.lax

/-- A value whose parts occur. -/
def Holds (v : Value) : Prop := I.simulation.Values () v v

/-- A table whose values occur. -/
def HoldsAll (t : Table) : Prop := ∀ b ∈ t, I.Holds b.2

/-- The steps of the machine keep the property. -/
structure Kept : Prop where
  expressions {n : Node} : I.expression n → I.simulation.Expressions () n n
  statements {n : Node} : I.statement n → I.simulation.Statements () n n
  cause {c : Cause} : c.isFallback = false → I.cause c
  get? {s : Store} {c : Chain} {a : String} {v : Value} :
    I.store s → s.scopes.get? c a = some v → I.Holds v
  assign {s : Store} {c : Chain} {a : String} {v : Value} {id : ScopeId} :
    I.store s → s.scopes.owner? c a = some id → I.Holds v → I.store (s.define id a v)
  define {s : Store} {c : Chain} {a : String} {v : Value} :
    I.store s → I.home c → I.Holds v → I.store (s.define c.here a v)
  push {s : Store} {t : Table} : I.store s → I.HoldsAll t → I.store (s.push t)
  home_extend {s : Store} (c : Chain) : I.store s → I.home (c.extend s.scopes.next)
  printLine {s : Store} (text : String) : I.store s → I.store (s.printLine text)
  note {s : Store} (entry : View) : I.store s → I.store (s.note entry)
  identify {s : Store} : I.store s → I.store s.identify

variable {I}

theorem holds_iff {v v' : Value} : I.simulation.Values () v v' ↔ v = v' ∧ I.Holds v := by
  constructor
  · intro hv
    obtain rfl := (Likeness.diagonal_discrete I.cause I.expression I.statement).values hv
    exact ⟨rfl, hv⟩
  · rintro ⟨rfl, hv⟩
    exact hv

theorem holdsAll_iff {t t' : Table} : I.simulation.Tables () t t' ↔ t = t' ∧ I.HoldsAll t := by
  constructor
  · intro ht
    induction ht with
    | nil => exact ⟨rfl, List.forall_mem_nil _⟩
    | @cons b b' t t' hb _ ih =>
      obtain ⟨a, v⟩ := b
      obtain ⟨a', v'⟩ := b'
      obtain ⟨rfl, hv⟩ := holds_iff.mp hb.2
      obtain rfl : a = a' := hb.1
      obtain ⟨rfl, ht⟩ := ih
      exact ⟨rfl, List.forall_mem_cons.mpr ⟨hv, ht⟩⟩
  · rintro ⟨rfl, ht⟩
    exact List.forall₂_same.mpr fun b hb => ⟨rfl, ht b hb⟩

/-- Without conditions on causes and nodes everything occurs. -/
theorem reflexive (hcause : ∀ c, I.cause c) (hexpression : ∀ n, I.expression n)
    (hstatement : ∀ n, I.statement n) : I.simulation.toLikeness.Reflexive where
  chain _ _ := rfl
  identity _ _ := rfl
  spelling _ := rfl
  blame _ := rfl
  cause c := ⟨rfl, hcause c⟩
  expression _ n := ⟨rfl, hexpression n⟩
  statement _ n := ⟨rfl, hstatement n⟩

/-- What is made of steps that keep the property keeps it. -/
theorem Kept.lawful (h : I.Kept) : I.simulation.Lawful where
  faithful := Likeness.diagonal_faithful I.cause I.expression I.statement
  likeness_mono _ := ⟨id, id, id, id⟩
  home_mono _ := id
  chain_of_home h := h.1
  expressions := by
    rintro _ n _ ⟨rfl, hn⟩
    exact h.expressions hn
  statements := by
    rintro _ n _ ⟨rfl, hn⟩
    exact h.statements hn
  blame_self _ := rfl
  cause_self hc _ := ⟨rfl, h.cause hc⟩
  cause_undefined ha := ⟨congrArg _ ha, h.cause rfl⟩
  get? := by
    rintro _ s _ c _ a _ ⟨rfl, hs⟩ rfl rfl
    cases hv : s.scopes.get? c a with
    | none => exact .none
    | some v => exact .some (h.get? hs hv)
  assign := by
    rintro _ s _ c _ a _ v v' ⟨rfl, hs⟩ rfl rfl hv
    obtain ⟨rfl, hv⟩ := holds_iff.mp hv
    cases hid : s.scopes.owner? c a with
    | none => exact .none
    | some id => exact .some ⟨rfl, h.assign hs hid hv⟩
  define := by
    rintro _ s _ c _ a _ v v' ⟨rfl, hs⟩ ⟨rfl, hc⟩ rfl hv
    obtain ⟨rfl, hv⟩ := holds_iff.mp hv
    exact ⟨rfl, h.define hs hc hv⟩
  push := by
    rintro _ s _ c _ t t' ⟨rfl, hs⟩ rfl ht
    obtain ⟨rfl, hall⟩ := holdsAll_iff.mp ht
    exact ⟨(), le_rfl, ⟨rfl, h.push hs hall⟩, rfl, h.home_extend c hs⟩
  printLine := by
    rintro _ s _ text ⟨rfl, hs⟩
    exact ⟨rfl, h.printLine text hs⟩
  note := by
    rintro _ s _ entry ⟨rfl, hs⟩
    exact ⟨rfl, h.note entry hs⟩
  notes_eq hs := congrArg Store.notes hs.1
  identify := by
    rintro _ s _ ⟨rfl, hs⟩
    exact ⟨(), le_rfl, ⟨rfl, h.identify hs⟩, rfl⟩

/-! ### Expressions and statements -/

theorem store_of_ends {α : Type} {x x' : EStateM.Result Interrupt Machine α} {p p' : Place}
    {Q : Unit → α → α → Prop} (hlax : ¬ I.lax) (h : I.simulation.Ends p p' () Q x x') :
    I.store (endState x).store := by
  cases h with
  | ok _ hs _ => exact hs.2
  | error _ hs _ => exact hs.2
  | left h => exact absurd h hlax
  | right h => exact absurd h hlax

/-- A step that ends like itself keeps the property. -/
theorem store_of_agree {α : Type} {r : Run α} {m : Machine} {Q : Unit → α → α → Prop}
    (hlax : ¬ I.lax) (hr : I.simulation.Agree m.place m.place () Q r r)
    (hm : I.store m.store) : I.store (endState (r m)).store :=
  store_of_ends hlax (hr m.store m.store ⟨rfl, hm⟩)

namespace Kept

variable (h : I.Kept) (hlax : ¬ I.lax) (host : Host) {m : Machine}

include h hlax

theorem evaluate {n : Node} (hn : I.expression n) (hm : I.store m.store) :
    I.store (endState (Run.evaluate host n m)).store :=
  store_of_agree hlax ((h.lawful.ofDepth host (.inr rfl)).evaluate ⟨rfl, hn⟩ ⟨rfl, .rfl⟩) hm

theorem execute {n : Node} (hn : I.statement n) (hm : I.store m.store) (hhome : I.home m.scope) :
    I.store (endState (Run.execute host n m)).store :=
  store_of_agree hlax
    ((h.lawful.ofDepth host (.inr rfl)).execute ⟨rfl, hn⟩ ⟨⟨rfl, hhome⟩, .rfl⟩) hm

/-- A block keeps the property wherever it stands. -/
theorem block {ns : List Node} (hns : ∀ n ∈ ns, I.statement n) (hm : I.store m.store) :
    I.store (endState (Run.execute host (.block ns) m)).store := by
  have hns' : List.Forall₂ (I.simulation.statement ()) ns ns :=
    List.forall₂_same.mpr fun n hn => ⟨rfl, hns n hn⟩
  refine store_of_agree (Q := Simulation.Any) hlax ?_ hm
  rw [Run.execute, Host.engine]
  cases host.depth with
  | zero => exact .throw .overflow
  | succ depth =>
    exact h.lawful.block (h.lawful.ofDepth host (.inr rfl)) host.passes hns' ⟨rfl, .rfl⟩

end Kept

end Invariant

end Lox
