import Lox.Proofs.Execution.Simulation
import Mathlib.Order.CompleteBooleanAlgebra
import Mathlib.Order.CompletePartialOrder

/-!
# Two runs in step

Two runs that differ in nothing but tokens, and in trees with such tokens, make the same scopes at
the same time and give out the same identities. Their stores are numbered alike. To compare such
runs it is enough to know that trees that correspond have parts that correspond.

## Main definitions

* `Likeness.Stores`: stores that are numbered alike, with corresponding tables.
* `Simulation.Numbered`: a simulation in which scopes and identities do not differ.
* `Simulation.InStep`: a simulation in which only trees and tokens may differ.

## Main results

* `Simulation.Numbered.steady`, `Simulation.InStep.steady`: the steps of the machine keep such
  stores.
-/

namespace Lox

namespace Likeness

/-- Stores in which as many scopes have been made and as many identities given out, and the same has
been printed and noted. What the scopes hold corresponds. -/
structure Stores (L : Likeness Unit) (s s' : Store) : Prop where
  nextIdentity : s.nextIdentity = s'.nextIdentity
  output : s.output = s'.output
  notes : s.notes = s'.notes
  next : s.scopes.next = s'.scopes.next
  tables (id : ScopeId) : L.Tables () (s.scopes.table id) (s'.scopes.table id)

/-- Tables in which names correspond only to themselves show the same texts. -/
theorem Tables.map_text {W : Type} {L : Likeness W} {w : W} {t t' : Table}
    (hspelling : ∀ {a a'}, L.spelling a a' → a = a') (h : L.Tables w t t') :
    t.map (fun b => (b.1, b.2.text)) = t'.map fun b => (b.1, b.2.text) := by
  induction h with
  | nil => rfl
  | cons hb _ ih => rw [List.map_cons, List.map_cons, ih, hspelling hb.1, hb.2.text_eq]

namespace Stores

variable {L : Likeness Unit} {s s' : Store}

theorem refl (h : L.Reflexive) (s : Store) : L.Stores s s where
  nextIdentity := rfl
  output := rfl
  notes := rfl
  next := rfl
  tables _ := List.forall₂_same.mpr fun b _ => ⟨h.spelling b.1, h.values () b.2⟩

/-- Before anything is executed there are host functions only. -/
theorem fresh {natives : List Native}
    (h : ∀ native ∈ natives, L.spelling native.name native.name) :
    L.Stores (Machine.fresh natives).store (Machine.fresh natives).store where
  nextIdentity := rfl
  output := rfl
  notes := rfl
  next := rfl
  tables id := by
    have hnatives : L.Tables () (Machine.nativeTable natives) (Machine.nativeTable natives) := by
      refine List.forall₂_same.mpr fun b hb => ?_
      obtain ⟨⟨native, index⟩, hmem, rfl⟩ := List.mem_map.mp hb
      exact ⟨h native (List.fst_mem_of_mem_zipIdx hmem), .native index⟩
    have htable : (Machine.fresh natives).store.scopes = Scopes.empty.push
      (Machine.nativeTable natives) := rfl
    rw [htable, Scopes.table_push]
    split
    · exact hnatives
    · exact .nil

theorem printLine (h : L.Stores s s') (text : String) :
    L.Stores (s.printLine text) (s'.printLine text) where
  nextIdentity := h.nextIdentity
  output := by rw [Store.printLine, Store.printLine, h.output]
  notes := h.notes
  next := h.next
  tables := h.tables

theorem note (h : L.Stores s s') (entry : View) : L.Stores (s.note entry) (s'.note entry) where
  nextIdentity := h.nextIdentity
  output := h.output
  notes := congrArg (· ++ [entry]) h.notes
  next := h.next
  tables := h.tables

theorem identify (h : L.Stores s s') : L.Stores s.identify s'.identify where
  nextIdentity := congrArg (· + 1) h.nextIdentity
  output := h.output
  notes := h.notes
  next := h.next
  tables := h.tables

theorem push (h : L.Stores s s') {t t' : Table} (ht : L.Tables () t t') :
    L.Stores (s.push t) (s'.push t') where
  nextIdentity := h.nextIdentity
  output := h.output
  notes := h.notes
  next := by simpa only [Store.push, Scopes.next_push, Nat.add_right_cancel_iff] using h.next
  tables j := by
    simp only [Store.push, Scopes.table_push, h.next]
    split
    · exact ht
    · exact h.tables j

section Names

variable (hfaithful : L.Faithful)

include hfaithful

theorem define (h : L.Stores s s') (id : ScopeId) {a a' : String} (ha : L.spelling a a')
    {v v' : Value} (hv : L.Values () v v') : L.Stores (s.define id a v) (s'.define id a' v') where
  nextIdentity := h.nextIdentity
  output := h.output
  notes := h.notes
  next := by simpa only [Store.define, Scopes.next_define] using h.next
  tables j := by
    simp only [Store.define, Scopes.table_define, h.next]
    split
    · exact (h.tables id).set hfaithful ha hv
    · exact h.tables j

theorem local? (h : L.Stores s s') {id id' : ScopeId} (hid : id = id') {a a' : String}
    (ha : L.spelling a a') :
    Option.Rel (L.Values ()) (s.scopes.local? id a) (s'.scopes.local? id' a') :=
  hid ▸ (h.tables id).get? hfaithful ha

/-- A name belongs to the same scope of a chain. -/
theorem owner? (h : L.Stores s s') (c : Chain) {a a' : String} (ha : L.spelling a a') :
    Option.Rel Eq (s.scopes.owner? c a) (s'.scopes.owner? c a') :=
  Scopes.owner?_rel (fun hid => h.local? hfaithful hid ha) (List.forall₂_same.mpr fun _ _ => rfl)

theorem get? (h : L.Stores s s') (c : Chain) {a a' : String} (ha : L.spelling a a') :
    Option.Rel (L.Values ()) (s.scopes.get? c a) (s'.scopes.get? c a') :=
  Scopes.get?_rel_of_owner? (fun hid => h.local? hfaithful hid ha) (h.owner? hfaithful c ha)

end Names

end Stores

end Likeness

namespace Simulation

/-- A simulation in which scopes and identities are the same on both sides. Trees, tokens, names and
causes of failures may differ. -/
structure Numbered (R : Simulation Unit) : Prop where
  chain {c c' : Chain} : R.chain () c c' ↔ c = c'
  home {c c' : Chain} : R.home () c c' ↔ c = c'
  identity {i i' : Nat} : R.identity () i i' ↔ i = i'
  store {s s' : Store} : R.store () s s' ↔ R.toLikeness.Stores s s'

/-- The steps of the machine keep stores in step if no name corresponds to two, trees that
correspond are of one form, with parts that correspond, and what does not depend on names is the
same on both sides. -/
theorem Numbered.steady {R : Simulation Unit} (h : R.Numbered)
    (hspelling : ∀ {a a' b b'}, R.spelling a a' → R.spelling b b' → (a = b ↔ a' = b'))
    (hexpressions : ∀ {n n'}, R.expression () n n' → R.Expressions () n n')
    (hstatements : ∀ {n n'}, R.statement () n n' → R.Statements () n n')
    (hcause : ∀ {c}, c.isFallback = false → c.isNaming = false → R.cause c c)
    (hundefined : ∀ {a a'}, R.spelling a a' →
      R.cause (.undefinedVariable a) (.undefinedVariable a')) : R.Steady :=
  have hfaithful : R.toLikeness.Faithful :=
    ⟨hspelling, fun hi hj => by rw [h.identity.mp hi, h.identity.mp hj]⟩
  { faithful := hfaithful
    likeness_mono _ := ⟨id, id, id, id⟩
    home_mono _ := id
    chain_of_home hc := h.chain.mpr (h.home.mp hc)
    expressions := hexpressions
    statements := hstatements
    cause_self := hcause
    cause_undefined := hundefined
    get? {_ _ _ c c' _ _} hs hc ha := by
      obtain rfl := h.chain.mp hc
      exact (h.store.mp hs).get? hfaithful c ha
    assign {_ s s' c c' a a' _ _} hs hc ha hv := by
      obtain rfl := h.chain.mp hc
      have howner := (h.store.mp hs).owner? hfaithful c ha
      generalize s.scopes.owner? c a = o at howner ⊢
      generalize s'.scopes.owner? c a' = o' at howner ⊢
      cases howner with
      | none => exact .none
      | some hid => exact hid ▸ .some (h.store.mpr ((h.store.mp hs).define hfaithful _ ha hv))
    define {_ _ _ c c' _ _ _ _} hs hc ha hv := by
      obtain rfl := h.home.mp hc
      exact h.store.mpr ((h.store.mp hs).define hfaithful _ ha hv)
    push {_ s s' c c' _ _} hs hc ht := by
      obtain rfl := h.chain.mp hc
      have hstores := h.store.mp hs
      exact ⟨(), le_rfl, h.store.mpr (hstores.push ht), h.home.mpr (congrArg c.extend hstores.next)⟩
    printLine text hs := h.store.mpr ((h.store.mp hs).printLine text)
    note entry hs := h.store.mpr ((h.store.mp hs).note entry)
    notes_eq hs := (h.store.mp hs).notes
    identify hs :=
      ⟨(), le_rfl, h.store.mpr (h.store.mp hs).identify,
        h.identity.mpr (h.store.mp hs).nextIdentity⟩ }

/-- A simulation in which scopes, identities, names and causes of failures are the same on both
sides. Only trees and tokens may differ. -/
structure InStep (R : Simulation Unit) : Prop where
  chain {c c' : Chain} : R.chain () c c' ↔ c = c'
  home {c c' : Chain} : R.home () c c' ↔ c = c'
  identity {i i' : Nat} : R.identity () i i' ↔ i = i'
  spelling {a a' : String} : R.spelling a a' ↔ a = a'
  cause {c c' : Cause} : R.cause c c' ↔ c = c'
  store {s s' : Store} : R.store () s s' ↔ R.toLikeness.Stores s s'

/-- The steps of the machine keep stores in step if trees that correspond are of one form, with
parts that correspond. -/
theorem InStep.steady {R : Simulation Unit} (h : R.InStep)
    (hexpressions : ∀ {n n'}, R.expression () n n' → R.Expressions () n n')
    (hstatements : ∀ {n n'}, R.statement () n n' → R.Statements () n n') : R.Steady :=
  have hnumbered : R.Numbered := ⟨h.chain, h.home, h.identity, h.store⟩
  hnumbered.steady (fun ha hb => by rw [h.spelling.mp ha, h.spelling.mp hb]) hexpressions
    hstatements (fun _ _ => h.cause.mpr rfl) fun ha => h.cause.mpr (congrArg _ (h.spelling.mp ha))

end Simulation

end Lox
