import Lox.Proofs.Execution.Frame
import Lox.Proofs.Execution.Locality

/-!
# Scopes that hold nothing

A scope in which no name is ever defined can be left out. Functions that are declared inside it keep
it in their chains, and whatever they look up is looked for in it, but nothing is found there. So a
run that makes such scopes goes on like one that does not: they differ in the numbers of scopes and
in the chains of functions, and no program sees either.

The first run is the one that makes scopes of this sort, which are called hollow here.

## Main definitions

* `Thinning`: which scopes of two runs correspond, and which of the first are hollow.
* `Thinning.Chains`: chains that are the same but for hollow scopes.
* `Machine.Region`: scopes from which no others can be got at.
* `Thinning.EndsAlike`: how two executions end of which the first makes hollow scopes.

## Main results

* `Thinning.lawful`: the steps of the machine keep stores alike.
* `Thinning.inHollow`: a step inside a hollow scope is like one without it.
* `Thinning.exists_endsAlike`: executions that agree cannot be told apart, by what is executed later
  either.
-/

namespace Lox

/-! ### Chains with and without hollow scopes -/

/-- Which scopes of two runs correspond, none to two, and which further scopes of the first hold
nothing. -/
structure Thinning where
  scopes : ScopeId → ScopeId → Prop
  hollow : ScopeId → Prop
  unique : Relator.BiUnique scopes
  apart {id id' : ScopeId} : scopes id id' → ¬ hollow id

namespace Thinning

instance : Preorder Thinning where
  le θ θ' := (∀ id id', θ.scopes id id' → θ'.scopes id id') ∧ ∀ id, θ.hollow id → θ'.hollow id
  le_refl _ := ⟨fun _ _ => id, fun _ => id⟩
  le_trans _ _ _ h h' :=
    ⟨fun _ _ hid => h'.1 _ _ (h.1 _ _ hid), fun _ hid => h'.2 _ (h.2 _ hid)⟩

/-- Scopes one around the other that correspond when the hollow ones are left out. -/
inductive Chains (θ : Thinning) : List ScopeId → List ScopeId → Prop
  | nil : Chains θ [] []
  | keep {id id' : ScopeId} {ids ids' : List ScopeId} :
      θ.scopes id id' → Chains θ ids ids' → Chains θ (id :: ids) (id' :: ids')
  | skip {id : ScopeId} {ids ids' : List ScopeId} :
      θ.hollow id → Chains θ ids ids' → Chains θ (id :: ids) ids'

namespace Chains

variable {θ θ' : Thinning} {ids ids' : List ScopeId}

theorem mono (hθ : θ ≤ θ') (h : θ.Chains ids ids') : θ'.Chains ids ids' := by
  induction h with
  | nil => exact .nil
  | keep hid _ ih => exact .keep (hθ.1 _ _ hid) ih
  | skip hid _ ih => exact .skip (hθ.2 _ hid) ih

theorem same (h : ∀ id ∈ ids, θ.scopes id id) : θ.Chains ids ids := by
  induction ids with
  | nil => exact .nil
  | cons id ids ih =>
    obtain ⟨hid, hids⟩ := List.forall_mem_cons.mp h
    exact .keep hid (ih hids)

end Chains

/-- Everything corresponds that is the same but for the numbers of scopes and for hollow ones in
chains. -/
def likeness : Likeness Thinning where
  chain θ c c' := θ.Chains c.scopes c'.scopes
  identity _ := Eq
  spelling := Eq
  blame := Eq
  cause := Eq
  expression _ := Eq
  statement _ := Eq

theorem likeness_plain : likeness.Plain :=
  ⟨fun _ _ => rfl, fun _ => rfl, fun _ => rfl, fun _ => rfl, fun _ _ => rfl, fun _ _ => rfl⟩

theorem likeness_faithful : likeness.Faithful := .ofEq id id

theorem likeness_mono {θ θ' : Thinning} (h : θ ≤ θ') : likeness.Extends θ θ' :=
  ⟨fun hc => hc.mono h, id, id, id⟩

theorem tables_mono {θ θ' : Thinning} (h : θ ≤ θ') {t t' : Table} (ht : likeness.Tables θ t t') :
    likeness.Tables θ' t t' :=
  ht.imp fun _ _ hb => ⟨hb.1, hb.2.mono (likeness_mono h)⟩

theorem names_eq {θ : Thinning} {t t' : Table} (h : likeness.Tables θ t t') :
    t.names = t'.names := by
  induction h with
  | nil => rfl
  | cons hb _ ih =>
    have hname : _ = _ := hb.1
    rw [Table.names, List.map_cons, hname]
    exact congrArg _ ih

theorem failures_eq {f f' : Failure} (h : likeness.Failures f f') : f = f' := by
  obtain ⟨c, t⟩ := f
  obtain ⟨c', t'⟩ := f'
  obtain rfl : c = c' := h.cause
  have htoken : Option.Rel Eq t t' := h.token
  cases htoken with
  | some ht => rw [ht]
  | none => rfl

/-! ### Stores -/

/-- Stores that are alike but for hollow scopes: scopes that correspond hold what corresponds, those
that are hollow hold nothing, and the same has been printed and noted. -/
structure Stores (θ : Thinning) (s s' : Store) : Prop where
  scopes_lt {id id' : ScopeId} : θ.scopes id id' → id < s.scopes.next ∧ id' < s'.scopes.next
  hollow_lt {id : ScopeId} : θ.hollow id → id < s.scopes.next
  tables {id id' : ScopeId} :
    θ.scopes id id' → likeness.Tables θ (s.scopes.table id) (s'.scopes.table id')
  table_hollow {id : ScopeId} : θ.hollow id → s.scopes.table id = []
  nextIdentity : s.nextIdentity = s'.nextIdentity
  output : s.output = s'.output
  notes : s.notes = s'.notes

namespace Stores

variable {θ : Thinning} {s s' : Store} {ids ids' : List ScopeId}

theorem local? (h : θ.Stores s s') {id id' : ScopeId} (hid : θ.scopes id id') (a : String) :
    Option.Rel (likeness.Values θ) (s.scopes.local? id a) (s'.scopes.local? id' a) :=
  (h.tables hid).get? likeness_faithful rfl

theorem local?_hollow (h : θ.Stores s s') {id : ScopeId} (hid : θ.hollow id) (a : String) :
    s.scopes.local? id a = none := by
  rw [Scopes.local?, h.table_hollow hid]
  rfl

/-- A name is found in corresponding scopes of two chains, since it is not found in hollow ones. -/
theorem owner? (h : θ.Stores s s') {c c' : Chain} (hc : θ.Chains c.scopes c'.scopes) (a : String) :
    Option.Rel θ.scopes (s.scopes.owner? c a) (s'.scopes.owner? c' a) := by
  rw [Scopes.owner?, Scopes.owner?]
  generalize c.scopes = ids at hc ⊢
  generalize c'.scopes = ids' at hc ⊢
  induction hc with
  | nil => exact .none
  | @keep id id' ids ids' hid _ ih =>
    have hfound := h.local? hid a
    rw [List.find?_cons, List.find?_cons]
    generalize s.scopes.local? id a = o at hfound ⊢
    generalize s'.scopes.local? id' a = o' at hfound ⊢
    cases hfound with
    | some _ => exact .some hid
    | none => exact ih
  | skip hid _ ih =>
    -- The search goes on behind a hollow scope, where the other side is already.
    rw [List.find?_cons, h.local?_hollow hid]
    exact ih

theorem get? (h : θ.Stores s s') {c c' : Chain} (hc : θ.Chains c.scopes c'.scopes) (a : String) :
    Option.Rel (likeness.Values θ) (s.scopes.get? c a) (s'.scopes.get? c' a) :=
  Scopes.get?_rel_of_owner? (fun hid => h.local? hid a) (h.owner? hc a)

theorem define (h : θ.Stores s s') {id id' : ScopeId} (hid : θ.scopes id id') (a : String)
    {v v' : Value} (hv : likeness.Values θ v v') :
    θ.Stores (s.define id a v) (s'.define id' a v') where
  scopes_lt hj := by simpa only [Store.define, Scopes.next_define] using h.scopes_lt hj
  hollow_lt hj := by simpa only [Store.define, Scopes.next_define] using h.hollow_lt hj
  tables {j j'} hj := by
    have hlt := h.scopes_lt hid
    have hsame : j = id ↔ j' = id' := Renaming.eq_iff_eq θ.unique hj hid
    simp only [Store.define, Scopes.table_define, hlt.1, hlt.2, and_true, hsame]
    split
    · exact (h.tables hid).set likeness_faithful rfl hv
    · exact h.tables hj
  table_hollow {j} hj := by
    have hne : j ≠ id := by
      rintro rfl
      exact θ.apart hid hj
    exact (Scopes.table_define_of_ne hne _ _ _).trans (h.table_hollow hj)
  nextIdentity := h.nextIdentity
  output := h.output
  notes := h.notes

theorem identify (h : θ.Stores s s') : θ.Stores s.identify s'.identify where
  scopes_lt := h.scopes_lt
  hollow_lt := h.hollow_lt
  tables := h.tables
  table_hollow := h.table_hollow
  nextIdentity := congrArg Nat.succ h.nextIdentity
  output := h.output
  notes := h.notes

theorem printLine (h : θ.Stores s s') (text : String) :
    θ.Stores (s.printLine text) (s'.printLine text) where
  scopes_lt := h.scopes_lt
  hollow_lt := h.hollow_lt
  tables := h.tables
  table_hollow := h.table_hollow
  nextIdentity := h.nextIdentity
  output := by simp only [Store.printLine, h.output]
  notes := h.notes

theorem note (h : θ.Stores s s') (entry : View) : θ.Stores (s.note entry) (s'.note entry) where
  scopes_lt := h.scopes_lt
  hollow_lt := h.hollow_lt
  tables := h.tables
  table_hollow := h.table_hollow
  nextIdentity := h.nextIdentity
  output := h.output
  notes := congrArg (· ++ [entry]) h.notes

end Stores

/-! ### Further scopes -/

section Further

variable {θ : Thinning} {s s' : Store} (h : θ.Stores s s')

/-- The next scopes of both stores correspond as well. -/
def withScope (θ : Thinning) {s s' : Store} (h : θ.Stores s s') : Thinning where
  scopes := Renaming.WithPair θ.scopes s.scopes.next s'.scopes.next
  hollow := θ.hollow
  unique := Renaming.biUnique_withPair θ.unique fun hj =>
    ⟨Nat.ne_of_lt (h.scopes_lt hj).1, Nat.ne_of_lt (h.scopes_lt hj).2⟩
  apart := by
    rintro id id' (hid | ⟨rfl, rfl⟩)
    · exact θ.apart hid
    · exact fun hhollow => Nat.lt_irrefl _ (h.hollow_lt hhollow)

/-- The next scope of the first store is hollow as well. -/
def withHollow (θ : Thinning) {s s' : Store} (h : θ.Stores s s') : Thinning where
  scopes := θ.scopes
  hollow id := θ.hollow id ∨ id = s.scopes.next
  unique := θ.unique
  apart := by
    rintro id id' hid (hhollow | rfl)
    · exact θ.apart hid hhollow
    · exact Nat.lt_irrefl _ (h.scopes_lt hid).1

theorem le_withScope : θ ≤ θ.withScope h := ⟨fun _ _ => .inl, fun _ => id⟩

theorem le_withHollow : θ ≤ θ.withHollow h := ⟨fun _ _ => id, fun _ => .inl⟩

theorem Stores.push {t t' : Table} (ht : likeness.Tables θ t t') :
    (θ.withScope h).Stores (s.push t) (s'.push t') where
  scopes_lt := by
    simp only [Store.push, Scopes.next_push]
    rintro id id' (hid | ⟨rfl, rfl⟩)
    · exact (h.scopes_lt hid).imp Nat.lt_succ_of_lt Nat.lt_succ_of_lt
    · exact ⟨Nat.lt_succ_self _, Nat.lt_succ_self _⟩
  hollow_lt hid := by
    simp only [Store.push, Scopes.next_push]
    exact Nat.lt_succ_of_lt (h.hollow_lt hid)
  tables := by
    simp only [Store.push]
    rintro id id' (hid | ⟨rfl, rfl⟩)
    · have hlt := h.scopes_lt hid
      rw [Scopes.table_push_of_ne (Nat.ne_of_lt hlt.1),
        Scopes.table_push_of_ne (Nat.ne_of_lt hlt.2)]
      exact tables_mono (le_withScope h) (h.tables hid)
    · rw [Scopes.table_push_next, Scopes.table_push_next]
      exact tables_mono (le_withScope h) ht
  table_hollow hid :=
    (Scopes.table_push_of_ne (Nat.ne_of_lt (h.hollow_lt hid)) t).trans (h.table_hollow hid)
  nextIdentity := h.nextIdentity
  output := h.output
  notes := h.notes

/-- A scope of the first run alone is hollow as long as nothing is defined in it. -/
theorem Stores.pushHollow : (θ.withHollow h).Stores (s.push []) s' where
  scopes_lt hid := by
    simp only [Store.push, Scopes.next_push]
    exact (h.scopes_lt hid).imp_left Nat.lt_succ_of_lt
  hollow_lt := by
    simp only [Store.push, Scopes.next_push]
    rintro id (hid | rfl)
    · exact Nat.lt_succ_of_lt (h.hollow_lt hid)
    · exact Nat.lt_succ_self _
  tables {id id'} hid := by
    simp only [Store.push]
    rw [Scopes.table_push_of_ne (Nat.ne_of_lt (h.scopes_lt hid).1)]
    exact tables_mono (le_withHollow h) (h.tables hid)
  table_hollow := by
    simp only [Store.push]
    rintro id (hid | rfl)
    · exact (Scopes.table_push_of_ne (Nat.ne_of_lt (h.hollow_lt hid)) _).trans (h.table_hollow hid)
    · exact Scopes.table_push_next _ _
  nextIdentity := h.nextIdentity
  output := h.output
  notes := h.notes

end Further

end Thinning

/-! ### Regions of a machine -/

/-- Scopes of a machine, those in effect among them, from which no others can be got at. -/
structure Machine.Region (m : Machine) where
  holds : ScopeId → Prop
  lt {id : ScopeId} : holds id → id < m.scopes.next
  inEffect {id : ScopeId} : id ∈ m.scope.scopes → holds id
  captured {id id' : ScopeId} {name : String} {f : Closure} :
    holds id → (name, .function f) ∈ m.scopes.table id → id' ∈ f.scope.scopes → holds id'

namespace Machine

variable {m : Machine}

/-- What can be reached from the scopes in effect. -/
def WellFormed.region (h : m.WellFormed) : m.Region where
  holds := m.Reachable
  lt := h.scopes_lt
  inEffect := .inEffect
  captured := .captured

namespace Region

variable (K : m.Region)

/-- The scopes that were there outside of a region are as they were. -/
structure Spares (s : Scopes) : Prop where
  next_le : m.scopes.next ≤ s.next
  kept {id : ScopeId} : id < m.scopes.next → ¬ K.holds id → s.table id = m.scopes.table id

variable {K} {s : Scopes}

theorem Spares.define (h : K.Spares s) {id : ScopeId} (hid : K.holds id ∨ m.scopes.next ≤ id)
    (a : String) (v : Value) : K.Spares (s.define id a v) where
  next_le := by simpa only [Scopes.next_define] using h.next_le
  kept {j} hj hnot := by
    have hne : j ≠ id := by
      rintro rfl
      exact hid.elim hnot (Nat.not_le_of_lt hj)
    exact (Scopes.table_define_of_ne hne _ _ _).trans (h.kept hj hnot)

theorem Spares.push (h : K.Spares s) (t : Table) : K.Spares (s.push t) where
  next_le := by
    rw [Scopes.next_push]
    exact Nat.le_succ_of_le h.next_le
  kept {j} hj hnot := by
    have hne : j ≠ s.next := Nat.ne_of_lt (Nat.lt_of_lt_of_le hj h.next_le)
    exact (Scopes.table_push_of_ne hne t).trans (h.kept hj hnot)

variable (K)

/-- At first every scope of the region corresponds to itself, and none is hollow. -/
def thinning : Thinning where
  scopes id id' := id = id' ∧ K.holds id
  hollow _ := False
  unique := by
    constructor
    · rintro _ _ _ ⟨rfl, -⟩ ⟨rfl, -⟩
      rfl
    · rintro _ _ _ ⟨rfl, -⟩ ⟨rfl, -⟩
      rfl
  apart _ := id

theorem stores : K.thinning.Stores m.store m.store where
  scopes_lt := by
    rintro id _ ⟨rfl, hid⟩
    exact ⟨K.lt hid, K.lt hid⟩
  hollow_lt := False.elim
  tables := by
    rintro id _ ⟨rfl, hid⟩
    refine List.forall₂_same.mpr fun b hb => ⟨rfl, Thinning.likeness_plain.values _ ?_⟩
    obtain ⟨name, v⟩ := b
    rintro f rfl
    exact .same fun id' hid' => ⟨rfl, K.captured hid hb hid'⟩
  table_hollow := False.elim
  nextIdentity := rfl
  output := rfl
  notes := rfl

end Region

end Machine

namespace Thinning

/-! ### What two runs have done -/

/-- What two runs that began in one machine have done to their stores: scopes of the region still
correspond to themselves, all other pairs and all hollow scopes are new, and what was there outside
of the region is as it was. -/
structure Since {m : Machine} (K : m.Region) (θ : Thinning) (s s' : Store) : Prop where
  scopes_same {id : ScopeId} : K.holds id → θ.scopes id id
  scopes_new {id id' : ScopeId} :
    θ.scopes id id' → id = id' ∧ K.holds id ∨ m.scopes.next ≤ id ∧ m.scopes.next ≤ id'
  hollow_new {id : ScopeId} : θ.hollow id → m.scopes.next ≤ id
  spares : K.Spares s.scopes ∧ K.Spares s'.scopes

variable {m : Machine} {K : m.Region}

namespace Since

variable {θ : Thinning} {s s' : Store}

theorem start (K : m.Region) : Since K K.thinning m.store m.store where
  scopes_same hid := ⟨rfl, hid⟩
  scopes_new := .inl
  hollow_new := False.elim
  spares := ⟨⟨Nat.le_refl _, fun _ _ => rfl⟩, ⟨Nat.le_refl _, fun _ _ => rfl⟩⟩

theorem define (h : Since K θ s s') {id id' : ScopeId} (hid : θ.scopes id id') (a : String)
    (v v' : Value) : Since K θ (s.define id a v) (s'.define id' a v') where
  scopes_same := h.scopes_same
  scopes_new := h.scopes_new
  hollow_new := h.hollow_new
  spares := by
    obtain ⟨rfl, hold⟩ | ⟨hle, hle'⟩ := h.scopes_new hid
    · exact ⟨h.spares.1.define (.inl hold) a v, h.spares.2.define (.inl hold) a v'⟩
    · exact ⟨h.spares.1.define (.inr hle) a v, h.spares.2.define (.inr hle') a v'⟩

theorem push (h : Since K θ s s') (hs : θ.Stores s s') (t t' : Table) :
    Since K (θ.withScope hs) (s.push t) (s'.push t') where
  scopes_same hid := .inl (h.scopes_same hid)
  scopes_new := by
    rintro id id' (hid | ⟨rfl, rfl⟩)
    · exact h.scopes_new hid
    · exact .inr ⟨h.spares.1.next_le, h.spares.2.next_le⟩
  hollow_new := h.hollow_new
  spares := ⟨h.spares.1.push t, h.spares.2.push t'⟩

theorem pushHollow (h : Since K θ s s') (hs : θ.Stores s s') :
    Since K (θ.withHollow hs) (s.push []) s' where
  scopes_same := h.scopes_same
  scopes_new := h.scopes_new
  hollow_new := by
    rintro id (hid | rfl)
    · exact h.hollow_new hid
    · exact h.spares.1.next_le
  spares := ⟨h.spares.1.push [], h.spares.2⟩

end Since

/-! ### The comparison -/

/-- Stores that are alike but for hollow scopes, after two runs that began in one machine. -/
structure Alike (K : m.Region) (θ : Thinning) (s s' : Store) : Prop
  extends Stores θ s s', Since K θ s s'

namespace Alike

variable {θ : Thinning} {s s' : Store}

theorem define (h : Alike K θ s s') {id id' : ScopeId} (hid : θ.scopes id id') (a : String)
    {v v' : Value} (hv : likeness.Values θ v v') :
    Alike K θ (s.define id a v) (s'.define id' a v') :=
  ⟨h.toStores.define hid a hv, h.toSince.define hid a v v'⟩

theorem pushHollow (h : Alike K θ s s') : Alike K (θ.withHollow h.toStores) (s.push []) s' :=
  ⟨h.toStores.pushHollow, h.toSince.pushHollow h.toStores⟩

end Alike

/-- The comparison of two runs that begin in one machine and of which the first makes hollow
scopes. -/
def simulation (K : m.Region) (lax : Prop) : Simulation Thinning where
  toLikeness := likeness
  home θ c c' := θ.scopes c.here c'.here ∧ θ.Chains c.outer c'.outer
  store := Alike K
  lax := lax

/-- The steps of the machine keep stores alike. -/
theorem lawful (K : m.Region) (lax : Prop) : (simulation K lax).Lawful where
  faithful := likeness_faithful
  likeness_mono := likeness_mono
  home_mono hθ hc := ⟨hθ.1 _ _ hc.1, hc.2.mono hθ⟩
  chain_of_home hc := .keep hc.1 hc.2
  expressions := by
    rintro θ n _ rfl
    exact likeness_plain.expressions θ n
  statements := by
    rintro θ n _ rfl
    exact likeness_plain.statements θ n
  blame_self _ := rfl
  cause_self _ _ := rfl
  cause_undefined ha := congrArg _ ha
  get? := by
    rintro θ s s' c c' a _ hs hc rfl
    exact hs.get? hc a
  assign := by
    rintro θ s s' c c' a _ v v' hs hc rfl hv
    have howner := hs.owner? hc a
    generalize s.scopes.owner? c a = o at howner ⊢
    generalize s'.scopes.owner? c' a = o' at howner ⊢
    cases howner with
    | some hid => exact .some (hs.define hid a hv)
    | none => exact .none
  define := by
    rintro θ s s' c c' a _ v v' hs hc rfl hv
    exact hs.define hc.1 a hv
  push {θ s s' c c' t t'} hs hc ht :=
    ⟨θ.withScope hs.toStores, le_withScope hs.toStores,
      ⟨hs.toStores.push ht, hs.toSince.push hs.toStores t t'⟩, .inr ⟨rfl, rfl⟩,
      Chains.mono (le_withScope hs.toStores) hc⟩
  printLine text hs := ⟨hs.toStores.printLine text, { hs.toSince with }⟩
  note entry hs := ⟨hs.toStores.note entry, { hs.toSince with }⟩
  notes_eq hs := hs.notes
  identify {θ s s'} hs :=
    ⟨θ, le_rfl, ⟨hs.toStores.identify, { hs.toSince with }⟩, hs.nextIdentity⟩

variable {lax : Prop} {p p' : Place} {θ : Thinning}

/-- A step inside a hollow scope is like one without it. -/
theorem inHollow {r r' : Run Unit} (hp : (simulation K lax).Readable θ p p')
    (h : ∀ θ' c, θ ≤ θ' → (simulation K lax).Readable θ' { p with scope := c } p' →
      (simulation K lax).Agree { p with scope := c } p' θ' Simulation.Any r r') :
    (simulation K lax).Agree p p' θ Simulation.Any
      (do let scope ← Run.newScope (← get).scope []; Run.within scope r) r' := by
  intro s s' hs
  have hle := le_withHollow hs.toStores
  have hreadable : (simulation K lax).Readable (θ.withHollow hs.toStores)
      { p with scope := p.scope.extend s.scopes.next } p' :=
    ⟨.skip (.inr rfl) (Chains.mono hle hp.chain), hp.calls⟩
  have hinside := Simulation.Agree.withinLeft (h _ _ hle hreadable)
  exact (hinside (s.push []) s' hs.pushHollow).weaken hle

/-! ### Executions that end alike -/

/-- Executions that have come to the same end. If functions have given back values, these
correspond. -/
inductive Completions (θ : Thinning) :
    EStateM.Result Interrupt Machine Unit → EStateM.Result Interrupt Machine Unit → Prop
  | normal {m m' : Machine} : Completions θ (.ok () m) (.ok () m')
  | returned {v v' : Value} {m m' : Machine} :
      likeness.Values θ v v' → Completions θ (.error (.returned v) m) (.error (.returned v') m')
  | failed (f : Failure) {m m' : Machine} :
      Completions θ (.error (.failed f) m) (.error (.failed f) m')
  | overflow {m m' : Machine} : Completions θ (.error .overflow m) (.error .overflow m')
  | unfinished {m m' : Machine} : Completions θ (.error .unfinished m) (.error .unfinished m')
  | broken (fault : Fault) {m m' : Machine} :
      Completions θ (.error (.broken fault) m) (.error (.broken fault) m')

theorem Completions.early {e e' : Interrupt} {m m' : Machine} (he : likeness.Interrupts θ e e') :
    θ.Completions (.error e m) (.error e' m') := by
  cases he with
  | returned hv => exact .returned hv
  | failed hf =>
    obtain rfl := failures_eq hf
    exact .failed _
  | overflow => exact .overflow
  | unfinished => exact .unfinished
  | broken fault => exact .broken fault

variable {x x' : EStateM.Result Interrupt Machine Unit}

theorem exists_of_ends
    (hlax : lax → (∀ m', x ≠ .error .overflow m') ∧ ∀ m', x' ≠ .error .overflow m')
    (h : (simulation K lax).Ends p p' θ Simulation.Any x x') :
    ∃ θ', θ ≤ θ' ∧ θ'.Completions x x' ∧ (endState x).place = p ∧ (endState x').place = p' ∧
      Alike K θ' (endState x).store (endState x').store := by
  cases h with
  | ok hle hs _ => exact ⟨_, hle, .normal, rfl, rfl, hs⟩
  | error hle hs he => exact ⟨_, hle, .early he, rfl, rfl, hs⟩
  | left h => exact absurd rfl ((hlax h).1 _)
  | right h => exact absurd rfl ((hlax h).2 _)

end Thinning

/-! ### What is executed later -/

/-- The machine after some statements, each of them executed at a place of its own, however those
before it have ended. -/
def Machine.afterwards (host : Host) (m : Machine) (steps : List (Place × Node)) : Machine :=
  steps.foldl (fun m step => endState (Run.execute host step.2 (m.store.at step.1))) m

/-- The machine in which an execution has ended. If a function has given back a value, a variable
may have got it. -/
def Machine.delivered (target : Option (ScopeId × String)) :
    EStateM.Result Interrupt Machine Unit → Machine
  | .error (.returned v) m =>
    match target with
    | some (id, name) => { m with scopes := m.scopes.define id name v }
    | none => m
  | x => endState x

/-- A place that lies in a region. -/
def Machine.Region.Sees {m : Machine} (K : m.Region) (p : Place) : Prop :=
  ∀ id ∈ p.scope.scopes, K.holds id

namespace Thinning

variable {m : Machine}

/-- Two machines that cannot be told apart: after any statements any other one comes to the same
end, and has printed the same. -/
def Indistinct (host : Host) (K : m.Region) (θ : Thinning) (m₁ m₂ : Machine) : Prop :=
  ∀ steps p n, (∀ step ∈ steps, K.Sees step.1) → K.Sees p → ∃ θ', θ ≤ θ' ∧
    θ'.Completions (Run.execute host n ((m₁.afterwards host steps).store.at p))
      (Run.execute host n ((m₂.afterwards host steps).store.at p)) ∧
    (endState (Run.execute host n ((m₁.afterwards host steps).store.at p))).output
      = (endState (Run.execute host n ((m₂.afterwards host steps).store.at p))).output

variable {K : m.Region} {θ : Thinning} {m₁ m₂ : Machine} (host : Host)

theorem exists_of_execute (hs : Alike K θ m₁.store m₂.store) {p : Place} (hp : K.Sees p)
    (n : Node) : ∃ θ', θ ≤ θ' ∧
    θ'.Completions (Run.execute host n (m₁.store.at p)) (Run.execute host n (m₂.store.at p)) ∧
    Alike K θ' (endState (Run.execute host n (m₁.store.at p))).store
      (endState (Run.execute host n (m₂.store.at p))).store := by
  obtain ⟨hhere, houter⟩ := List.forall_mem_cons.mp hp
  have hhome : (simulation K False).Writable θ p p :=
    ⟨⟨hs.scopes_same hhere, .same fun id hid => hs.scopes_same (houter id hid)⟩, .rfl⟩
  have hengines := (lawful K False).ofDepth host (.inr rfl : False ∨ host.depth = host.depth)
  have hends := hengines.execute (n := n) rfl hhome m₁.store m₂.store hs
  obtain ⟨θ', hle, hcompletion, -, -, hs'⟩ := exists_of_ends False.elim hends
  exact ⟨θ', hle, hcompletion, hs'⟩

theorem exists_of_afterwards (hs : Alike K θ m₁.store m₂.store) {steps : List (Place × Node)}
    (hsteps : ∀ step ∈ steps, K.Sees step.1) : ∃ θ', θ ≤ θ' ∧
    Alike K θ' (m₁.afterwards host steps).store (m₂.afterwards host steps).store := by
  induction steps generalizing θ m₁ m₂ with
  | nil => exact ⟨θ, le_rfl, hs⟩
  | cons step steps ih =>
    obtain ⟨hstep, hsteps⟩ := List.forall_mem_cons.mp hsteps
    obtain ⟨θ₁, hle, -, hs₁⟩ := exists_of_execute host hs hstep step.2
    obtain ⟨θ₂, hle', hs₂⟩ := ih hs₁ hsteps
    exact ⟨θ₂, hle.trans hle', hs₂⟩

/-- Machines whose stores are alike cannot be told apart. -/
theorem Alike.indistinct (hs : Alike K θ m₁.store m₂.store) : Indistinct host K θ m₁ m₂ := by
  intro steps p n hsteps hp
  obtain ⟨θ₁, hle, hs₁⟩ := exists_of_afterwards host hs hsteps
  obtain ⟨θ₂, hle', hcompletion, hs₂⟩ := exists_of_execute host hs₁ hp n
  exact ⟨θ₂, hle.trans hle', hcompletion, hs₂.output⟩

variable {x x' : EStateM.Result Interrupt Machine Unit}

theorem Alike.delivered (hs : Alike K θ (endState x).store (endState x').store)
    (hx : θ.Completions x x') {target : Option (ScopeId × String)}
    (htarget : ∀ b ∈ target, K.holds b.1) :
    Alike K θ (Machine.delivered target x).store (Machine.delivered target x').store := by
  cases hx with
  | returned hv =>
    cases target with
    | none => exact hs
    | some b => exact hs.define (hs.scopes_same (htarget b rfl)) b.2 hv
  | _ => exact hs

/-- How two executions end that begin in one machine and of which the first makes hollow scopes: in
the same way, with corresponding values, at the place where they began, and after the same output.
Scopes of the region still correspond to themselves, and all other pairs, like the hollow scopes,
are new. Scopes that correspond hold what corresponds, those outside of the region hold what they
held, and no scope that was there has got a name. What is executed later cannot tell the one from
the other, not even if it calls a function that has been given back. -/
structure EndsAlike (host : Host) (K : m.Region) (θ : Thinning)
    (x x' : EStateM.Result Interrupt Machine Unit) : Prop where
  completion : θ.Completions x x'
  place : (endState x).place = m.place ∧ (endState x').place = m.place
  output : (endState x).output = (endState x').output
  scopes_same {id : ScopeId} : K.holds id → θ.scopes id id
  scopes_new {id id' : ScopeId} :
    θ.scopes id id' → id = id' ∧ K.holds id ∨ m.scopes.next ≤ id ∧ m.scopes.next ≤ id'
  hollow_new {id : ScopeId} :
    θ.hollow id → m.scopes.next ≤ id ∧ (endState x).scopes.table id = []
  tables {id id' : ScopeId} : θ.scopes id id' →
    likeness.Tables θ ((endState x).scopes.table id) ((endState x').scopes.table id')
  kept {id : ScopeId} : id < m.scopes.next → ¬ K.holds id →
    (endState x).scopes.table id = m.scopes.table id ∧
      (endState x').scopes.table id = m.scopes.table id
  names : m.scopes.SameNames (endState x).scopes none ∧ m.scopes.SameNames (endState x').scopes none
  later {target : Option (ScopeId × String)} : (∀ b ∈ target, K.holds b.1) →
    Indistinct host K θ (Machine.delivered target x) (Machine.delivered target x')

/-- Steps that agree end alike, if the first of them gives no name to a scope that was there, and
neither overflows in case that nothing is said of overflows. -/
theorem exists_endsAlike {lax : Prop} {r r' : Run Unit}
    (hlax : lax → (∀ m', r m ≠ .error .overflow m') ∧ ∀ m', r' m ≠ .error .overflow m')
    (hr : (simulation K lax).Agree m.place m.place K.thinning Simulation.Any r r')
    (hnames : m.scopes.SameNames (endState (r m)).scopes none) :
    ∃ θ, EndsAlike host K θ (r m) (r' m) := by
  obtain ⟨θ, -, hcompletion, hplace, hplace', hs⟩ :=
    exists_of_ends hlax (hr m.store m.store ⟨K.stores, .start K⟩)
  have hnames' : m.scopes.SameNames (endState (r' m)).scopes none := by
    -- In the region the tables of the two sides have the same names, outside nothing has changed.
    intro id hid hfree
    by_cases hheld : K.holds id
    · exact (names_eq (hs.tables (hs.scopes_same hheld))).symm.trans (hnames id hid hfree)
    · exact congrArg Table.names (hs.spares.2.kept hid hheld)
  refine ⟨θ, ?_⟩
  exact {
    completion := hcompletion
    place := ⟨hplace, hplace'⟩
    output := hs.output
    scopes_same := hs.scopes_same
    scopes_new := hs.scopes_new
    hollow_new := fun hid => ⟨hs.hollow_new hid, hs.table_hollow hid⟩
    tables := hs.tables
    kept := fun hid hnot => ⟨hs.spares.1.kept hid hnot, hs.spares.2.kept hid hnot⟩
    names := ⟨hnames, hnames'⟩
    later := fun htarget => (hs.delivered hcompletion htarget).indistinct host }

end Thinning

end Lox
