import Lox.Proofs.Execution.Renaming
import Lox.Proofs.Grammar.Proper

/-!
# What is out of reach makes no difference

A program gets at the scopes in effect, at the scopes around functions that it finds in these, and
so on. What else there is makes no difference to it, and it makes no difference there: two machines
that agree in what can be reached, and in what the host functions have noted, go on alike, whatever
else they hold, however many scopes they have and whatever has been printed before; and a scope that
is out of reach holds afterwards what it held before.

Alike means the same but for numbers of scopes and identities that are new.

## Main definitions

* `Machine.Reachable`: the scopes that a program can get at.
* `Machine.WellFormed`: only scopes that have been made can be reached.
* `Machine.AlikeInReach`: machines that agree in what can be reached.
* `EndsAlike`: how two runs from such machines end.

## Main results

* `locality`: expressions and statements end alike, and leave alone what is out of reach.
* `Session.wellFormed_obey`: every session has a well-formed machine.
-/

namespace Lox

/-- The identities that a value carries. -/
def Value.stamps : Value → List Nat
  | number ⟨_, .computed stamp⟩ => [stamp]
  | function f => f.identity :: Node.stampsAll f.body
  | _ => []

/-! ### Reachable scopes -/

namespace Machine

/-- The scopes that a program can get at: those in effect, and those around the functions that are
held in such scopes. -/
inductive Reachable (m : Machine) : ScopeId → Prop
  | inEffect {id : ScopeId} : id ∈ m.scope.scopes → Reachable m id
  | captured {id id' : ScopeId} {name : String} {f : Closure} :
      Reachable m id → (name, .function f) ∈ m.scopes.table id → id' ∈ f.scope.scopes →
      Reachable m id'

/-- A machine that refers to nothing that is yet to be made. -/
structure WellFormed (m : Machine) : Prop where
  scopes_lt {id : ScopeId} : m.Reachable id → id < m.scopes.next
  stamps_lt {id : ScopeId} {b : String × Value} {stamp : Nat} :
    m.Reachable id → b ∈ m.scopes.table id → stamp ∈ b.2.stamps → stamp < m.nextIdentity

/-- Two machines that stand at the same place and agree in what can be reached from there, and in
the notes of the host functions. -/
structure AlikeInReach (m m' : Machine) : Prop where
  scope : m.scope = m'.scope
  callDepth : m.callDepth = m'.callDepth
  notes : m.notes = m'.notes
  tables {id : ScopeId} : m.Reachable id → m.scopes.table id = m'.scopes.table id

namespace AlikeInReach

theorem refl (m : Machine) : m.AlikeInReach m := ⟨rfl, rfl, rfl, fun _ => rfl⟩

variable {m m' : Machine} (h : m.AlikeInReach m')

include h

theorem reachable_iff {id : ScopeId} : m.Reachable id ↔ m'.Reachable id := by
  constructor
  · intro hid
    induction hid with
    | inEffect hid => exact .inEffect (h.scope ▸ hid)
    | captured hid hf hid' ih => exact .captured ih (h.tables hid ▸ hf) hid'
  · intro hid
    induction hid with
    | inEffect hid => exact .inEffect (h.scope ▸ hid)
    | captured hid hf hid' ih => exact .captured ih ((h.tables ih).symm ▸ hf) hid'

end AlikeInReach

end Machine

/-! ### Machines that are alike by a renaming -/

namespace Renaming

variable {ρ : Renaming} {m m' : Machine}

/-- A value corresponds to itself if the identities and the scopes in it do. -/
theorem values_self {v : Value} (hstamps : ∀ stamp ∈ v.stamps, ρ.identities stamp stamp)
    (hscopes : ∀ f, v = .function f → ∀ id ∈ f.scope.scopes, ρ.scopes id id) :
    likeness.Values ρ v v := by
  refine .self ?_ ?_
  · rintro x i rfl
    exact hstamps i List.mem_cons_self
  · rintro f rfl
    obtain ⟨hidentity, hbody⟩ := List.forall_mem_cons.mp hstamps
    exact ⟨hidentity, rfl, rfl, List.forall₂_same.mpr fun _ _ => ⟨rfl, rfl⟩,
      forall₂_same hbody, List.forall₂_same.mpr (hscopes f rfl)⟩

/-- The identities in a value that corresponds to something do so as well. -/
theorem exists_of_mem_stamps {v v' : Value} (h : likeness.Values ρ v v') {stamp : Nat}
    (hstamp : stamp ∈ v.stamps) : ∃ stamp', ρ.identities stamp stamp' := by
  cases h with
  | nil | bool | string | native => cases hstamp
  | number x ho =>
    cases ho with
    | plain | literal => cases hstamp
    | computed hi =>
      obtain rfl := List.mem_singleton.mp hstamp
      exact ⟨_, hi⟩
  | @function f f' hf =>
    obtain rfl | hstamp := List.mem_cons.mp hstamp
    · exact ⟨_, hf.identity⟩
    · obtain ⟨n, hn, hstamp⟩ := Node.mem_stampsAll.mp hstamp
      obtain ⟨n', -, -, hself⟩ := Likeness.exists_mem_of_forall₂ hf.body hn
      exact ⟨stamp, hself stamp hstamp⟩

/-- What can be reached in one of two machines that are alike corresponds to something that can be
reached in the other. -/
theorem Stores.exists_of_reachable (h : ρ.Stores m.store m'.store)
    (hscope : likeness.chain ρ m.scope m'.scope) {id : ScopeId} (hid : m.Reachable id) :
    ∃ id', ρ.scopes id id' ∧ m'.Reachable id' := by
  induction hid with
  | inEffect hid =>
    obtain ⟨id', hid', hρ⟩ := Likeness.exists_mem_of_forall₂ hscope hid
    exact ⟨id', hρ, .inEffect hid'⟩
  | captured _ hf hcaptured ih =>
    obtain ⟨id', hρ, hid'⟩ := ih
    obtain ⟨b', hb', hname, hv⟩ := Likeness.exists_mem_of_forall₂ (h.tables hρ) hf
    obtain ⟨name', v'⟩ := b'
    cases hv with
    | function hclosure =>
      obtain ⟨id'', hid'', hρ'⟩ := Likeness.exists_mem_of_forall₂ hclosure.scope hcaptured
      exact ⟨id'', hρ', .captured hid' hb' hid''⟩

/-- A renaming mentions only what has been made. -/
theorem Stores.wellFormed (h : ρ.Stores m.store m'.store)
    (hscope : likeness.chain ρ m.scope m'.scope) : m.WellFormed where
  scopes_lt hid := by
    obtain ⟨id', hρ, -⟩ := h.exists_of_reachable hscope hid
    exact (h.scopes_lt hρ).1
  stamps_lt hid hb hstamp := by
    obtain ⟨id', hρ, -⟩ := h.exists_of_reachable hscope hid
    obtain ⟨b', -, -, hv⟩ := Likeness.exists_mem_of_forall₂ (h.tables hρ) hb
    obtain ⟨stamp', hstamp'⟩ := exists_of_mem_stamps hv hstamp
    exact (h.identities_lt hstamp').1

end Renaming

/-! ### Machines that agree in what can be reached -/

namespace Machine

/-- The renaming that changes no number, for what can be reached and for the identities that both
machines have given out. -/
def sameNumbers (m m' : Machine) : Renaming where
  scopes id id' := id = id' ∧ m.Reachable id
  identities i i' := i = i' ∧ i < m.nextIdentity ∧ i < m'.nextIdentity
  scopes_unique := by
    constructor
    · rintro _ _ _ ⟨rfl, -⟩ ⟨rfl, -⟩
      rfl
    · rintro _ _ _ ⟨rfl, -⟩ ⟨rfl, -⟩
      rfl
  identities_unique := by
    constructor
    · rintro _ _ _ ⟨rfl, -⟩ ⟨rfl, -⟩
      rfl
    · rintro _ _ _ ⟨rfl, -⟩ ⟨rfl, -⟩
      rfl

variable {m m' : Machine}

theorem AlikeInReach.chain (h : m.AlikeInReach m') :
    Renaming.likeness.chain (m.sameNumbers m') m.scope m'.scope :=
  h.scope ▸ List.forall₂_same.mpr fun _ hid => ⟨rfl, .inEffect hid⟩

/-- Machines that agree in what can be reached are alike without any renaming. -/
theorem AlikeInReach.stores (h : m.AlikeInReach m') (hm : m.WellFormed) (hm' : m'.WellFormed) :
    (m.sameNumbers m').Stores m.store m'.store where
  scopes_lt := by
    rintro id _ ⟨rfl, hid⟩
    exact ⟨hm.scopes_lt hid, hm'.scopes_lt (h.reachable_iff.mp hid)⟩
  identities_lt := by
    rintro i _ ⟨rfl, hi⟩
    exact hi
  tables := by
    rintro id _ ⟨rfl, hid⟩
    change Renaming.likeness.Tables _ (m.scopes.table id) (m'.scopes.table id)
    rw [← h.tables hid]
    refine List.forall₂_same.mpr fun b hb => ⟨rfl, Renaming.values_self ?_ ?_⟩
    · intro stamp hstamp
      have hb' : b ∈ m'.scopes.table id := h.tables hid ▸ hb
      exact ⟨rfl, hm.stamps_lt hid hb hstamp,
        hm'.stamps_lt (h.reachable_iff.mp hid) hb' hstamp⟩
    · obtain ⟨name, v⟩ := b
      rintro f rfl id' hid'
      exact ⟨rfl, .captured hid hb hid'⟩
  notes := h.notes

end Machine

/-! ### Runs that end alike -/

/-- Two runs that have ended with corresponding values, or with corresponding interrupts. -/
inductive Renaming.Results {α : Type} (Q : Renaming → α → α → Prop) (ρ : Renaming) :
    EStateM.Result Interrupt Machine α → EStateM.Result Interrupt Machine α → Prop
  | ok {a a' : α} {m m' : Machine} : Q ρ a a' → Results Q ρ (.ok a m) (.ok a' m')
  | error {e e' : Interrupt} {m m' : Machine} :
      likeness.Interrupts ρ e e' → Results Q ρ (.error e m) (.error e' m')

/-- How two runs end that begin in machines that agree in what can be reached: with the same result
at the same place, after the same has been printed, and with the same notes. A renaming that changes nothing of what could
be reached, and relates new numbers to new ones only, leads from what can be reached now in the one
machine to what can be reached in the other. Scopes that could not be reached hold what they
held. -/
structure EndsAlike {α : Type} (m m' : Machine) (Q : Renaming → α → α → Prop) (ρ : Renaming)
    (r r' : EStateM.Result Interrupt Machine α) : Prop where
  result : ρ.Results Q r r'
  place : (endState r).place = m.place ∧ (endState r').place = m'.place
  output : ∃ text, (endState r).output = m.output ++ text ∧ (endState r').output = m'.output ++ text
  notes : (endState r).notes = (endState r').notes
  scopes_same {id : ScopeId} : m.Reachable id → ρ.scopes id id
  scopes_new {id id' : ScopeId} : ρ.scopes id id' →
    id = id' ∧ m.Reachable id ∨ m.scopes.next ≤ id ∧ m'.scopes.next ≤ id'
  identities_same {i : Nat} : i < m.nextIdentity → i < m'.nextIdentity → ρ.identities i i
  identities_new {i i' : Nat} : ρ.identities i i' →
    i = i' ∧ i < m.nextIdentity ∧ i < m'.nextIdentity ∨
      m.nextIdentity ≤ i ∧ m'.nextIdentity ≤ i'
  tables {id id' : ScopeId} : ρ.scopes id id' → Renaming.likeness.Tables ρ
    ((endState r).scopes.table id) ((endState r').scopes.table id')
  reachable_left {id : ScopeId} : (endState r).Reachable id →
    ∃ id', ρ.scopes id id' ∧ (endState r').Reachable id'
  reachable_right {id' : ScopeId} : (endState r').Reachable id' →
    ∃ id, ρ.scopes id id' ∧ (endState r).Reachable id
  kept_left {id : ScopeId} : id < m.scopes.next → ¬ m.Reachable id →
    (endState r).scopes.table id = m.scopes.table id
  kept_right {id : ScopeId} : id < m'.scopes.next → ¬ m'.Reachable id →
    (endState r').scopes.table id = m'.scopes.table id
  wellFormed : (endState r).WellFormed ∧ (endState r').WellFormed

namespace Renaming

variable {α : Type} {Q : Renaming → α → α → Prop}

theorem exists_of_ends {ρ₀ w : Renaming} {s₀ s₀' : Store} {p p' : Place}
    {r r' : EStateM.Result Interrupt Machine α}
    (h : (simulation ρ₀ s₀ s₀').Ends p p' w Q r r') :
    ∃ ρ, ρ.Results Q r r' ∧ (endState r).place = p ∧ (endState r').place = p' ∧
      ρ.Stores (endState r).store (endState r').store ∧
      ρ₀.Since s₀ s₀' ρ (endState r).store (endState r').store := by
  cases h with
  | ok _ hs ha => exact ⟨_, .ok ha, rfl, rfl, hs.1, hs.2⟩
  | error _ hs he => exact ⟨_, .error he, rfl, rfl, hs.1, hs.2⟩
  | left h => exact h.elim
  | right h => exact h.elim

variable {m m' : Machine} {r : Run α}

/-- A step that ends alike in stores that are alike ends alike in machines that agree in what can be
reached. -/
theorem endsAlike_of_agree (hm : m.WellFormed) (hm' : m'.WellFormed) (h : m.AlikeInReach m')
    (hr : (simulation (m.sameNumbers m') m.store m'.store).Agree m.place m'.place
      (m.sameNumbers m') Q r r) :
    ∃ ρ, EndsAlike m m' Q ρ (r m) (r m') := by
  obtain ⟨ρ, hresults, hplace, hplace', hstores, hsince⟩ :=
    exists_of_ends (hr m.store m'.store ⟨h.stores hm hm', .refl _ _ _⟩)
  have hchain : likeness.chain ρ (endState (r m)).scope (endState (r m')).scope := by
    have hscope : (endState (r m)).scope = m.scope := congrArg Place.scope hplace
    have hscope' : (endState (r m')).scope = m'.scope := congrArg Place.scope hplace'
    rw [hscope, hscope']
    exact (likeness_mono hsince.le).chain h.chain
  refine ⟨ρ, ?_⟩
  exact {
    result := hresults
    place := ⟨hplace, hplace'⟩
    output := hsince.output
    notes := hstores.notes
    scopes_same := fun hid => hsince.le.1 _ _ ⟨rfl, hid⟩
    scopes_new := hsince.scopes_new
    identities_same := fun hi hi' => hsince.le.2 _ _ ⟨rfl, hi, hi'⟩
    identities_new := hsince.identities_new
    tables := hstores.tables
    reachable_left := hstores.exists_of_reachable hchain
    reachable_right := hstores.swap.exists_of_reachable hchain.flip
    kept_left := fun hid hnot => hsince.kept_left hid fun _ hρ => hnot hρ.2
    kept_right := fun hid hnot => hsince.kept_right hid fun _ hρ =>
      hnot (h.reachable_iff.mp (hρ.1 ▸ hρ.2))
    wellFormed := ⟨hstores.wellFormed hchain, hstores.swap.wellFormed hchain.flip⟩ }

end Renaming

/-! ### Sessions are well-formed -/

namespace Node

theorem stampsAll_eq_nil {ns : List Node} (h : ∀ n ∈ ns, n.stamps = []) : stampsAll ns = [] := by
  induction ns with
  | nil => rfl
  | cons n ns ih =>
    obtain ⟨hn, hns⟩ := List.forall_mem_cons.mp h
    rw [stampsAll, hn, ih hns, List.append_nil]

/-- What is read from a text carries no identity. -/
theorem ProperExpression.stamps_eq_nil {n : Node} (h : n.ProperExpression) : n.stamps = [] := by
  induction h with
  | @literal l hl =>
    cases l with
    | number n =>
      obtain ⟨x, o⟩ := n
      obtain rfl : o = .plain := hl
      rfl
    | _ => rfl
  | reference _ => rfl
  | grouping _ ih | unary _ _ ih | assign _ _ ih => simpa only [stamps] using ih
  | binary _ _ _ ihl ihr | logical _ _ _ ihl ihr =>
    rw [stamps, ihl, ihr, List.append_nil]
  | ternary _ _ _ _ ihc iht ihe => rw [stamps, ihc, iht, ihe, List.append_nil, List.append_nil]
  | call _ _ _ ihc ihs => rw [stamps, ihc, stampsAll_eq_nil ihs, List.append_nil]

theorem ProperStatement.stamps_eq_nil {n : Node} (h : n.ProperStatement) : n.stamps = [] := by
  induction h with
  | expression hn | print hn => exact hn.stamps_eq_nil
  | @declare _ n hn | @returning _ n hn =>
    cases n with
    | none => rfl
    | some e => exact (hn e rfl).stamps_eq_nil
  | block _ ih | function _ _ _ ih => exact stampsAll_eq_nil ih
  | @branch c t e hc _ _ iht ihe =>
    cases e with
    | none => rw [stamps, hc.stamps_eq_nil, iht, List.append_nil]
    | some e =>
      rw [stamps, hc.stamps_eq_nil, iht, ihe e rfl, List.append_nil, List.append_nil]
  | loop hc _ ih => rw [stamps, hc.stamps_eq_nil, ih, List.append_nil]

end Node

namespace Machine

section Globals

variable {m : Machine} (hscope : m.scope = globalScope)
  (hfunction : ∀ b ∈ m.globals, ∀ f, b.2 ≠ .function f)

include hscope hfunction

/-- At the global scope nothing else can be reached if this scope holds no functions but those of
the host. -/
theorem eq_of_reachable {id : ScopeId} (hid : m.Reachable id) : id = globalScope.here := by
  induction hid with
  | inEffect hid =>
    rw [hscope] at hid
    exact List.mem_singleton.mp hid
  | captured _ hf _ ih =>
    rw [ih] at hf
    exact absurd rfl (hfunction _ hf _)

/-- A machine at the global scope is well-formed if this scope holds plain data and host functions
only. -/
theorem wellFormed_of_globals (hnext : 0 < m.scopes.next)
    (hstamps : ∀ b ∈ m.globals, b.2.stamps = []) : m.WellFormed := by
  constructor
  · intro id hid
    rw [eq_of_reachable hscope hfunction hid]
    exact hnext
  · intro id b stamp hid hb hstamp
    rw [eq_of_reachable hscope hfunction hid] at hb
    rw [hstamps b hb] at hstamp
    cases hstamp

end Globals

theorem globals_fresh (natives : List Native) :
    (Machine.fresh natives).globals = nativeTable natives :=
  Scopes.table_push_next Scopes.empty (nativeTable natives)

theorem native_of_mem_globals_fresh {natives : List Native} {b : String × Value}
    (hb : b ∈ (Machine.fresh natives).globals) : ∃ index, b.2 = .native index := by
  rw [globals_fresh] at hb
  obtain ⟨n, -, rfl⟩ := List.mem_map.mp hb
  exact ⟨_, rfl⟩

theorem wellFormed_fresh (natives : List Native) : (Machine.fresh natives).WellFormed := by
  refine wellFormed_of_globals rfl (fun b hb f hf => ?_) (Nat.lt_succ_self 0) fun b hb => ?_
  · obtain ⟨index, hindex⟩ := native_of_mem_globals_fresh hb
    rw [hf] at hindex
    cases hindex
  · obtain ⟨index, hindex⟩ := native_of_mem_globals_fresh hb
    rw [hindex]
    rfl

end Machine

/-- In every session the machine is well-formed: what is read from texts carries no identities, so
that programs and entries lead from well-formed machines to such machines. -/
theorem Session.wellFormed_obey (host : Host) (reporter : Reporter) (settings : Settings)
    (orders : List Order) :
    (obey host orders (.fresh host reporter settings)).machine.WellFormed := by
  have hself {m : Machine} {ns : List Node} (hns : ∀ n ∈ ns, n.stamps = []) :
      List.Forall₂ (Renaming.likeness.statement (m.sameNumbers m)) ns ns := by
    refine Renaming.forall₂_same fun stamp hstamp => ?_
    rw [Node.stampsAll_eq_nil hns] at hstamp
    cases hstamp
  have hprogram (source : String) : Leads (fun m m' : Machine => m.WellFormed → m'.WellFormed)
      (Run.executeAll host (Program.ofText source).statements) := by
    intro m hm
    have hlawful := Renaming.lawful (m.sameNumbers m) m.store m.store
    have hns := hself (m := m) fun n hn => (Program.proper_ofText source n hn).stamps_eq_nil
    obtain ⟨ρ, hends⟩ := Renaming.endsAlike_of_agree hm hm (.refl m)
      (hlawful.executeAll (hlawful.ofDepth host (.inr rfl)) hns
        ⟨Machine.AlikeInReach.chain (.refl m), .rfl⟩)
    exact hends.wellFormed.1
  have hentry (text : String) (e : Node) (he : (Fragment.ofText text).expression = some e) :
      Leads (fun m m' : Machine => m.WellFormed → m'.WellFormed) (Run.evaluate host e) := by
    intro m hm
    have hlawful := Renaming.lawful (m.sameNumbers m) m.store m.store
    have hself : Renaming.likeness.expression (m.sameNumbers m) e e := by
      refine ⟨rfl, ?_⟩
      rw [(Fragment.proper_ofText he).stamps_eq_nil]
      exact List.forall_mem_nil _
    have hengines := hlawful.ofDepth host (.inr rfl : False ∨ host.depth = host.depth)
    obtain ⟨ρ, hends⟩ := Renaming.endsAlike_of_agree hm hm (.refl m)
      (hengines.evaluate hself ⟨Machine.AlikeInReach.chain (.refl m), .rfl⟩)
    exact hends.wellFormed.1
  have hsession := leads_obey (R := fun m m' : Machine => m.WellFormed → m'.WellFormed) host
    (fun _ => id) (fun h h' hm => h' (h hm)) hprogram hentry orders
      (.fresh host reporter settings)
  exact hsession (Machine.wellFormed_fresh host.natives)

/-! ### Locality -/

/-- What is out of reach makes no difference, and nothing is done to it. Let two machines stand at
the same place and agree in what can be reached from there and in the notes of the host functions,
whatever else they hold, and let an expression or a statement carry no identity that is yet to be
given out. It ends alike in both: with the same value, the same value given back by a function, the
same failure or an overflow, after the same output, with the same notes, and with the same scopes in
reach, but for the numbers of new scopes and identities. In either machine the scopes that were out
of reach hold what they held. -/
theorem locality (host : Host) {m m' : Machine} (hm : m.WellFormed) (hm' : m'.WellFormed)
    (h : m.AlikeInReach m') {n : Node}
    (hn : ∀ stamp ∈ n.stamps, stamp < m.nextIdentity ∧ stamp < m'.nextIdentity) :
    (∃ ρ, EndsAlike m m' Renaming.likeness.Values ρ (Run.evaluate host n m)
      (Run.evaluate host n m')) ∧
    ∃ ρ, EndsAlike m m' Simulation.Any ρ (Run.execute host n m) (Run.execute host n m') := by
  have hlawful := Renaming.lawful (m.sameNumbers m') m.store m'.store
  have hengines := hlawful.ofDepth host (.inr rfl : False ∨ host.depth = host.depth)
  have hself : ∀ stamp ∈ n.stamps, (m.sameNumbers m').identities stamp stamp :=
    fun stamp hstamp => ⟨rfl, hn stamp hstamp⟩
  have hcalls : m.callDepth = 0 ↔ m'.callDepth = 0 := by rw [h.callDepth]
  constructor
  · exact Renaming.endsAlike_of_agree hm hm' h
      (hengines.evaluate ⟨rfl, hself⟩ ⟨h.chain, hcalls⟩)
  · exact Renaming.endsAlike_of_agree hm hm' h
      (hengines.execute ⟨rfl, hself⟩ ⟨h.chain, hcalls⟩)

namespace Detached

/-- A machine that has a further scope, which nothing refers to, and has given out identities and
printed before. -/
def machine : Machine where
  scopes := (Machine.fresh CalledBack.host.natives).scopes.push [("a", .string "kept")]
  scope := Machine.globalScope
  callDepth := 0
  nextIdentity := 7
  output := "before"
  notes := []

theorem globals_machine : machine.globals = (Machine.fresh CalledBack.host.natives).globals :=
  Scopes.table_push_of_ne (Nat.ne_of_lt (Nat.lt_succ_self 0)) _

theorem function_not_mem_globals (b : String × Value) (hb : b ∈ machine.globals) (f : Closure) :
    b.2 ≠ .function f := by
  obtain ⟨index, hindex⟩ := Machine.native_of_mem_globals_fresh (globals_machine ▸ hb)
  rw [hindex]
  exact Value.noConfusion

theorem eq_of_reachable_machine {id : ScopeId} (hid : machine.Reachable id) :
    id = Machine.globalScope.here :=
  Machine.eq_of_reachable rfl function_not_mem_globals hid

theorem wellFormed_machine : machine.WellFormed := by
  refine Machine.wellFormed_of_globals rfl function_not_mem_globals (Nat.succ_pos 1) fun b hb => ?_
  obtain ⟨index, hindex⟩ := Machine.native_of_mem_globals_fresh (globals_machine ▸ hb)
  rw [hindex]
  rfl

theorem alikeInReach : machine.AlikeInReach (.fresh CalledBack.host.natives) where
  scope := rfl
  callDepth := rfl
  notes := rfl
  tables hid := by
    rw [eq_of_reachable_machine hid]
    exact globals_machine

/-- A declaration ends alike whether or not there is a further scope, and this scope stays as it
is. -/
theorem locality_detached :
    (∃ ρ, EndsAlike machine (.fresh CalledBack.host.natives) Simulation.Any ρ
      (Run.execute CalledBack.host CalledBack.declaration machine)
      (Run.execute CalledBack.host CalledBack.declaration (.fresh CalledBack.host.natives))) ∧
    (endState (Run.execute CalledBack.host CalledBack.declaration machine)).scopes.table 1
      = [("a", .string "kept")] := by
  have hn : ∀ stamp ∈ CalledBack.declaration.stamps,
      stamp < machine.nextIdentity ∧ stamp < (Machine.fresh CalledBack.host.natives).nextIdentity :=
    List.forall_mem_nil _
  obtain ⟨ρ, hends⟩ :=
    (locality CalledBack.host wellFormed_machine (Machine.wellFormed_fresh _) alikeInReach hn).2
  have hnot : ¬ machine.Reachable 1 := fun hid => by cases eq_of_reachable_machine hid
  exact ⟨⟨ρ, hends⟩, hends.kept_left (Nat.lt_succ_self 1) hnot⟩

end Detached

end Lox
