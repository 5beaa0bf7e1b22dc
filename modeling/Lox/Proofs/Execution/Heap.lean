import Lox.Proofs.Execution.Custody

/-!
# Every scope has one parent, every function one identity

A scope is made inside another one, which has been made before it, and never gets another parent. So
the scopes of a life form a tree that grows at its leaves: the chain of a scope is the path to the
outermost scope, which holds the global variables. An identity that is given to a function is never
given out again, so that functions with the same identity are the same.

A scope or an identity is told from all others by the number of those that have been made before. Of
two points of a life at which something is made one is over before the other begins, unless they lie
one inside the other; in both cases more has been made at the second one.

## Main definitions

* `Chain.Follows`: a chain that is the path to the outermost scope along given parents.
* `Task.Opens`: the tasks that make a scope.
* `Custody.heap`: chains follow the parents, functions are the ones that have been declared.

## Main results

* `Occurs.eq_of_grows`: what is made at two points of a life is not counted alike.
* `heap_wellFounded`: one tree of scopes and one record of functions hold for a whole session.
-/

namespace Lox

/-! ### Chains along parents -/

/-- A chain that leads from a scope to the outermost one along the parents. -/
inductive Chain.Follows (parent : ScopeId → Option ScopeId) : Chain → Prop
  | outermost : Follows parent Machine.globalScope
  | inner {c : Chain} {id : ScopeId} :
      parent id = some c.here → Follows parent c → Follows parent (c.extend id)

namespace Chain.Follows

variable {parent : ScopeId → Option ScopeId} {c c' : Chain}

/-- A scope has one chain. -/
theorem unique (hroot : parent Machine.globalScope.here = none) (h : Follows parent c)
    (h' : Follows parent c') (hhere : c.here = c'.here) : c = c' := by
  induction h generalizing c' with
  | outermost =>
    cases h' with
    | outermost => rfl
    | @inner c' id hid _ =>
      have hid' : parent Machine.globalScope.here = some c'.here := hhere ▸ hid
      exact absurd (hroot.symm.trans hid') (Option.some_ne_none _).symm
  | @inner c id hid _ ih =>
    cases h' with
    | outermost =>
      have hid' : parent Machine.globalScope.here = some c.here := hhere ▸ hid
      exact absurd (hroot.symm.trans hid') (Option.some_ne_none _).symm
    | @inner c' id' hid' h' =>
      obtain rfl : id = id' := hhere
      rw [ih h' (Option.some.inj (hid.symm.trans hid'))]

theorem getLast? (h : Follows parent c) : c.scopes.getLast? = some Machine.globalScope.here := by
  induction h with
  | outermost => rfl
  | inner _ _ ih => exact (List.getLast?_cons_cons ..).trans ih

theorem le_here (hlt : ∀ id p, parent id = some p → p < id) (h : Follows parent c) :
    ∀ id ∈ c.scopes, id ≤ c.here := by
  induction h with
  | outermost => exact List.forall_mem_singleton.mpr (Nat.le_refl _)
  | inner hid _ ih =>
    refine List.forall_mem_cons.mpr ⟨Nat.le_refl _, fun id hmem => ?_⟩
    exact Nat.le_of_lt (Nat.lt_of_le_of_lt (ih id hmem) (hlt _ _ hid))

/-- Where parents come before their children, a chain never comes back to a scope. -/
theorem pairwise (hlt : ∀ id p, parent id = some p → p < id) (h : Follows parent c) :
    c.scopes.Pairwise (· > ·) := by
  induction h with
  | outermost => exact List.pairwise_singleton _ _
  | inner hid h ih =>
    refine List.pairwise_cons.mpr ⟨fun id hmem => ?_, ih⟩
    exact Nat.lt_of_le_of_lt (h.le_here hlt id hmem) (hlt _ _ hid)

end Chain.Follows

/-! ### Where scopes and functions are made -/

/-- A task that makes a scope, and the chain that the scope is made inside. -/
inductive Task.Opens (m : Machine) : Task → Chain → Prop
  | block (ns : List Node) : Opens m (.execute (.block ns)) m.scope
  | call (f : Closure) (vs : List Value) : Opens m (.invoke (.function f) vs) f.scope

theorem Task.Opens.unique {m : Machine} {t : Task} {c c' : Chain} (h : t.Opens m c)
    (h' : t.Opens m c') : c = c' := by
  cases h <;> cases h' <;> rfl

/-- A task that makes more of something, before it starts anything. -/
structure Task.Grows (host : Host) (count : Machine → Nat) (depth : Nat) (t : Task) (m : Machine) :
    Prop where
  after : count m < count ((Engine.ofDepth host (depth + 1)).after t m)
  starts {t' : Task} {m' : Machine} :
    Engine.Starts host (.ofDepth host depth) t m t' m' → count m < count m'

section Grows

variable {host : Host} {depth : Nat} {m : Machine}

theorem Machine.lt_inScope (m : Machine) (c : Chain) (t : Table) :
    m.scopes.next < (m.inScope c t).scopes.next := by
  simp [inScope]

/-- The table of the scope that a task makes. -/
def Task.table : Task → Table
  | .invoke (.function f) vs => f.bindings vs
  | _ => []

/-- A scope is made before anything else is done. -/
theorem Task.Opens.precedes_after {t : Task} {c : Chain} (h : t.Opens m c) :
    (m.inScope c t.table).Precedes ((Engine.ofDepth host (depth + 1)).after t m) := by
  have hall := Run.handedOn_progresses.executeAll (Engine.ofDepth_progresses host depth)
  cases h with
  | block ns =>
    refine (hall ns _).trans ?_
    exact Engine.precedes_block ns m
  | call f vs =>
    refine (hall f.body _).trans ?_
    exact Engine.precedes_enter f vs m

theorem Task.Opens.precedes_starts {t t' : Task} {m' : Machine} {c : Chain} (h : t.Opens m c)
    (hstarts : Engine.Starts host (.ofDepth host depth) t m t' m') :
    (m.inScope c t.table).Precedes m' := by
  have hall := Run.handedOn_progresses.executeAll (Engine.ofDepth_progresses host depth)
  cases h with
  | block ns =>
    cases hstarts with
    | inBlock before hbefore => exact (hall before).of_ok hbefore
  | call f vs =>
    cases hstarts with
    | body before hf hbefore => exact (hall before).of_ok hbefore

theorem Task.Opens.grows {t : Task} {c : Chain} (h : t.Opens m c) :
    t.Grows host (·.scopes.next) depth m :=
  ⟨Nat.lt_of_lt_of_le (m.lt_inScope c t.table) h.precedes_after.scopes, fun hstarts =>
    Nat.lt_of_lt_of_le (m.lt_inScope c t.table) (h.precedes_starts hstarts).scopes⟩

/-- The execution of a declaration starts nothing. -/
theorem Task.grows_function (name : Token) (params : List Token) (body : List Node) :
    Task.Grows host (·.nextIdentity) depth (.execute (.function name params body)) m :=
  ⟨Nat.lt_succ_self _, fun hstarts => nomatch hstarts⟩

end Grows

/-- Two points of a life at which more is made of something are the same if as much of it was there
at both. -/
theorem Occurs.eq_of_grows {host : Host} {m₀ m m' : Machine} {ts : List Task} {d d' : Nat}
    {t t' : Task} {frames frames' : List Frame} {count : Machine → Nat}
    (hcount : ∀ {m m'}, Machine.Precedes m m' → count m ≤ count m')
    (h : Occurs host m₀ ts (d + 1) t m frames) (h' : Occurs host m₀ ts (d' + 1) t' m' frames')
    (hgrows : t.Grows host count d m) (hgrows' : t'.Grows host count d' m')
    (heq : count m = count m') : d = d' ∧ t = t' ∧ m = m' := by
  cases h.inside_or_apart h' with
  | inside hinside =>
    obtain ⟨hd, ht, hm, -⟩ | ⟨e, t₁, m₁, fs, hd, hstarts, hrest, -⟩ := hinside.eq_or_starts
    · exact ⟨Nat.succ.inj hd, ht, hm⟩
    · obtain rfl := Nat.succ.inj hd
      have hlt := Nat.lt_of_lt_of_le (hgrows.starts hstarts) (hcount hrest.precedes)
      exact absurd heq (Nat.ne_of_lt hlt)
  | around haround =>
    obtain ⟨hd, ht, hm, -⟩ | ⟨e, t₁, m₁, fs, hd, hstarts, hrest, -⟩ := haround.eq_or_starts
    · exact ⟨(Nat.succ.inj hd).symm, ht.symm, hm.symm⟩
    · obtain rfl := Nat.succ.inj hd
      have hlt := Nat.lt_of_lt_of_le (hgrows'.starts hstarts) (hcount hrest.precedes)
      exact absurd heq.symm (Nat.ne_of_lt hlt)
  | before hover => exact absurd heq (Nat.ne_of_lt (Nat.lt_of_lt_of_le hgrows.after (hcount hover)))
  | behind hover =>
    exact absurd heq.symm (Nat.ne_of_lt (Nat.lt_of_lt_of_le hgrows'.after (hcount hover)))

/-! ### The tree of scopes and the record of functions -/

/-- What is told from one value by a number has a record. -/
theorem exists_record {α : Type} {P : Nat → α → Prop} (hP : ∀ n a b, P n a → P n b → a = b) :
    ∃ record : Nat → Option α, ∀ n a, record n = some a ↔ P n a := by
  classical
  refine ⟨fun n => if h : ∃ a, P n a then some h.choose else none, fun n a => ?_⟩
  by_cases h : ∃ a, P n a
  · simp only [dif_pos h, Option.some_inj]
    exact ⟨fun ha => ha ▸ h.choose_spec, hP n _ _ h.choose_spec⟩
  · simp only [dif_neg h]
    exact ⟨nofun, fun ha => absurd ⟨a, ha⟩ h⟩

/-- The function that a declaration makes. -/
def Machine.closure (m : Machine) (name : Token) (params : List Token) (body : List Node) :
    Closure :=
  ⟨m.nextIdentity, name, params, body, m.scope⟩

section Records

variable (host : Host) (m₀ : Machine) (ts : List Task)

/-- At some point of a life a scope has been made inside another one. -/
def Opened (id p : ScopeId) : Prop :=
  ∃ d t m frames c, Occurs host m₀ ts (d + 1) t m frames ∧ t.Opens m c ∧ id = m.scopes.next ∧
    p = c.here

/-- At some point of a life a function has been made. -/
def Declared (identity : Nat) (f : Closure) : Prop :=
  ∃ d name params body m frames,
    Occurs host m₀ ts (d + 1) (.execute (.function name params body)) m frames ∧
      identity = m.nextIdentity ∧ f = m.closure name params body

variable {host m₀ ts}

theorem Opened.unique {id p q : ScopeId} (h : Opened host m₀ ts id p)
    (h' : Opened host m₀ ts id q) : p = q := by
  obtain ⟨d, t, m, frames, c, hocc, hopens, rfl, rfl⟩ := h
  obtain ⟨d', t', m', frames', c', hocc', hopens', hid, rfl⟩ := h'
  obtain ⟨-, rfl, rfl⟩ := hocc.eq_of_grows (fun h => h.scopes) hocc' hopens.grows hopens'.grows hid
  rw [hopens.unique hopens']

theorem Declared.unique {k : Nat} {f g : Closure} (h : Declared host m₀ ts k f)
    (h' : Declared host m₀ ts k g) : f = g := by
  obtain ⟨d, name, params, body, m, frames, hocc, rfl, rfl⟩ := h
  obtain ⟨d', name', params', body', m', frames', hocc', hk, rfl⟩ := h'
  obtain ⟨-, ht, rfl⟩ := hocc.eq_of_grows (fun h => h.identities) hocc'
    (Task.grows_function _ _ _) (Task.grows_function _ _ _) hk
  cases ht
  rfl

end Records

section Heap

variable (parent : ScopeId → Option ScopeId) (declared : Nat → Option Closure)

/-- The parents of all scopes that are made in a life, and all functions that are. -/
structure Records (host : Host) (m₀ : Machine) (ts : List Task) : Prop where
  parent {id p : ScopeId} : parent id = some p ↔ Opened host m₀ ts id p
  declared {k : Nat} {f : Closure} : declared k = some f ↔ Declared host m₀ ts k f

/-- A chain that follows the parents, of scopes that are there. -/
structure Chain.Rooted (m : Machine) (c : Chain) : Prop where
  follows : c.Follows parent
  lt : c.here < m.scopes.next

/-- A function that is the one with its identity, which has been given out, and that has been
declared in scopes that are there. -/
structure Closure.Recorded (m : Machine) (f : Closure) : Prop where
  declared : declared f.identity = some f
  lt : f.identity < m.nextIdentity
  rooted : f.scope.Rooted parent m

/-- A value that is no function, or one that has been recorded. -/
def Value.Recorded (m : Machine) (v : Value) : Prop :=
  ∀ f, v = .function f → f.Recorded parent declared m

/-- Chains follow the parents, and functions are the ones that have been declared. -/
def Custody.heap : Custody where
  machine m := m.scopes.All (Value.Recorded parent declared m)
  chain m c := c.Rooted parent m
  closure m f := f.Recorded parent declared m

variable {parent declared} {m m' : Machine}

theorem Chain.Rooted.mono {c : Chain} (h : c.Rooted parent m)
    (hm : m.scopes.next ≤ m'.scopes.next) : c.Rooted parent m' :=
  ⟨h.follows, Nat.lt_of_lt_of_le h.lt hm⟩

/-- A scope that is made inside a chain. -/
theorem Chain.Rooted.extend {c : Chain} (h : c.Rooted parent m)
    (hparent : parent m.scopes.next = some c.here) (t : Table) :
    (c.extend m.scopes.next).Rooted parent (m.inScope c t) :=
  ⟨.inner hparent h.follows, m.lt_inScope c t⟩

theorem Closure.Recorded.mono {f : Closure} (h : f.Recorded parent declared m)
    (hm : m.scopes.next ≤ m'.scopes.next) (hidentity : m.nextIdentity ≤ m'.nextIdentity) :
    f.Recorded parent declared m' :=
  ⟨h.declared, Nat.lt_of_lt_of_le h.lt hidentity, h.rooted.mono hm⟩

theorem Scopes.All.recorded {s : Scopes} (h : s.All (Value.Recorded parent declared m))
    (hscopes : m.scopes.next ≤ m'.scopes.next) (hidentity : m.nextIdentity ≤ m'.nextIdentity) :
    s.All (Value.Recorded parent declared m') :=
  h.mono fun _ hv f hf => (hv f hf).mono hscopes hidentity

namespace Custody

theorem heap_value_iff {v : Lox.Value} :
    (heap parent declared).Value m v ↔ v.Recorded parent declared m := by
  cases v with
  | function f => exact ⟨fun h g hg => by cases hg; exact h, fun h => h f rfl⟩
  | _ => exact iff_of_true trivial fun f hf => by cases hf

/-- A value that is given to a variable. -/
theorem heap_define (h : (heap parent declared).machine m) (id : ScopeId) (a : String)
    {v : Lox.Value} (hv : (heap parent declared).Value m v) :
    (heap parent declared).machine { m with scopes := m.scopes.define id a v } := by
  have hscopes : m.scopes.All (Value.Recorded parent declared m) := h
  have hnext : m.scopes.next ≤ (m.scopes.define id a v).next :=
    Nat.le_of_eq (Scopes.next_define ..).symm
  have hdefine := hscopes.define id a (heap_value_iff.mp hv)
  exact hdefine.recorded hnext (Nat.le_refl _)

/-- A scope that is made inside a chain. -/
theorem heap_inScope (h : (heap parent declared).machine m) {c : Chain} (hc : c.Rooted parent m)
    (hparent : parent m.scopes.next = some c.here) {t : Table}
    (ht : ∀ b ∈ t, (heap parent declared).Value m b.2) :
    (heap parent declared).Holds (m.inScope c t) := by
  have hscopes : m.scopes.All (Value.Recorded parent declared m) := h
  have hpush := hscopes.push fun b hb => heap_value_iff.mp (ht b hb)
  exact ⟨hpush.recorded (Nat.le_of_lt (m.lt_inScope c t)) (Nat.le_refl _), hc.extend hparent t⟩

theorem heap_kept : (heap parent declared).Kept where
  chain hm h := Chain.Rooted.mono h hm.scopes
  closure hm h := Closure.Recorded.mono h hm.scopes hm.identities
  congr := by
    intro m m' hscopes hidentity h
    have hall : m.scopes.All (Value.Recorded parent declared m) := h
    have hnext : m.scopes.next ≤ m'.scopes.next := Nat.le_of_eq (by rw [hscopes])
    have hall' := hall.recorded hnext hidentity
    rwa [← hscopes] at hall'
  get? h _ hv := heap_value_iff.mpr (Scopes.All.get? h hv)

/-- What is made at the points of a life is in custody. -/
theorem heap_admits {host : Host} {m₀ : Machine} {ts : List Lox.Task}
    (h : Records parent declared host m₀ ts) {d : Nat} {t : Lox.Task} {frames : List Frame}
    (hocc : Occurs host m₀ ts (d + 1) t m frames) :
    (heap parent declared).Admits (.ofDepth host d) m t := by
  have hopened {c : Chain} (hopens : t.Opens m c) : parent m.scopes.next = some c.here :=
    h.parent.mpr ⟨d, t, m, frames, c, hocc, hopens, rfl, rfl⟩
  cases t with
  | evaluate n =>
    cases n with
    | assign name value => exact fun v m' id _ _ hm' hv => heap_define hm'.machine _ _ hv
    | _ => trivial
  | execute n =>
    cases n with
    | declare name initializer => exact fun v m' _ hm' hv => heap_define hm'.machine _ _ hv
    | block ns =>
      exact fun hm => heap_inScope hm.machine hm.chain (hopened (.block ns)) (List.forall_mem_nil _)
    | function name params body =>
      intro hm
      have hmade := h.declared.mpr ⟨d, name, params, body, m, frames, hocc, rfl, rfl⟩
      have hscopes : m.scopes.All (Value.Recorded parent declared m) := hm.machine
      let m' : Machine := { m with nextIdentity := m.nextIdentity + 1 }
      have hidentity : m.nextIdentity ≤ m'.nextIdentity := Nat.le_succ _
      have hall : (heap parent declared).machine m' := hscopes.recorded (Nat.le_refl _) hidentity
      have hchain : m.scope.Rooted parent m := hm.chain
      exact heap_define hall m.scope.here name.lexeme
        ⟨hmade, Nat.lt_succ_self _, hchain.mono (Nat.le_refl _)⟩
    | _ => trivial
  | invoke callee vs =>
    cases callee with
    | function f =>
      intro hm hf hvs
      refine heap_inScope hm.machine hf.rooted (hopened (.call f vs)) fun b hb => ?_
      exact hvs b.2 (Closure.snd_of_mem_bindings hb)
    | _ => trivial

theorem heap_fresh (natives : List Native) :
    (heap parent declared).Holds (Machine.fresh natives) := by
  have hempty : Scopes.empty.All (Value.Recorded parent declared (.fresh natives)) := by
    intro id b hb
    rw [Scopes.table_of_next_le (Nat.zero_le id)] at hb
    cases hb
  refine ⟨hempty.push fun b hb f hf => ?_, .outermost, Nat.zero_lt_one⟩
  obtain ⟨n, -, rfl⟩ := List.mem_map.mp hb
  cases hf

end Custody

/-- A life has records, since nothing is made twice. -/
theorem Records.exists (host : Host) (m₀ : Machine) (ts : List Task) :
    ∃ parent declared, Records parent declared host m₀ ts := by
  obtain ⟨parent, hparent⟩ := exists_record (P := Opened host m₀ ts) fun _ _ _ => Opened.unique
  obtain ⟨declared, hdeclared⟩ :=
    exists_record (P := Declared host m₀ ts) fun _ _ _ => Declared.unique
  exact ⟨parent, declared, ⟨hparent _ _, hdeclared _ _⟩⟩

namespace Records

variable {host : Host} {ts : List Task} (h : Records parent declared host (.fresh host.natives) ts)

include h

/-- A scope that has been made was none of those that were there, the outermost one among them. -/
theorem parent_globalScope : parent Machine.globalScope.here = none := by
  refine Option.eq_none_iff_forall_ne_some.mpr fun p hp => ?_
  obtain ⟨d, t, m, frames, c, hocc, -, hid, -⟩ := h.parent.mp hp
  have hnext : 1 ≤ m.scopes.next := hocc.precedes.scopes
  exact absurd hid (Nat.ne_of_lt hnext)

variable (hts : ∀ t ∈ ts, t.IsOuter)

include hts

theorem holds_afterAll :
    (Custody.heap parent declared).Holds (host.engine.afterAll ts (.fresh host.natives)) :=
  Custody.heap_kept.afterAll (fun _ _ _ _ => Custody.heap_admits h) (Custody.heap_fresh _) hts

variable {depth : Nat} {t : Task} {frames : List Frame}

theorem occurs (hocc : Occurs host (.fresh host.natives) ts depth t m frames) :
    (Custody.heap parent declared).Holds m ∧ (Custody.heap parent declared).Task m t :=
  Custody.heap_kept.occurs (fun _ _ _ _ => Custody.heap_admits h) (Custody.heap_fresh _) hts hocc

theorem ends (hocc : Occurs host (.fresh host.natives) ts depth t m frames) :
    (Custody.heap parent declared).TaskEnds (.ofDepth host depth) m t :=
  Custody.heap_kept.occurs_ends (fun _ _ _ _ => Custody.heap_admits h) (Custody.heap_fresh _) hts
    hocc

/-- A parent has been made before its children. -/
theorem parent_lt (id p : ScopeId) (hp : parent id = some p) : p < id := by
  obtain ⟨d, t, m, frames, c, hocc, hopens, rfl, rfl⟩ := h.parent.mp hp
  obtain ⟨hm, ht⟩ := h.occurs hts hocc
  cases hopens with
  | block ns => exact hm.chain.lt
  | call f vs => exact ht.1.rooted.lt

end Records

end Heap

/-- The scopes and functions of a session that has begun with a new machine, whatever is run in it
and however it ends. Scopes have parents which have been made before them, one and the same for the
whole session, so that a scope has one chain, which never comes back to a scope and ends with the
global variables. At every point of the session, and when it is over, the chain of the scope in
effect is of this kind, and so is the chain of every function that is held in some scope, passed as
an argument or given back. There is one record of functions by their identities, which all these
functions are in. A declaration makes a function with an identity that none of those has that are
there, and that no other declaration executed in the session has given out or will do. -/
theorem heap_wellFounded (host : Host) (reporter : Reporter) (settings : Settings)
    (orders : List Session.Order) :
    ∃ (parent : ScopeId → Option ScopeId) (declared : Nat → Option Closure),
      (∀ id p, parent id = some p → p < id) ∧
      (∀ c : Chain, c.Follows parent →
        c.scopes.Pairwise (· > ·) ∧ c.scopes.getLast? = some Machine.globalScope.here ∧
          ∀ c' : Chain, c'.Follows parent → c'.here = c.here → c' = c) ∧
      (Custody.heap parent declared).Holds
        (Session.obey host orders (.fresh host reporter settings)).machine ∧
      (∀ depth t m frames,
        Session.Occurs host orders (.fresh host reporter settings) depth t m frames →
        (Custody.heap parent declared).Holds m ∧ (Custody.heap parent declared).Task m t ∧
          (Custody.heap parent declared).TaskEnds (.ofDepth host depth) m t) ∧
      (∀ depth t m frames c,
        Session.Occurs host orders (.fresh host reporter settings) (depth + 1) t m frames →
        t.Opens m c → parent m.scopes.next = some c.here) ∧
      ∀ depth name params body m frames,
        Session.Occurs host orders (.fresh host reporter settings) (depth + 1)
          (.execute (.function name params body)) m frames →
        declared m.nextIdentity = some (m.closure name params body) ∧
        (Engine.ofDepth host (depth + 1)).execute (.function name params body) m
          = .ok () { m with
            nextIdentity := m.nextIdentity + 1
            scopes := m.scopes.define m.scope.here name.lexeme
              (.function (m.closure name params body)) } ∧
        ∀ depth' name' params' body' m' frames',
          Session.Occurs host orders (.fresh host reporter settings) (depth' + 1)
            (.execute (.function name' params' body')) m' frames' →
          m'.nextIdentity = m.nextIdentity →
          depth' = depth ∧ Node.function name' params' body' = .function name params body ∧
            m' = m := by
  obtain ⟨parent, declared, h⟩ := Records.exists host (.fresh host.natives)
    (Session.tasks host orders (.fresh host reporter settings))
  have houter := Session.isOuter_of_tasks host orders (.fresh host reporter settings)
  have hlt := h.parent_lt houter
  refine ⟨parent, declared, hlt, fun c hc => ⟨hc.pairwise hlt, hc.getLast?, fun c' hc' hhere => ?_⟩,
    ?_, fun d t m frames hocc => ?_, fun d t m frames c hocc hopens => ?_,
    fun d name params body m frames hocc => ⟨?_, rfl, ?_⟩⟩
  · exact hc'.unique h.parent_globalScope hc hhere
  · rw [Session.machine_obey]
    exact h.holds_afterAll houter
  · obtain ⟨hm, ht⟩ := h.occurs houter hocc
    exact ⟨hm, ht, h.ends houter hocc⟩
  · exact h.parent.mpr ⟨d, t, m, frames, c, hocc, hopens, rfl, rfl⟩
  · exact h.declared.mpr ⟨d, name, params, body, m, frames, hocc, rfl, rfl⟩
  · intro d' name' params' body' m' frames' hocc' hidentity
    obtain ⟨rfl, hnode, rfl⟩ := hocc'.eq_of_grows (fun h => h.identities) hocc
      (Task.grows_function _ _ _) (Task.grows_function _ _ _) hidentity
    exact ⟨rfl, Task.execute.inj hnode, rfl⟩

end Lox
