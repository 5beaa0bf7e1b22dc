import Lox.Proofs.Execution.Progress

/-!
# The scope that a name belongs to

A name belongs to the nearest scope that has it: one goes outwards from a scope, past those that do
not have the name. What is read is the entry there, what is assigned changes that entry and no other
one, and what is defined is seen from where nothing nearer has the name. This is said here along the
scopes, each inside another one, and not along the list of numbers that the search goes through.

Scopes are shared: many chains lead through one scope. A write to it is seen through all of them,
and through no other one, since no two scopes of a heap have the same number.

## Main definitions

* `Scopes.Built`: the heaps of scopes that arise by making, defining and assigning.
* `Scopes.Unshadowed`, `Scopes.Owner`: the way outwards past scopes without a name, and its end.
* `Scopes.Written`: two heaps that are told apart by one entry only.

## Main results

* `Scopes.Built.written_define`: what a definition changes, for every scope and every name.
* `Scopes.nearest_definition`: reading, assigning and defining at the nearest scope.
-/

namespace Lox

/-- A scope is an outermost one or inside another one. -/
@[elab_as_elim]
theorem Chain.induction {motive : Chain → Prop} (outermost : ∀ id, motive ⟨id, []⟩)
    (inner : ∀ (c : Chain) (id : ScopeId), motive c → motive (c.extend id)) (c : Chain) :
    motive c := by
  obtain ⟨here, outer⟩ := c
  induction outer generalizing here with
  | nil => exact outermost here
  | cons id ids ih => exact inner ⟨id, ids⟩ here (ih id)

/-- The scope around a scope. -/
def Chain.around? : Chain → Option Chain
  | ⟨_, []⟩ => none
  | ⟨_, id :: ids⟩ => some ⟨id, ids⟩

@[simp]
theorem Chain.around?_extend (c : Chain) (id : ScopeId) : (c.extend id).around? = some c := rfl

namespace Scopes

/-- The heaps of scopes, with the chain of each scope, that arise when outermost scopes and scopes
inside others are made, and names are defined in them and assigned to. -/
inductive Built : Scopes → List Chain → Prop
  | empty : Built .empty []
  | root {s : Scopes} {cs : List Chain} (t : Table) (h : Built s cs) :
      Built (s.push t) (⟨s.next, []⟩ :: cs)
  | child {s : Scopes} {cs : List Chain} {c : Chain} (h : Built s cs) (hc : c ∈ cs) :
      Built (s.push []) (c.extend s.next :: cs)
  | define {s : Scopes} {cs : List Chain} {c : Chain} (a : String) (v : Value) (h : Built s cs)
      (hc : c ∈ cs) : Built (s.define c.here a v) cs
  | assign {s s' : Scopes} {cs : List Chain} {c : Chain} {a : String} {v : Value}
      (h : Built s cs) (hc : c ∈ cs) (hassign : s.assign? c a v = some s') : Built s' cs

/-- On the way outwards from the first scope, none in front of the second one has the name. -/
inductive Unshadowed (s : Scopes) (a : String) : Chain → Chain → Prop
  | here (c : Chain) : Unshadowed s a c c
  | outer {c p o : Chain} (hmissing : s.local? c.here a = none) (haround : c.around? = some p)
      (h : Unshadowed s a p o) : Unshadowed s a c o

/-- The second scope is the nearest to the first one that has the name in its own table. -/
def Owner (s : Scopes) (a : String) (c o : Chain) : Prop :=
  s.Unshadowed a c o ∧ (s.local? o.here a).isSome

/-- From some of the scopes a name is read with a new value; apart from that every name is read from
every scope as before. -/
def Written (s s' : Scopes) (cs : List Chain) (a : String) (v : Value) (seen : Chain → Prop) :
    Prop :=
  ∀ c ∈ cs, (seen c → s'.get? c a = some v) ∧
    ∀ a', (a' = a → ¬ seen c) → s'.get? c a' = s.get? c a'

/-! ### Heaps that arise -/

namespace Built

variable {s : Scopes} {cs : List Chain} {c c' : Chain}

theorem lt_next (h : Built s cs) (hc : c ∈ cs) : ∀ id ∈ c.scopes, id < s.next := by
  induction h generalizing c with
  | empty => cases hc
  | @root s cs t _ ih =>
    rw [next_push]
    obtain rfl | hc := List.mem_cons.mp hc
    · exact List.forall_mem_singleton.mpr (Nat.lt_succ_self _)
    · exact fun id hid => Nat.lt_succ_of_lt (ih hc id hid)
  | @child s cs p _ hp ih =>
    rw [next_push]
    obtain rfl | hc := List.mem_cons.mp hc
    · exact List.forall_mem_cons.mpr
        ⟨Nat.lt_succ_self _, fun id hid => Nat.lt_succ_of_lt (ih hp id hid)⟩
    · exact fun id hid => Nat.lt_succ_of_lt (ih hc id hid)
  | define a v _ _ ih =>
    rw [next_define]
    exact ih hc
  | assign _ _ hassign ih =>
    obtain ⟨id, -, rfl⟩ := Option.map_eq_some_iff.mp hassign
    rw [next_define]
    exact ih hc

/-- The scope around a scope of a heap belongs to the heap. -/
theorem mem_of_around? (h : Built s cs) (hc : c ∈ cs) (haround : c.around? = some c') :
    c' ∈ cs := by
  induction h generalizing c c' with
  | empty => cases hc
  | root t _ ih =>
    obtain rfl | hc := List.mem_cons.mp hc
    · cases haround
    · exact .tail _ (ih hc haround)
  | @child _ _ p _ hp ih =>
    obtain rfl | hc := List.mem_cons.mp hc
    · obtain rfl : p = c' := Option.some.inj haround
      exact .tail _ hp
    · exact .tail _ (ih hc haround)
  | define _ _ _ _ ih => exact ih hc haround
  | assign _ _ _ ih => exact ih hc haround

/-- A scope is told from the others by its number. -/
theorem eq_of_here_eq (h : Built s cs) (hc : c ∈ cs) (hc' : c' ∈ cs) (hhere : c.here = c'.here) :
    c = c' := by
  have hnew {s : Scopes} {cs : List Chain} (h : Built s cs) {o : Chain} (ho : o ∈ cs) :
      o.here ≠ s.next := Nat.ne_of_lt (h.lt_next ho _ (.head _))
  induction h generalizing c c' with
  | empty => cases hc
  | root t h ih =>
    obtain rfl | hc := List.mem_cons.mp hc
    · obtain rfl | hc' := List.mem_cons.mp hc'
      · rfl
      · exact absurd hhere.symm (hnew h hc')
    · obtain rfl | hc' := List.mem_cons.mp hc'
      · exact absurd hhere (hnew h hc)
      · exact ih hc hc' hhere
  | child h _ ih =>
    obtain rfl | hc := List.mem_cons.mp hc
    · obtain rfl | hc' := List.mem_cons.mp hc'
      · rfl
      · exact absurd hhere.symm (hnew h hc')
    · obtain rfl | hc' := List.mem_cons.mp hc'
      · exact absurd hhere (hnew h hc)
      · exact ih hc hc' hhere
  | define _ _ _ _ ih => exact ih hc hc' hhere
  | assign _ _ _ ih => exact ih hc hc' hhere

end Built

/-! ### Reading -/

section Reading

variable {s : Scopes} {a : String} {c p o o' : Chain}

theorem get?_of_local? {v : Value} (h : s.local? c.here a = some v) : s.get? c a = some v := by
  rw [get?, Chain.scopes, List.findSome?_cons, h]

theorem get?_of_around? (h : s.local? c.here a = none) (haround : c.around? = some p) :
    s.get? c a = s.get? p a := by
  obtain ⟨here, _ | ⟨id, ids⟩⟩ := c
  · cases haround
  · obtain rfl := Option.some.inj haround
    rw [get?, Chain.scopes, List.findSome?_cons, h]
    rfl

theorem get?_outermost (h : s.local? c.here a = none) (haround : c.around? = none) :
    s.get? c a = none := by
  obtain ⟨here, _ | ⟨id, ids⟩⟩ := c
  · rw [get?, Chain.scopes, List.findSome?_cons, h]
    rfl
  · cases haround

theorem Unshadowed.get?_eq (h : s.Unshadowed a c o) : s.get? c a = s.get? o a := by
  induction h with
  | here => rfl
  | outer hmissing haround _ ih => rw [get?_of_around? hmissing haround, ih]

/-- A name that has an owner is read there. -/
theorem Owner.exists_get?_eq (h : s.Owner a c o) :
    ∃ v, s.local? o.here a = some v ∧ s.get? c a = some v := by
  obtain ⟨v, hv⟩ := Option.isSome_iff_exists.mp h.2
  exact ⟨v, hv, h.1.get?_eq.trans (get?_of_local? hv)⟩

theorem exists_owner_or (s : Scopes) (a : String) (c : Chain) :
    (∃ o, s.Owner a c o) ∨ s.get? c a = none := by
  induction c using Chain.induction with
  | outermost id =>
    cases hid : s.local? id a with
    | none => exact .inr (get?_outermost hid rfl)
    | some v => exact .inl ⟨_, .here _, Option.isSome_of_eq_some hid⟩
  | inner c id ih =>
    cases hid : s.local? id a with
    | none =>
      obtain ⟨o, hway, howns⟩ | hnone := ih
      · exact .inl ⟨o, .outer hid rfl hway, howns⟩
      · exact .inr ((get?_of_around? hid rfl).trans hnone)
    | some v => exact .inl ⟨_, .here _, Option.isSome_of_eq_some hid⟩

/-- A name cannot be read exactly if it has no owner. -/
theorem get?_eq_none_iff : s.get? c a = none ↔ ¬ ∃ o, s.Owner a c o := by
  constructor
  · rintro hnone ⟨o, ho⟩
    obtain ⟨v, -, hv⟩ := ho.exists_get?_eq
    cases hnone.symm.trans hv
  · exact fun hnone => (s.exists_owner_or a c).resolve_left hnone

/-- What is read depends on the scopes that are not shadowed only. -/
theorem get?_congr {s' : Scopes}
    (h : ∀ o, s.Unshadowed a c o → s'.local? o.here a = s.local? o.here a) :
    s'.get? c a = s.get? c a := by
  induction c using Chain.induction with
  | outermost id =>
    have hhere : s'.local? id a = s.local? id a := h _ (.here _)
    simp only [get?, Chain.scopes, List.findSome?_cons, List.findSome?_nil, hhere]
  | inner c id ih =>
    have hhere : s'.local? id a = s.local? id a := h _ (.here _)
    cases hid : s.local? id a with
    | some w => exact (get?_of_local? (hhere.trans hid)).trans (get?_of_local? hid).symm
    | none =>
      have haround : s'.get? c a = s.get? c a := ih fun o hway => h o (.outer hid rfl hway)
      exact (get?_of_around? (hhere.trans hid) rfl).trans
        (haround.trans (get?_of_around? (c := c.extend id) hid rfl).symm)

/-- What the search along the chain finds is the owner. -/
theorem Owner.owner?_eq (h : s.Owner a c o) : s.owner? c a = some o.here := by
  obtain ⟨hway, howns⟩ := h
  induction hway with
  | here => simp [owner?, Chain.scopes, howns]
  | @outer c p _ hmissing haround _ ih =>
    obtain ⟨here, _ | ⟨id, ids⟩⟩ := c
    · cases haround
    · obtain rfl := Option.some.inj haround
      rw [owner?, Chain.scopes, List.find?_cons, hmissing]
      exact ih howns

theorem owner?_eq_none (h : s.get? c a = none) : s.owner? c a = none := by
  rw [get?, List.findSome?_eq_none_iff] at h
  rw [owner?, List.find?_eq_none]
  intro id hid
  rw [h id hid]
  exact Bool.false_ne_true

end Reading

/-! ### Writing -/

namespace Built

variable {s : Scopes} {cs : List Chain} {o : Chain}

theorem mem_of_unshadowed {a : String} {c : Chain} (h : Built s cs) (hc : c ∈ cs)
    (hway : s.Unshadowed a c o) : o ∈ cs := by
  induction hway with
  | here => exact hc
  | outer _ haround _ ih => exact ih (h.mem_of_around? hc haround)

/-- What is defined in a scope is read from where no nearer scope has the name, and nothing else
changes. -/
theorem written_define (h : Built s cs) (ho : o ∈ cs) (a : String) (v : Value) :
    s.Written (s.define o.here a v) cs a v fun c => s.Unshadowed a c o := by
  have hlocal := local?_define (h.lt_next ho o.here (.head _)) a v
  intro c hc
  refine ⟨fun hway => ?_, fun a' ha' => ?_⟩
  · induction hway with
    | here c => exact get?_of_local? ((hlocal c.here a).trans (if_pos ⟨rfl, rfl⟩))
    | @outer c p o hmissing haround _ ih =>
      by_cases heq : c.here = o.here
      · exact get?_of_local? ((hlocal c.here a).trans (if_pos ⟨heq, rfl⟩))
      · have hstill := (hlocal c.here a).trans (if_neg fun h => heq h.1)
        rw [get?_of_around? (hstill.trans hmissing) haround]
        exact ih ho hlocal (h.mem_of_around? hc haround)
  · refine get?_congr fun p hway => (hlocal p.here a').trans (if_neg ?_)
    rintro ⟨heq, rfl⟩
    obtain rfl := h.eq_of_here_eq (h.mem_of_unshadowed hc hway) ho heq
    exact ha' rfl hway

/-- What is assigned to a name is read from where the name has the same owner, and nothing else
changes. -/
theorem written_owner {a : String} {c : Chain} (h : Built s cs) (hc : c ∈ cs)
    (ho : s.Owner a c o) (v : Value) :
    s.Written (s.define o.here a v) cs a v fun c' => s.Owner a c' o := by
  have hdefine := h.written_define (h.mem_of_unshadowed hc ho.1) a v
  intro c' hc'
  obtain ⟨hseen, hkept⟩ := hdefine c' hc'
  exact ⟨fun howner => hseen howner.1, fun a' ha' =>
    hkept a' fun heq hway => ha' heq ⟨hway, ho.2⟩⟩

end Built

/-- Names are read, assigned and defined at the nearest scope. A name without an owner can be neither
read nor assigned, and then nothing changes; otherwise its owner's entry is read. An assignment is
read from exactly those scopes from which the name has the same owner, a definition from those that
lie inside the scope with nothing nearer that has the name, and nothing else changes. -/
theorem nearest_definition {m : Machine} {cs : List Chain} (hbuilt : m.scopes.Built cs)
    (hscope : m.scope ∈ cs) (name : Token) (v : Value) :
    (∀ o, m.scopes.Owner name.lexeme m.scope o →
      ∃ w, m.scopes.local? o.here name.lexeme = some w ∧ Run.lookup name m = .ok w m) ∧
    (Run.lookup name m = .error (.failed ⟨.undefinedVariable name.lexeme, some name⟩) m ↔
      ¬ ∃ o, m.scopes.Owner name.lexeme m.scope o) ∧
    (Run.assign name v m = .error (.failed ⟨.undefinedVariable name.lexeme, some name⟩) m ↔
      ¬ ∃ o, m.scopes.Owner name.lexeme m.scope o) ∧
    (∀ o, m.scopes.Owner name.lexeme m.scope o →
      ∃ s', Run.assign name v m = .ok () { m with scopes := s' } ∧ s'.Built cs ∧
        m.scopes.Written s' cs name.lexeme v fun c => m.scopes.Owner name.lexeme c o) ∧
    ∃ s', Run.define name.lexeme v m = .ok () { m with scopes := s' } ∧ s'.Built cs ∧
      m.scopes.Written s' cs name.lexeme v fun c => m.scopes.Unshadowed name.lexeme c m.scope := by
  have hread {o : Chain} (ho : m.scopes.Owner name.lexeme m.scope o) :
      ∃ w, m.scopes.local? o.here name.lexeme = some w ∧ Run.lookup name m = .ok w m := by
    obtain ⟨w, hw, hget⟩ := ho.exists_get?_eq
    exact ⟨w, hw, by rw [Run.lookup, hget]⟩
  have hassigned {o : Chain} (ho : m.scopes.Owner name.lexeme m.scope o) :
      Run.assign name v m
        = .ok () { m with scopes := m.scopes.define o.here name.lexeme v } := by
    rw [Run.assign, ho.owner?_eq]
  refine ⟨fun o => hread, ⟨?_, fun hnone => ?_⟩, ⟨?_, fun hnone => ?_⟩, fun o ho => ?_, ?_⟩
  · rintro hfails ⟨o, ho⟩
    obtain ⟨w, -, hw⟩ := hread ho
    cases hfails.symm.trans hw
  · rw [Run.lookup, get?_eq_none_iff.mpr hnone]
  · rintro hfails ⟨o, ho⟩
    cases hfails.symm.trans (hassigned ho)
  · rw [Run.assign, owner?_eq_none (get?_eq_none_iff.mpr hnone)]
  · have hassign : m.scopes.assign? m.scope name.lexeme v
        = some (m.scopes.define o.here name.lexeme v) := by
      rw [assign?, ho.owner?_eq, Option.map_some]
    exact ⟨_, hassigned ho, .assign hbuilt hscope hassign, hbuilt.written_owner hscope ho v⟩
  · exact ⟨_, rfl, .define _ _ hbuilt hscope, hbuilt.written_define hscope _ v⟩

namespace Shared

/-- The variable `a` is defined in the outermost scope and in one of two scopes inside it; the
innermost scope lies inside that one. -/
def scopes : Scopes :=
  (((((Scopes.empty.push []).push []).push []).push []).define 0 "a" (.bool false)).define 1 "a" .nil

def outermost : Chain := ⟨0, []⟩

def left : Chain := outermost.extend 1

def right : Chain := outermost.extend 2

def innermost : Chain := left.extend 3

def chains : List Chain := [innermost, right, left, outermost]

theorem built : Built scopes chains :=
  .define (c := left) "a" .nil (.define (c := outermost) "a" (.bool false)
    (.child (c := left) (.child (c := outermost) (.child (c := outermost)
      (.root [] .empty) (by decide)) (by decide)) (by decide)) (by decide)) (by decide)

/-- The state in the innermost scope. -/
def machine : Machine := { Machine.fresh [] with scopes, scope := innermost }

/-- An assignment in the innermost scope is read from there and from the scope around it, but
neither from the one beside that nor from the outermost one. -/
theorem nearest_definition_shared :
    Built machine.scopes chains ∧ machine.scope ∈ chains ∧ machine.scopes.Owner "a" innermost left ∧
    ∃ s', Run.assign ⟨.identifier, "a", .nil, 1⟩ (.bool true) machine
        = .ok () { machine with scopes := s' } ∧
      s'.get? innermost "a" = some (.bool true) ∧ s'.get? left "a" = some (.bool true) ∧
      s'.get? right "a" = some (.bool false) ∧ s'.get? outermost "a" = some (.bool false) := by
  have hscope : machine.scope ∈ chains := by decide
  have howner : machine.scopes.Owner "a" innermost left := ⟨.outer rfl rfl (.here _), rfl⟩
  have howner' : machine.scopes.Owner "a" left left := ⟨.here _, rfl⟩
  have hright : ¬ machine.scopes.Owner "a" right left := by
    rintro ⟨hway, -⟩
    cases hway with
    | outer _ haround hway =>
      cases haround
      cases hway with
      | outer hmissing _ _ => cases hmissing
  have houtermost : ¬ machine.scopes.Owner "a" outermost left := by
    rintro ⟨hway, -⟩
    cases hway with
    | outer hmissing _ _ => cases hmissing
  obtain ⟨-, -, -, hassign, -⟩ :=
    nearest_definition built hscope ⟨.identifier, "a", .nil, 1⟩ (.bool true)
  obtain ⟨s', heq, -, hwritten⟩ := hassign left howner
  refine ⟨built, hscope, howner, s', heq, (hwritten innermost (by decide)).1 howner,
    (hwritten left (by decide)).1 howner', ?_, ?_⟩
  · exact (hwritten right (by decide)).2 "a" fun _ => hright
  · exact (hwritten outermost (by decide)).2 "a" fun _ => houtermost

end Shared

end Scopes

end Lox
